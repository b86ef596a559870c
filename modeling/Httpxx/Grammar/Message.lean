import Httpxx.Parser.Safety

/-!
The messages the parser is for, as a grammar. A value of one of these types is a
derivation: it says how a string is divided into tokens, header lines, folds,
chunks and so on, and carries the proofs that every part is within its class and
its limit, so that `Message lim` has no malformed inhabitant. `text` is the string
that is divided, and `shown` and `data` are what it means.

How the body is delimited is said here of the list of header lines, in the order
in which they stand.
-/

namespace Httpxx.Grammar

open Library

/-- An element of a header value: a character, or a fold, that is a line break
followed by a space or a tab. -/
inductive ValueItem
  | char (ch : Byte) (h : isControl ch = false)
  | fold (ws : Byte) (h : isSpaceOrTab ws = true)

namespace ValueItem

def text : ValueItem → Bytes
  | char ch _ => [ch]
  | fold ws _ => [CR, LF, ws]

def unfolded : ValueItem → Byte
  | char ch _ => ch
  | fold _ _ => SP

theorem isControl_unfolded (i : ValueItem) : isControl i.unfolded = false := by
  cases i with
  | char ch h => exact h
  | fold ws h => rfl

end ValueItem

/-- A header line, with its continuation lines. -/
structure HeaderLine (lim : Limits) where
  name : Bytes
  value : List ValueItem
  name_safe : NameSafe lim name
  value_length : value.length ≤ lim.maxHeaderValueLength

namespace HeaderLine

variable {lim : Limits}

def text (h : HeaderLine lim) : Bytes :=
  h.name ++ colon :: h.value.flatMap ValueItem.text ++ [CR, LF]

theorem length_text_pos (h : HeaderLine lim) : 0 < h.text.length := by
  simp [text]

def unfolded (h : HeaderLine lim) : Bytes := h.value.map ValueItem.unfolded

def entry (h : HeaderLine lim) : Bytes × Bytes := (h.name, trim h.unfolded)

theorem entry_safe (h : HeaderLine lim) : HeaderSafe lim h.entry := by
  have hvalue : ValueSafe lim h.unfolded := by
    refine ⟨fun ch hch => ?_, ?_⟩
    · obtain ⟨i, -, rfl⟩ := List.mem_map.mp hch
      exact i.isControl_unfolded
    · rw [unfolded, List.length_map]
      exact h.value_length
  have hsafe := headerSafe_trim h.name_safe hvalue
  rwa [h.name_safe.trim_eq] at hsafe

end HeaderLine

/-- The three tokens and the white space before and between them. -/
structure FirstLine (lim : Limits) where
  leading : Bytes
  firstToken : Bytes
  gap₁ : Bytes
  secondToken : Bytes
  gap₂ : Bytes
  thirdToken : Bytes
  leading_space : ∀ ch ∈ leading, isSpaceOrTab ch = true
  firstToken_ne : firstToken ≠ []
  firstToken_safe : TokenSafe Visible lim.maxFirstTokenLength firstToken
  gap₁_ne : gap₁ ≠ []
  gap₁_space : ∀ ch ∈ gap₁, isSpaceOrTab ch = true
  secondToken_ne : secondToken ≠ []
  secondToken_safe : TokenSafe Visible lim.maxSecondTokenLength secondToken
  gap₂_ne : gap₂ ≠ []
  gap₂_space : ∀ ch ∈ gap₂, isSpaceOrTab ch = true
  thirdToken_ne : thirdToken ≠ []
  thirdToken_safe : TokenSafe Printable lim.maxThirdTokenLength thirdToken
  thirdToken_head : ∀ ch ∈ thirdToken.head?, ch ≠ SP

namespace FirstLine

variable {lim : Limits}

def text (l : FirstLine lim) : Bytes :=
  l.leading ++ l.firstToken ++ l.gap₁ ++ l.secondToken ++ l.gap₂ ++ l.thirdToken ++ [CR, LF]

def shown (l : FirstLine lim) : Shown := ⟨l.firstToken, l.secondToken, l.thirdToken, ∅⟩

end FirstLine

structure SizeLine where
  digits : Bytes
  extension : Bytes
  size : UInt32
  digits_ne : digits ≠ []
  digits_hex : ∀ ch ∈ digits, isHexDigit ch = true
  /-- The size is what the digits are read as. -/
  reads : toUnsignedInt digits true = .ok size
  extension_head : ∀ ch ∈ extension.head?, isHexDigit ch = false
  extension_line : ∀ ch ∈ extension, ch ≠ CR

def SizeLine.text (l : SizeLine) : Bytes := l.digits ++ l.extension ++ [CR, LF]

/-- A chunk that is not the last one. -/
structure Chunk extends SizeLine where
  data : Bytes
  data_ne : data ≠ []
  data_length : data.length = size.toNat

def Chunk.text (c : Chunk) : Bytes := c.toSizeLine.text ++ c.data ++ [CR, LF]

section Framing

variable {lim : Limits}

/-- Some header is `Transfer-Encoding: chunked`, in any letter case of the name. -/
def AsksChunked (headers : List (HeaderLine lim)) : Prop :=
  ∃ h ∈ headers, sameName h.name (str "Transfer-Encoding") = true ∧
    trim h.unfolded = str "chunked"

/-- The value of the first header named `Content-Length` in any letter case. -/
def contentLength? (headers : List (HeaderLine lim)) : Option Bytes :=
  ((headers.filter fun h => sameName h.name (str "Content-Length")).head?).map
    fun h => trim h.unfolded

end Framing

/-- A body that follows a header section with these headers. -/
inductive Body (lim : Limits) (headers : List (HeaderLine lim))
  /-- The headers announce no body. -/
  | empty (chunked : ¬ AsksChunked headers) (length : contentLength? headers = none)
  /-- As many bytes as the first `Content-Length` is read as. -/
  | identity (value : Bytes) (n : UInt32) (data : Bytes) (chunked : ¬ AsksChunked headers)
      (length : contentLength? headers = some value) (reads : toUnsignedInt value false = .ok n)
      (data_length : data.length = n.toNat)
  /-- Chunks up to one of size zero, and a trailer section. -/
  | chunked (chunked : AsksChunked headers) (chunks : List Chunk) (last : SizeLine)
      (last_size : last.size.toNat = 0) (trailers : List (HeaderLine lim))

namespace Body

variable {lim : Limits} {headers : List (HeaderLine lim)}

def trailers : Body lim headers → List (HeaderLine lim)
  | empty _ _ => []
  | identity _ _ _ _ _ _ _ => []
  | chunked _ _ _ _ trailers => trailers

def text : Body lim headers → Bytes
  | empty _ _ => []
  | identity _ _ data _ _ _ _ => data
  | chunked _ chunks last _ trailers =>
      chunks.flatMap Chunk.text ++ last.text ++ trailers.flatMap HeaderLine.text ++ [CR, LF]

def data : Body lim headers → Bytes
  | empty _ _ => []
  | identity _ _ data _ _ _ _ => data
  | chunked _ chunks _ _ _ => chunks.flatMap Chunk.data

end Body

/-- A message within the limits. -/
structure Message (lim : Limits) where
  firstLine : FirstLine lim
  headers : List (HeaderLine lim)
  body : Body lim headers
  headers_amount : headers.length + body.trailers.length ≤ lim.maxHeadersAmount

namespace Message

variable {lim : Limits}

def text (m : Message lim) : Bytes :=
  m.firstLine.text ++ m.headers.flatMap HeaderLine.text ++ [CR, LF] ++ m.body.text

def shown (m : Message lim) : Shown :=
  { m.firstLine.shown with
    headers := (∅ : Headers).insertAll ((m.headers ++ m.body.trailers).map HeaderLine.entry) }

theorem shown_safe (m : Message lim) : m.shown.Safe lim where
  firstToken := m.firstLine.firstToken_safe
  secondToken := m.firstLine.secondToken_safe
  thirdToken := m.firstLine.thirdToken_safe
  thirdToken_head := m.firstLine.thirdToken_head
  headers e he := by
    obtain ⟨h, -, rfl⟩ := List.mem_map.mp ((Multimap.mem_insertAll.mp he).resolve_right (by simp))
    exact h.entry_safe
  headers_size := by
    simpa [shown] using m.headers_amount

end Message

end Httpxx.Grammar
