import Httpxx.Headers

/-!
The stream composers of `src/message_composer.cpp`. Every insertion into the target
goes through the formatting state of the stream, as in the source; on a stream
without a field width each composer appends a string, which the lemmas at the end
give. The headers that are written are not the given ones: those that frame the
message are erased and made anew.
-/

namespace Httpxx

open Library

structure MessageComposer where
  firstToken : Bytes
  secondToken : Bytes
  thirdToken : Bytes
  deriving DecidableEq, Repr

inductive ComposeError
  | emptyChunk
  deriving DecidableEq, Repr

def ComposeError.what : ComposeError → Bytes
  | .emptyChunk => str "Could not compose envelope for empty chunk"

namespace MessageComposer

def ContentLengthHeader : Bytes := str "Content-Length"

def TransferEncodingHeader : Bytes := str "Transfer-Encoding"

def composeFirstLine (target : OStream) (firstToken secondToken thirdToken : Bytes) : OStream :=
  (((((target.putString firstToken).putString [SP]).putString secondToken).putString
    [SP]).putString thirdToken).putString (str "\r\n")

def composeHeader (target : OStream) (headers : Headers) : OStream :=
  headers.entries.foldl (fun target i =>
    (((target.putString i.1).putString (str ": ")).putString i.2).putString (str "\r\n")) target

/-- Composes envelope into output stream for identity-encoded transmission. -/
def composeEnvelope (c : MessageComposer) (target : OStream) (headers : Headers)
    (payloadLen : ℕ) : OStream :=
  let actualHeaders := headers.erase ContentLengthHeader
  let actualHeaders := actualHeaders.erase TransferEncodingHeader
  let actualHeaders :=
    if payloadLen > 0 then
      -- a stream of its own, so the format of the target does not touch the length
      let oss := OStream.fresh.putUnsigned payloadLen
      Headers.add actualHeaders ContentLengthHeader oss.contents
    else actualHeaders
  let target := composeFirstLine target c.firstToken c.secondToken c.thirdToken
  let target := composeHeader target actualHeaders
  target.putString (str "\r\n")

/-- Composes first chunk envelope into output stream for chunked-encoded
transmission. -/
def composeFirstChunkEnvelope (c : MessageComposer) (target : OStream) (headers : Headers)
    (payloadLen : ℕ) : Except ComposeError OStream :=
  if payloadLen ≤ 0 then .error .emptyChunk
  else
    let actualHeaders := headers.erase ContentLengthHeader
    let actualHeaders := actualHeaders.erase TransferEncodingHeader
    let actualHeaders := Headers.add actualHeaders TransferEncodingHeader (str "chunked")
    let target := composeFirstLine target c.firstToken c.secondToken c.thirdToken
    let target := composeHeader target actualHeaders
    .ok (((target.putString (str "\r\n")).setHex.putUnsigned payloadLen).putString (str "\r\n"))

/-- Composes next chunk envelope into output stream. -/
def composeNextChunkEnvelope (target : OStream) (payloadLen : ℕ) :
    Except ComposeError OStream :=
  if payloadLen ≤ 0 then .error .emptyChunk
  else
    .ok (((target.putString (str "\r\n")).setHex.putUnsigned payloadLen).putString (str "\r\n"))

def composeLastChunk (target : OStream) (headers : Headers) : OStream :=
  (composeHeader (target.putString (str "\r\n0\r\n")) headers).putString (str "\r\n")

/-! ### What is written -/

/-- The names of the headers that frame a message, in any letter case. -/
def framesMessage (name : Bytes) : Bool :=
  sameName name ContentLengthHeader || sameName name TransferEncodingHeader

def unframed (headers : Headers) : Headers := headers.filter fun e => !framesMessage e.1

/-- The headers of a message with a body of `payloadLen` bytes: one `Content-Length`
in decimal, or none when the body is empty, and no other header that frames it. -/
def identityHeaders (headers : Headers) (payloadLen : ℕ) : Headers :=
  if payloadLen = 0 then unframed headers
  else (unframed headers).insert (ContentLengthHeader, OStream.decimal payloadLen)

def chunkedHeaders (headers : Headers) : Headers :=
  (unframed headers).insert (TransferEncodingHeader, str "chunked")

def firstLine (c : MessageComposer) : Bytes :=
  c.firstToken ++ SP :: c.secondToken ++ SP :: c.thirdToken ++ [CR, LF]

def headerLine (e : Bytes × Bytes) : Bytes := e.1 ++ colon :: SP :: e.2 ++ [CR, LF]

def head (c : MessageComposer) (headers : Headers) : Bytes :=
  c.firstLine ++ headers.entries.flatMap headerLine ++ [CR, LF]

def chunkSizeLine (payloadLen : ℕ) : Bytes := OStream.hexadecimal payloadLen ++ [CR, LF]

theorem erase_erase (headers : Headers) :
    (headers.erase ContentLengthHeader).erase TransferEncodingHeader = unframed headers := by
  ext1
  rw [Multimap.erase_eq_filter, Multimap.erase_eq_filter]
  simp only [Multimap.entries_filter, List.filter_filter, unframed]
  refine List.filter_congr fun e _ => ?_
  rw [framesMessage, Bool.not_or, Bool.and_comm]
  rfl

theorem contents_putUnsigned_fresh (n : ℕ) :
    (OStream.fresh.putUnsigned n).contents = OStream.decimal n := by
  rw [OStream.putUnsigned_dec rfl rfl rfl]
  rfl

theorem composeFirstLine_eq {target : OStream} (h : target.width = 0) (c : MessageComposer) :
    composeFirstLine target c.firstToken c.secondToken c.thirdToken =
      target.append c.firstLine := by
  simp [composeFirstLine, OStream.putString_of_width, h, firstLine, str]

theorem composeHeader_eq {target : OStream} (h : target.width = 0) (headers : Headers) :
    composeHeader target headers = target.append (headers.entries.flatMap headerLine) := by
  rw [composeHeader]
  induction headers.entries generalizing target with
  | nil => simp [OStream.append]
  | cons e es ih =>
      have hline : (((target.putString e.1).putString (str ": ")).putString e.2).putString
          (str "\r\n") = target.append (headerLine e) := by
        simp [OStream.putString_of_width, h, headerLine, str]
      rw [List.foldl_cons, hline, ih (by simpa using h), OStream.append_append,
        List.flatMap_cons]

/-- The container composes itself as the composer composes it, and `composedSize` is
the number of bytes that takes. -/
theorem compose_eq {target : OStream} (h : target.width = 0) (headers : Headers) :
    ∃ text, Headers.compose headers target = target.append text ∧
      text.length = Headers.composedSize headers := by
  refine ⟨headers.entries.flatMap headerLine, composeHeader_eq h headers, ?_⟩
  have hsum : ∀ (es : List (Bytes × Bytes)) (n : ℕ),
      n + (es.flatMap headerLine).length =
        es.foldl (fun result i => result + (i.1.length + i.2.length + 4)) n := by
    intro es
    induction es with
    | nil => simp
    | cons e es ih =>
        intro n
        rw [List.foldl_cons, ← ih, List.flatMap_cons, List.length_append]
        simp only [headerLine, List.length_append, List.length_cons, List.length_nil]
        omega
  rw [Headers.composedSize, ← hsum, Nat.zero_add]

/-! ### One rule for each composer -/

theorem composeEnvelope_eq {target : OStream} (h : target.width = 0) (c : MessageComposer)
    (headers : Headers) (n : ℕ) :
    c.composeEnvelope target headers n = target.append (c.head (identityHeaders headers n)) := by
  have hsent : (if n > 0 then
      Headers.add (unframed headers) ContentLengthHeader (OStream.decimal n)
      else unframed headers) = identityHeaders headers n := by
    rw [identityHeaders]
    rcases Nat.eq_zero_or_pos n with rfl | hn
    · rfl
    · rw [if_pos hn, if_neg hn.ne', Headers.add]
  simp only [composeEnvelope, erase_erase, contents_putUnsigned_fresh, hsent]
  rw [composeFirstLine_eq h, composeHeader_eq (by exact h),
    OStream.putString_of_width (by exact h), OStream.append_append, OStream.append_append, head,
    List.append_assoc]
  rfl

/-- Behind the line break the size line is in hexadecimal, and so is what follows. -/
theorem composeChunkSize_of_width {target : OStream} (h : target.width = 0) (n : ℕ) :
    ((target.putString (str "\r\n")).setHex.putUnsigned n).putString (str "\r\n") =
      target.setHex.append ([CR, LF] ++ (target.setHex.unsignedText n ++ [CR, LF])) := by
  rw [OStream.putString_of_width h, OStream.setHex_append,
    OStream.putUnsigned_of_width (by exact h), OStream.putString_of_width (by exact h),
    OStream.append_append, OStream.append_append]
  rfl

theorem composeFirstChunkEnvelope_of_width {target : OStream} (h : target.width = 0)
    (c : MessageComposer) (headers : Headers) {n : ℕ} (hn : 0 < n) :
    c.composeFirstChunkEnvelope target headers n =
      .ok (target.setHex.append (c.head (chunkedHeaders headers) ++
        (target.setHex.unsignedText n ++ [CR, LF]))) := by
  simp only [composeFirstChunkEnvelope, if_neg (Nat.not_le.mpr hn), erase_erase]
  rw [composeFirstLine_eq h, composeHeader_eq (by exact h), composeChunkSize_of_width (by exact h)]
  simp only [OStream.setHex_append, OStream.append_append, head, List.append_assoc]
  rfl

theorem composeNextChunkEnvelope_of_width {target : OStream} (h : target.width = 0) {n : ℕ}
    (hn : 0 < n) :
    composeNextChunkEnvelope target n =
      .ok (target.setHex.append ([CR, LF] ++ (target.setHex.unsignedText n ++ [CR, LF]))) := by
  rw [composeNextChunkEnvelope, if_neg (Nat.not_le.mpr hn), composeChunkSize_of_width h]

theorem composeFirstChunkEnvelope_eq {target : OStream} (h : target.Plain) (c : MessageComposer)
    (headers : Headers) {n : ℕ} (hn : 0 < n) :
    c.composeFirstChunkEnvelope target headers n =
      .ok (target.setHex.append (c.head (chunkedHeaders headers) ++ chunkSizeLine n)) := by
  rw [composeFirstChunkEnvelope_of_width h.width c headers hn, h.unsignedText_setHex]
  rfl

theorem composeNextChunkEnvelope_eq {target : OStream} (h : target.Plain) {n : ℕ} (hn : 0 < n) :
    composeNextChunkEnvelope target n =
      .ok (target.setHex.append ([CR, LF] ++ chunkSizeLine n)) := by
  rw [composeNextChunkEnvelope_of_width h.width hn, h.unsignedText_setHex]
  rfl

theorem composeLastChunk_eq {target : OStream} (h : target.width = 0) (headers : Headers) :
    composeLastChunk target headers =
      target.append (str "\r\n0\r\n" ++ headers.entries.flatMap headerLine ++ [CR, LF]) := by
  rw [composeLastChunk, OStream.putString_of_width h, composeHeader_eq (by exact h),
    OStream.putString_of_width (by exact h), OStream.append_append, OStream.append_append,
    List.append_assoc]
  rfl

end MessageComposer

end Httpxx
