import Httpxx.Library.Split
import Httpxx.MessageParser
import Httpxx.Numbers
import Httpxx.Composer.Formatting

/-!
The texts of a parser's exceptions: `msg()` looks the message of the code up, and
`what()` writes the place, the byte and the message to a stream. A character goes
to the stream as an `int`, in hexadecimal and with its base; `char` is signed, so a
byte from `0x80` on is written as the 32 bits of a negative number.

The text of `what()` says everything that the exception does: two exceptions with
the same text are the same.
-/

namespace Httpxx

open Library

/-- The table `ErrorCodeMessages`. -/
def errorCodeMessages : Code → Bytes
  | .invalidFirstToken => str "Invalid character in first token"
  | .firstTokenIsTooLong => str "First token is too long"
  | .invalidSecondToken => str "Invalid character in second token"
  | .secondTokenIsTooLong => str "Second token is too long"
  | .invalidThirdToken => str "Invalid character in third token"
  | .thirdTokenIsTooLong => str "Third token is too long"
  | .invalidFirstLineLF => str "First line CR is followed by invalid character"
  | .tooManyHeaders => str "Too many headers"
  | .emptyHeaderName => str "Empty header name"
  | .invalidHeaderName => str "Invalid header name"
  | .headerNameIsTooLong => str "Header name is too long"
  | .headerIsMissingColon => str "Header is missing ':' separator"
  | .invalidHeaderValue => str "Invalid header value"
  | .headerValueIsTooLong => str "Header value is too long"
  | .invalidHeaderLF => str "Header CR is followed by invalid character"
  | .invalidContentLength => str "Invalid content length"
  | .emptyChunkSize => str "Empty chunk size"
  | .invalidChunkSize => str "Invalid chunk size"
  | .invalidChunkSizeLF => str "Chunk size CR is followed by invalid character"
  | .invalidChunkDataCR => str "Chunk data is followed by invalid character"
  | .invalidChunkDataLF => str "Chunk data CR is followed by invalid character"
  | .invalidFinalLF => str "Final CR is followed by invalid character"
  | .invalidState => str "Invalid parser state"

/-- Conversion of a `char`, 8 bits wide and signed, to `int`. -/
def charToInt (ch : Byte) : ℤ := (ch.toNat : ℤ).bmod (2 ^ 8)

namespace OStream

def setShowbase (os : OStream) : OStream := { os with showbase := true }

end OStream

namespace Exception

def msg (e : Exception) : Bytes := errorCodeMessages e.code

def what (e : Exception) : Bytes :=
  let oss := OStream.fresh.putString (str "HTTP-message parsing error (pos: ")
  let oss := oss.putInteger (.signed 32 e.pos)
  let oss := oss.putString (str ", line: ")
  let oss := oss.putInteger (.signed 32 e.line)
  let oss := oss.putString (str ", col: ")
  let oss := oss.putInteger (.signed 32 e.col)
  let oss := oss.putString (str ", character: ")
  let oss := oss.setShowbase.setHex.putInteger (.signed 32 (charToInt e.ch))
  let oss := oss.putString (str "): ")
  (oss.putString (errorCodeMessages e.code)).contents

def charBits (ch : Byte) : ℕ := (charToInt ch % 2 ^ 32).toNat

/-- A byte as `what()` writes it. -/
def charText (ch : Byte) : Bytes :=
  OStream.fresh.setShowbase.setHex.unsignedText (charBits ch)

/-! ### The parts of the text -/

theorem what_eq (e : Exception) :
    e.what = str "HTTP-message parsing error (pos: " ++ (OStream.signedDecimal e.pos ++
      str ", line: " ++ (OStream.signedDecimal e.line ++ str ", col: " ++
        (OStream.signedDecimal e.col ++ str ", character: " ++ (charText e.ch ++
          str "): " ++ errorCodeMessages e.code)))) := by
  simp [what, OStream.putInteger, OStream.putString, OStream.putUnsigned, OStream.fresh,
    OStream.setShowbase, OStream.setHex, OStream.contents, charText, charBits, OStream.unsignedText,
    OStream.basePrefix]

end Exception

namespace OStream

theorem decimal_injective : Function.Injective decimal := by
  intro m n h
  rw [← denoted_decimal m, ← denoted_decimal n, h]

theorem hexadecimal_injective : Function.Injective hexadecimal := by
  intro m n h
  rw [← denoted_hexadecimal m, ← denoted_hexadecimal n, h]

theorem isDigit_of_mem_decimal {n : ℕ} {ch : Byte} (h : ch ∈ decimal n) : isDigit ch = true := by
  obtain ⟨d, hd, rfl⟩ := List.mem_map.mp h
  exact isDigit_digitChar (digitsOf_lt (by decide) hd)

theorem isHexDigit_of_mem_hexadecimal {n : ℕ} {ch : Byte} (h : ch ∈ hexadecimal n) :
    isHexDigit ch = true := by
  obtain ⟨d, hd, rfl⟩ := List.mem_map.mp h
  exact isHexDigit_digitChar false (digitsOf_lt (by decide) hd)

/-- A negative number begins with its sign, any other one with a digit. -/
theorem signedDecimal_injective : Function.Injective signedDecimal := by
  have hsign : ∀ m n : ℤ, (0x2D : Byte) :: decimal m.natAbs ≠ decimal n.natAbs := by
    intro m n h
    have hmem : (0x2D : Byte) ∈ decimal n.natAbs := h ▸ List.mem_cons_self
    exact absurd (isDigit_of_mem_decimal hmem) (by decide)
  intro m n h
  unfold signedDecimal at h
  split_ifs at h with hm hn hn
  · have habs := decimal_injective (List.cons.inj h).2
    omega
  · exact absurd h (hsign m n)
  · exact absurd h.symm (hsign n m)
  · have habs := decimal_injective h
    omega

theorem isDigit_of_mem_signedDecimal {n : ℤ} {ch : Byte} (h : ch ∈ signedDecimal n) :
    ch = 0x2D ∨ isDigit ch = true := by
  unfold signedDecimal at h
  split_ifs at h
  · exact (List.mem_cons.mp h).imp_right isDigit_of_mem_decimal
  · exact .inr (isDigit_of_mem_decimal h)

end OStream

namespace Exception

theorem comma_not_mem_signedDecimal (n : ℤ) : (0x2C : Byte) ∉ OStream.signedDecimal n := by
  intro h
  rcases OStream.isDigit_of_mem_signedDecimal h with heq | hdigit
  · exact absurd heq (by decide)
  · exact absurd hdigit (by decide)

theorem unsignedText_showbase (n : ℕ) :
    OStream.fresh.setShowbase.setHex.unsignedText n =
      (if n = 0 then [] else str "0x") ++ OStream.hexadecimal n := by
  have hbase : OStream.fresh.setShowbase.setHex.basePrefix n =
      if n = 0 then [] else str "0x" := by
    cases n with
    | zero => rfl
    | succ n => rfl
  rw [OStream.unsignedText, hbase]
  rfl

theorem charToInt_eq (ch : Byte) :
    charToInt ch = if ch.toNat < 2 ^ 7 then (ch.toNat : ℤ) else ch.toNat - 2 ^ 8 := by
  have hch := ch.toNat_lt
  unfold charToInt
  simp only [Int.bmod_def]
  split_ifs <;> omega

theorem charBits_eq (ch : Byte) :
    charBits ch = if ch.toNat < 2 ^ 7 then ch.toNat else 2 ^ 32 - 2 ^ 8 + ch.toNat := by
  have hch := ch.toNat_lt
  unfold charBits
  simp only [charToInt_eq]
  split_ifs <;> omega

theorem charBits_injective : Function.Injective charBits := by
  intro a b h
  have ha := a.toNat_lt
  have hb := b.toNat_lt
  simp only [charBits_eq] at h
  refine UInt8.toNat_inj.mp ?_
  split_ifs at h <;> omega

theorem charText_injective : Function.Injective charText := by
  -- only zero is written without a base, so the texts of two bytes have both one or none
  have hbase : ∀ m n : ℕ, OStream.hexadecimal m ≠ str "0x" ++ OStream.hexadecimal n := by
    intro m n h
    have hmem : (0x78 : Byte) ∈ OStream.hexadecimal m :=
      h ▸ List.mem_append_left _ (by decide)
    exact absurd (OStream.isHexDigit_of_mem_hexadecimal hmem) (by decide)
  intro a b h
  rw [charText, charText, unsignedText_showbase, unsignedText_showbase] at h
  refine charBits_injective ?_
  split_ifs at h with ha hb hb
  · rw [ha, hb]
  · rw [List.nil_append] at h
    exact (hbase _ _ h).elim
  · rw [List.nil_append] at h
    exact (hbase _ _ h.symm).elim
  · exact OStream.hexadecimal_injective (List.append_cancel_left h)

theorem paren_not_mem_charText (ch : Byte) : (0x29 : Byte) ∉ charText ch := by
  rw [charText, unsignedText_showbase]
  intro h
  rcases List.mem_append.mp h with h | h
  · split_ifs at h
    · simp at h
    · exact absurd h (by decide)
  · exact absurd (OStream.isHexDigit_of_mem_hexadecimal h) (by decide)

def codes : List Code :=
  [.invalidFirstToken, .firstTokenIsTooLong, .invalidSecondToken, .secondTokenIsTooLong,
    .invalidThirdToken, .thirdTokenIsTooLong, .invalidFirstLineLF, .tooManyHeaders,
    .emptyHeaderName, .invalidHeaderName, .headerNameIsTooLong, .headerIsMissingColon,
    .invalidHeaderValue, .headerValueIsTooLong, .invalidHeaderLF, .invalidContentLength,
    .emptyChunkSize, .invalidChunkSize, .invalidChunkSizeLF, .invalidChunkDataCR,
    .invalidChunkDataLF, .invalidFinalLF, .invalidState]

theorem mem_codes (c : Code) : c ∈ codes := by
  cases c <;> decide

theorem errorCodeMessages_injective : Function.Injective errorCodeMessages := by
  have hnodup : (codes.map errorCodeMessages).Nodup := by decide +kernel
  intro c c' h
  exact List.inj_on_of_nodup_map hnodup (mem_codes c) (mem_codes c') h

/-- Parts before a separator that they do not contain, and what follows it, are
determined by the whole. -/
theorem append_cons_inj {x x' y y' : Bytes} {sep : Byte} (hx : sep ∉ x) (hx' : sep ∉ x')
    (h : x ++ sep :: y = x' ++ sep :: y') : x = x' ∧ y = y' := by
  have hcut := congrArg (cut sep) h
  rw [cut_append_cons hx, cut_append_cons hx'] at hcut
  exact Prod.mk.inj hcut

theorem printable_of_isHexDigit {ch : Byte} (h : isHexDigit ch = true) : Printable ch := by
  simp only [isHexDigit, isDigit, Bool.or_eq_true, Bool.and_eq_true, decide_eq_true_eq] at h
  unfold Printable
  grind

theorem printable_of_mem_signedDecimal {n : ℤ} {ch : Byte} (h : ch ∈ OStream.signedDecimal n) :
    Printable ch := by
  rcases OStream.isDigit_of_mem_signedDecimal h with rfl | hdigit
  · decide
  · exact printable_of_isHexDigit (by simp [isHexDigit, hdigit])

theorem printable_of_mem_charText {c ch : Byte} (h : ch ∈ charText c) : Printable ch := by
  rw [charText, unsignedText_showbase] at h
  rcases List.mem_append.mp h with h | h
  · split_ifs at h
    · simp at h
    · have hbase : ∀ b ∈ str "0x", Printable b := by decide
      exact hbase ch h
  · exact printable_of_isHexDigit (OStream.isHexDigit_of_mem_hexadecimal h)

theorem printable_of_mem_errorCodeMessages {c : Code} {ch : Byte}
    (h : ch ∈ errorCodeMessages c) : Printable ch := by
  have hall : ∀ b ∈ codes.flatMap errorCodeMessages, Printable b := by decide +kernel
  exact hall ch (List.mem_flatMap.mpr ⟨c, mem_codes c, h⟩)

theorem printable_of_mem_what {e : Exception} {ch : Byte} (h : ch ∈ e.what) : Printable ch := by
  have hfixed : ∀ b ∈ str "HTTP-message parsing error (pos: " ++ str ", line: " ++
      str ", col: " ++ str ", character: " ++ str "): ", Printable b := by decide +kernel
  simp only [List.forall_mem_append] at hfixed
  obtain ⟨⟨⟨⟨hpos, hline⟩, hcol⟩, hcharacter⟩, hend⟩ := hfixed
  rw [what_eq] at h
  simp only [List.mem_append] at h
  rcases h with h | (h | h) | (h | h) | (h | h) | (h | h) | h
  · exact hpos ch h
  · exact printable_of_mem_signedDecimal h
  · exact hline ch h
  · exact printable_of_mem_signedDecimal h
  · exact hcol ch h
  · exact printable_of_mem_signedDecimal h
  · exact hcharacter ch h
  · exact printable_of_mem_charText h
  · exact hend ch h
  · exact printable_of_mem_errorCodeMessages h

theorem eq_of_what_eq {e e' : Exception} (h : e.what = e'.what) : e = e' := by
  have hcut : ∀ {m n : ℤ} {s t t' : Bytes},
      OStream.signedDecimal m ++ (0x2C :: s) ++ t = OStream.signedDecimal n ++ (0x2C :: s) ++ t' →
        m = n ∧ t = t' := by
    intro m n s t t' h
    rw [List.append_assoc, List.append_assoc, List.cons_append, List.cons_append] at h
    obtain ⟨hint, hrest⟩ := append_cons_inj (comma_not_mem_signedDecimal m)
      (comma_not_mem_signedDecimal n) h
    exact ⟨OStream.signedDecimal_injective hint, List.append_cancel_left hrest⟩
  obtain ⟨ch, pos, line, col, code⟩ := e
  obtain ⟨ch', pos', line', col', code'⟩ := e'
  rw [what_eq, what_eq] at h
  -- the three places come before a comma, the byte before a bracket, the message last
  obtain ⟨rfl, h⟩ := hcut (List.append_cancel_left h)
  obtain ⟨rfl, h⟩ := hcut h
  obtain ⟨rfl, h⟩ := hcut h
  rw [List.append_assoc, List.append_assoc] at h
  obtain ⟨hch, h⟩ := append_cons_inj (paren_not_mem_charText ch) (paren_not_mem_charText ch') h
  obtain rfl := charText_injective hch
  obtain rfl := errorCodeMessages_injective (List.append_cancel_left h)
  rfl

/-- **The text of an exception is one line and says everything.** It has printable
characters only, whatever byte was rejected, and two exceptions with the same text are
the same: the same byte, at the same place, with the same code. -/
theorem what_faithful :
    Function.Injective what ∧ ∀ e : Exception, ∀ ch ∈ e.what, Printable ch :=
  ⟨fun _ _ => eq_of_what_eq, fun _ _ => printable_of_mem_what⟩

/-- A line feed in a first token. -/
example : what ⟨LF, 1, 1, 2, .invalidFirstToken⟩ =
    str "HTTP-message parsing error (pos: 1, line: 1, col: 2, character: 0xa): " ++
      str "Invalid character in first token" := by decide +kernel

end Exception

end Httpxx
