import Httpxx.Grammar.Acceptance
import Httpxx.Numbers

/-!
Declared lengths. A body or a chunk has as many bytes as its length is read as; here
that is compared with the number the digits denote. The two agree when the number
fits into an `unsigned int`. A larger number is refused only when the reader's test
for overflow notices it, and is otherwise taken for a smaller one.
-/

namespace Httpxx

open Library

namespace Grammar

variable {lim : Limits}

theorem SizeLine.spells (l : SizeLine) : Spells true l.digits l.digits :=
  .of_digits l.digits_ne l.digits_hex

theorem SizeLine.size_eq_iff (l : SizeLine) :
    l.size.toNat = denoted true l.digits ↔ denoted true l.digits < 2 ^ 32 :=
  toNat_eq_denoted_iff l.spells l.reads

namespace Body

variable {headers : List (HeaderLine lim)}

/-- The body, or each of its chunks, has the number of bytes that the digits of its
length denote, and the last chunk is one of none. -/
def LengthsTaken : Body lim headers → Prop
  | empty _ _ => True
  | identity value _ data _ _ _ _ =>
      ∀ digits, Spells false digits value → data.length = denoted false digits
  | chunked _ chunks last _ _ =>
      (∀ c ∈ chunks, c.data.length = denoted true c.digits) ∧ denoted true last.digits = 0

def LengthsFit : Body lim headers → Prop
  | empty _ _ => True
  | identity value _ _ _ _ _ _ =>
      ∀ digits, Spells false digits value → denoted false digits < 2 ^ 32
  | chunked _ chunks last _ _ =>
      (∀ c ∈ chunks, denoted true c.digits < 2 ^ 32) ∧ denoted true last.digits < 2 ^ 32

theorem lengthsTaken_iff (body : Body lim headers) : body.LengthsTaken ↔ body.LengthsFit := by
  cases body with
  | empty => exact Iff.rfl
  | identity value n data _ _ hread hdata =>
      refine forall_congr' fun digits => forall_congr' fun hspells => ?_
      rw [hdata]
      exact toNat_eq_denoted_iff hspells hread
  | chunked _ chunks last hlast _ =>
      refine and_congr ?_ ?_
      · refine forall_congr' fun c => forall_congr' fun _ => ?_
        rw [c.data_length]
        exact c.size_eq_iff
      · rw [← last.size_eq_iff, hlast, eq_comm]

end Body

end Grammar

namespace MessageParser

theorem contentLength_refused_iff {p : MessageParser} {digits : Bytes}
    (hstate : p.state = .parsingEndOfHeader)
    (hchunked : p.headers.haveValue (str "Transfer-Encoding") (str "chunked") = false)
    (hlength : p.headers.haveHeader (str "Content-Length") = true)
    (hspells : Spells false digits (p.headers.value (str "Content-Length")))
    (hlarge : 2 ^ 32 ≤ denoted false digits) :
    p.parse LF = p.throwing LF .invalidContentLength ↔
      Drops (2 ^ 32) 10 (digits.map digitValue) := by
  have hread := readsExactly_iff hspells
  rw [or_iff_right (Nat.not_lt.mpr hlarge)] at hread
  constructor
  · intro hthrow
    refine hread.mp ⟨fun hlt => absurd hlt (Nat.not_lt.mpr hlarge), fun _ => ?_⟩
    cases hnum : toUnsignedInt (p.headers.value (str "Content-Length")) false with
    | error e => exact ⟨e, rfl⟩
    | ok n =>
        have hstep : ∃ q, p.parseState LF = .ok q := by
          simp only [parseState, hstate, parseEndOfHeader, isLineFeed_LF, if_true, hchunked,
            Bool.false_eq_true, if_false, hlength, hnum]
          split <;> exact ⟨_, rfl⟩
        obtain ⟨q, hq⟩ := hstep
        simp [parse_of_ok hq, throwing] at hthrow
  · intro hdrops
    obtain ⟨e, he⟩ := (hread.mpr hdrops).2 hlarge
    refine parse_of_throwing ?_
    simp only [parseState, hstate, parseEndOfHeader, isLineFeed_LF, if_true, hchunked,
      Bool.false_eq_true, if_false, hlength, he]

/-- A chunk size that does not fit is refused, with its own code, exactly when the
overflow shows. -/
theorem chunkSize_refused_iff {p : MessageParser} {ch : Byte}
    (hstate : p.state = .parsingChunkSize) (hspells : Spells true p.chunkSizeStr p.chunkSizeStr)
    (hch : isHexDigit ch = false) (hlarge : 2 ^ 32 ≤ denoted true p.chunkSizeStr) :
    p.parse ch = p.throwing ch .invalidChunkSize ↔
      Drops (2 ^ 32) 16 (p.chunkSizeStr.map digitValue) := by
  have hempty : p.chunkSizeStr.isEmpty = false := by simpa using hspells.ne_nil
  have hread := readsExactly_iff hspells
  rw [or_iff_right (Nat.not_lt.mpr hlarge)] at hread
  constructor
  · intro hthrow
    refine hread.mp ⟨fun hlt => absurd hlt (Nat.not_lt.mpr hlarge), fun _ => ?_⟩
    cases hnum : toUnsignedInt p.chunkSizeStr true with
    | error e => exact ⟨e, rfl⟩
    | ok n =>
        have hstep : ∃ q, p.parseState ch = .ok q := by
          simp only [parseState, hstate, parseChunkSize, hch, Bool.false_eq_true, if_false, hempty,
            hnum]
          split <;> exact ⟨_, rfl⟩
        obtain ⟨q, hq⟩ := hstep
        simp [parse_of_ok hq, throwing] at hthrow
  · intro hdrops
    obtain ⟨e, he⟩ := (hread.mpr hdrops).2 hlarge
    refine parse_of_throwing ?_
    simp only [parseState, hstate, parseChunkSize, hch, Bool.false_eq_true, if_false, hempty, he]

/-- **When declared lengths are read exactly or refused.** A number is, exactly when
it fits into an `unsigned int` or its overflow shows; a message that is accepted has
as many body bytes as its digits denote exactly when they denote numbers that fit;
and a length that does not fit is refused where it is read exactly when its overflow
shows. -/
theorem lengths_exact_or_refused_iff {isHex : Bool} {digits s : Bytes}
    (hspells : Spells isHex digits s) (lim : Limits) (msg : Grammar.Message lim)
    (p : MessageParser) (ch : Byte) :
    (ReadsExactly s isHex (denoted isHex digits) ↔
      denoted isHex digits < 2 ^ 32 ∨ Drops (2 ^ 32) (radix isHex) (digits.map digitValue)) ∧
    (Accepted lim msg.text msg.shown msg.body.data ∧
      (msg.body.LengthsTaken ↔ msg.body.LengthsFit)) ∧
    (p.state = .parsingEndOfHeader →
      p.headers.haveValue (str "Transfer-Encoding") (str "chunked") = false →
      p.headers.haveHeader (str "Content-Length") = true →
      p.headers.value (str "Content-Length") = s → isHex = false → 2 ^ 32 ≤ denoted isHex digits →
      (p.parse LF = p.throwing LF .invalidContentLength ↔
        Drops (2 ^ 32) (radix isHex) (digits.map digitValue))) ∧
    (p.state = .parsingChunkSize → p.chunkSizeStr = digits → isHex = true →
      isHexDigit ch = false → 2 ^ 32 ≤ denoted isHex digits →
      (p.parse ch = p.throwing ch .invalidChunkSize ↔
        Drops (2 ^ 32) (radix isHex) (digits.map digitValue))) := by
  refine ⟨readsExactly_iff hspells, ⟨accepted_text msg, msg.body.lengthsTaken_iff⟩, ?_, ?_⟩
  · rintro hstate hchunked hlength rfl rfl hlarge
    exact contentLength_refused_iff hstate hchunked hlength hspells hlarge
  · rintro hstate rfl rfl hch hlarge
    exact chunkSize_refused_iff hstate (.of_digits hspells.ne_nil hspells.chars) hch hlarge

/-- Five thousand million in decimal overflows without a drop. -/
theorem five_thousand_million_misread :
    ¬ ∀ isHex digits s, Spells isHex digits s → ReadsExactly s isHex (denoted isHex digits) := by
  intro h
  have hspells : Spells false (str "5000000000") (str "5000000000") :=
    ⟨by decide, by decide, [], [], [], by decide, by simp, by simp, .inl rfl⟩
  obtain ⟨e, he⟩ := (h false _ _ hspells).2 (by decide)
  have hread : toUnsignedInt (str "5000000000") false = .ok 705032704 := by decide
  rw [hread] at he
  cases he

/-- The smallest length that does not fit, with a sign: it is refused as a number and as
the `Content-Length` of a message. -/
theorem lengths_exact_or_refused_iff_smallest :
    ReadsExactly (str "+4294967296") false (denoted false (str "4294967296")) ∧
      parse { create ⟨1, 1, 1, 16, 16, 1⟩ with
          state := .parsingEndOfHeader
          headers := (∅ : Headers).insert (str "Content-Length", str "+4294967296") } LF =
        throwing { create ⟨1, 1, 1, 16, 16, 1⟩ with
          state := .parsingEndOfHeader
          headers := (∅ : Headers).insert (str "Content-Length", str "+4294967296") } LF
          .invalidContentLength := by
  have hspells : Spells false (str "4294967296") (str "+4294967296") :=
    ⟨by decide, by decide, [], [0x2B], [], by decide, by decide, by decide, .inr ⟨rfl, rfl⟩⟩
  have hacc : Accepted ⟨1, 1, 1, 1, 0, 0⟩ (str "A B C\r\n\r\n")
      ⟨str "A", str "B", str "C", ∅⟩ [] := by
    decide
  obtain ⟨msg, -⟩ := exists_message_of_accepted hacc
  obtain ⟨hread, -, hrefused, -⟩ := lengths_exact_or_refused_iff hspells _ msg
    { create ⟨1, 1, 1, 16, 16, 1⟩ with
      state := .parsingEndOfHeader
      headers := (∅ : Headers).insert (str "Content-Length", str "+4294967296") } LF
  refine ⟨hread.mpr (.inr (by decide)), ?_⟩
  exact (hrefused rfl (by decide) (by decide) rfl rfl (by decide)).mpr (by decide)

end MessageParser

end Httpxx
