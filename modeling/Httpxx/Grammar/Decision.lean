import Httpxx.Grammar.Body
import Httpxx.Grammar.Progress
import Httpxx.Numbers

/-!
The decision at the end of a header section, for every head that a parser can have
read. Chunks are read when some `Transfer-Encoding` header has the value `chunked` to
the byte: values are compared as they are, and a list of codings is not taken apart.
Without one the first `Content-Length` decides, and the others are not looked at. Its
value has to be decimal digits, which a plus sign may precede; with anything else the
final LF is rejected.
-/

namespace Httpxx

open Library Grammar

variable {lim : Limits}

/-! ### The final LF -/

namespace MessageParser

variable {p : MessageParser}

theorem exists_parse_LF {q : MessageParser} (h : p.state = .parsingEndOfHeader)
    (hstep : p.parseState LF = .ok q) :
    ∃ p', p.parse LF = .ok (p', ⟨false, q.isCompleted⟩) ∧ p'.state = q.state ∧
      p'.contentLength = q.contentLength := by
  have hbody : p.bodyExpected = false := by simp [bodyExpected, h]
  refine ⟨q.updatePosition LF, ?_, state_updatePosition q LF, ?_⟩
  · rw [parse_of_ok hstep, hbody]
  · unfold updatePosition
    split <;> rfl

theorem parse_LF_of_chunked (h : p.state = .parsingEndOfHeader)
    (hchunked : p.headers.haveValue (str "Transfer-Encoding") (str "chunked") = true) :
    ∃ p', p.parse LF = .ok (p', ⟨false, false⟩) ∧ p'.state = .parsingChunkSize := by
  have hstep : p.parseState LF = .ok { p with state := .parsingChunkSize } := by
    simp [parseState, h, parseEndOfHeader, hchunked]
  obtain ⟨p', hparse, hstate, -⟩ := exists_parse_LF h hstep
  exact ⟨p', hparse, hstate⟩

theorem parse_LF_of_invalid_length (h : p.state = .parsingEndOfHeader)
    (hno : p.headers.haveValue (str "Transfer-Encoding") (str "chunked") = false)
    (hhave : p.headers.haveHeader (str "Content-Length") = true) {e : ConversionError}
    (hread : toUnsignedInt (p.headers.value (str "Content-Length")) false = .error e) :
    p.parse LF = p.throwing LF .invalidContentLength := by
  apply parse_of_throwing
  simp [parseState, h, parseEndOfHeader, hno, hhave, hread]

theorem parse_LF_of_length (h : p.state = .parsingEndOfHeader)
    (hno : p.headers.haveValue (str "Transfer-Encoding") (str "chunked") = false)
    (hhave : p.headers.haveHeader (str "Content-Length") = true) {n : UInt32}
    (hread : toUnsignedInt (p.headers.value (str "Content-Length")) false = .ok n) :
    ∃ p', p.parse LF = .ok (p', ⟨false, n == 0⟩) ∧ p'.contentLength = n.toNat ∧
      p'.state = if n = 0 then .parsingMessage else .parsingIdentityBody := by
  have hzero : n.toNat ≤ 0 ↔ n = 0 := by
    rw [Nat.le_zero, ← UInt32.toNat_inj]
    rfl
  have hstep : p.parseState LF = .ok { p with
      contentLength := n.toNat
      state := if n = 0 then .parsingMessage else .parsingIdentityBody } := by
    simp only [parseState, h, parseEndOfHeader, hno, hhave, hread, isLineFeed_LF, if_true,
      Bool.false_eq_true, if_false, hzero]
    split <;> rfl
  obtain ⟨p', hparse, hstate, hlength⟩ := exists_parse_LF h hstep
  refine ⟨p', ?_, hlength, hstate⟩
  rw [hparse, isCompleted]
  by_cases hn : n = 0 <;> simp [hn]

theorem parse_LF_of_no_length (h : p.state = .parsingEndOfHeader)
    (hno : p.headers.haveValue (str "Transfer-Encoding") (str "chunked") = false)
    (hhave : p.headers.haveHeader (str "Content-Length") = false) :
    ∃ p', p.parse LF = .ok (p', ⟨false, true⟩) ∧ p'.state = .parsingMessage := by
  have hstep : p.parseState LF = .ok { p with state := .parsingMessage } := by
    simp [parseState, h, parseEndOfHeader, hno, hhave]
  obtain ⟨p', hparse, hstate, -⟩ := exists_parse_LF h hstep
  exact ⟨p', hparse, hstate⟩

end MessageParser

/-! ### Chunked framing -/

/-- The last of the transfer-codings that the values of `Transfer-Encoding` list. -/
def lastTransferCoding (values : List Bytes) : Bytes :=
  ((values.flatMap fun v => v.splitOn 0x2C).map trim).getLastD []

namespace Session

/-- After some calls the bytes of the message are this head, and its headers these. -/
structure AtEndOfHead (s : Session) (l : FirstLine lim) (hs : List (HeaderLine lim)) : Prop where
  state : s.parser.state = .parsingEndOfHeader
  bytes : s.message.map Prod.fst = l.text ++ hs.flatMap HeaderLine.text ++ [CR]
  amount : hs.length ≤ lim.maxHeadersAmount
  headers : s.parser.headers = stored hs

theorem exists_atEndOfHead {calls : List Call}
    (h : (after lim calls).parser.state = .parsingEndOfHeader) :
    ∃ (l : FirstLine lim) (hs : List (HeaderLine lim)), (after lim calls).AtEndOfHead l hs := by
  obtain ⟨l, hs, hbytes, hamount, hshown⟩ := head_after h
  exact ⟨l, hs, h, hbytes, hamount, congrArg Shown.headers hshown⟩

/-- **When chunks are read.** At the end of every accepted head, the final LF makes the
parser read a chunked body if and only if some `Transfer-Encoding` header, its name in
any letter case, has the value `chunked` after unfolding and trimming. -/
theorem chunked_iff (lim : Limits) (calls : List Call)
    (h : (after lim calls).parser.state = .parsingEndOfHeader) :
    ∃ (l : FirstLine lim) (hs : List (HeaderLine lim)), (after lim calls).AtEndOfHead l hs ∧
      ((∃ p', (after lim calls).parser.parse LF = .ok (p', ⟨false, false⟩) ∧
          p'.state = .parsingChunkSize) ↔ AsksChunked hs) := by
  obtain ⟨l, hs, hhead⟩ := exists_atEndOfHead h
  refine ⟨l, hs, hhead, ?_⟩
  rw [← haveValue_stored_iff, ← hhead.headers]
  constructor
  · rintro ⟨p', hparse, hstate⟩
    by_contra hno
    rw [Bool.not_eq_true] at hno
    cases hhave : (after lim calls).parser.headers.haveHeader (str "Content-Length") with
    | false =>
        obtain ⟨r, hr, hmessage⟩ := MessageParser.parse_LF_of_no_length h hno hhave
        rw [hr] at hparse
        cases hparse
    | true =>
        cases hread : toUnsignedInt
            ((after lim calls).parser.headers.value (str "Content-Length")) false with
        | error e =>
            rw [MessageParser.parse_LF_of_invalid_length h hno hhave hread] at hparse
            cases hparse
        | ok n =>
            obtain ⟨r, hr, -, hlength⟩ := MessageParser.parse_LF_of_length h hno hhave hread
            obtain ⟨rfl, -⟩ : r = p' ∧ _ := by simpa [hr] using hparse
            rw [hlength] at hstate
            split at hstate <;> cases hstate
  · exact MessageParser.parse_LF_of_chunked h

/-- The name in another letter case, and the value on a line of its own. -/
theorem chunked_iff_folded : ∃ (l : FirstLine ⟨1, 1, 1, 17, 11, 1⟩)
    (hs : List (HeaderLine ⟨1, 1, 1, 17, 11, 1⟩)) (s : Session),
    after ⟨1, 1, 1, 17, 11, 1⟩
      ((str "a b c\r\ntransfer-ENCODING: \r\n chunked\t\r\n\r").map .parse) = s ∧
    s.AtEndOfHead l hs ∧ AsksChunked hs ∧
    ∃ p', s.parser.parse LF = .ok (p', ⟨false, false⟩) ∧ p'.state = .parsingChunkSize := by
  obtain ⟨l, hs, hhead, hiff⟩ := chunked_iff ⟨1, 1, 1, 17, 11, 1⟩
    ((str "a b c\r\ntransfer-ENCODING: \r\n chunked\t\r\n\r").map .parse) (by decide +kernel)
  have hchunked : AsksChunked hs := by
    rw [← haveValue_stored_iff, ← hhead.headers]
    decide +kernel
  exact ⟨l, hs, _, rfl, hhead, hchunked, hiff.mpr hchunked⟩

/-- At the end of a head whose last transfer-coding is `chunked`, in any letter case, the
final LF makes the parser read a chunked body. -/
def RecognisesChunked (p : MessageParser) : Prop :=
  EqIgnoringCase (lastTransferCoding (p.headers.values (str "Transfer-Encoding")))
      (str "chunked") →
    ∃ p', p.parse LF = .ok (p', ⟨false, false⟩) ∧ p'.state = .parsingChunkSize

def answerToLF (p : MessageParser) : Option Flags := (p.parse LF).toOption.map Prod.snd

theorem answerToLF_of_ok {p p' : MessageParser} {flags : Flags}
    (h : p.parse LF = .ok (p', flags)) : answerToLF p = some flags := by
  simp [answerToLF, h, Except.toOption]

theorem exists_of_answerToLF {p : MessageParser} (h : (answerToLF p).isSome = true) :
    ∃ r, p.parse LF = .ok r := by
  cases hparse : p.parse LF with
  | error e => simp [answerToLF, hparse, Except.toOption] at h
  | ok r => exact ⟨r, rfl⟩

theorem not_recognisesChunked {p : MessageParser}
    (h : p.state = .parsingEndOfHeader ∧
      EqIgnoringCase (lastTransferCoding (p.headers.values (str "Transfer-Encoding")))
        (str "chunked") ∧ answerToLF p = some ⟨false, true⟩) :
    p.state = .parsingEndOfHeader ∧ ¬ RecognisesChunked p := by
  obtain ⟨hstate, hcoding, hanswer⟩ := h
  refine ⟨hstate, fun hrecognised => ?_⟩
  obtain ⟨p', hparse, -⟩ := hrecognised hcoding
  cases (answerToLF_of_ok hparse).symm.trans hanswer

/-- The parser before the final LF of a head with these header lines. -/
def afterHead (lines : Bytes) : MessageParser :=
  (after ⟨1, 1, 1, 17, 14, 2⟩ ((str "a b c\r\n" ++ lines ++ str "\r\n\r").map .parse)).parser

/-- In another letter case, or after another coding, `chunked` is not recognised: the
message is complete at the final LF. -/
theorem chunked_not_recognised :
    ((afterHead (str "Transfer-Encoding: Chunked")).state = .parsingEndOfHeader ∧
        ¬ RecognisesChunked (afterHead (str "Transfer-Encoding: Chunked"))) ∧
      (afterHead (str "Transfer-Encoding: gzip, chunked")).state = .parsingEndOfHeader ∧
        ¬ RecognisesChunked (afterHead (str "Transfer-Encoding: gzip, chunked")) :=
  ⟨not_recognisesChunked (by decide +kernel), not_recognisesChunked (by decide +kernel)⟩

end Session

/-! ### The length of a body -/

/-- Decimal digits, which a plus sign may precede. -/
def LengthForm (v : Bytes) : Prop :=
  ∃ sign digits, v = sign ++ digits ∧ (sign = [] ∨ sign = [0x2B]) ∧
    ∀ ch ∈ digits, isDigit ch = true

theorem isDigit_of_decimalLoop {s : Bytes} {curPos : ℕ} {r n : UInt32}
    (h : decimalLoop curPos r s = .ok n) : ∀ ch ∈ s, isDigit ch = true := by
  induction s generalizing curPos r with
  | nil => simp
  | cons ch s ih =>
      rw [decimalLoop] at h
      split at h
      · cases h
      · rename_i hdigit
        simp only at h
        split at h
        · cases h
        · exact List.forall_mem_cons.mpr ⟨by simpa using hdigit, ih h⟩

theorem lengthForm_of_toUnsignedInt {v : Bytes} {n : UInt32} (htrimmed : Trimmed v)
    (h : toUnsignedInt v false = .ok n) : LengthForm v := by
  rw [toUnsignedInt, trim_of_trimmed htrimmed] at h
  cases v with
  | nil => exact ⟨[], [], rfl, .inl rfl, by simp⟩
  | cons ch rest =>
      simp only [Bool.false_eq_true, if_false] at h
      split at h
      · rename_i hplus
        obtain rfl : ch = 0x2B := by simpa using hplus
        exact ⟨[0x2B], rest, rfl, .inr rfl, isDigit_of_decimalLoop h⟩
      · exact ⟨[], ch :: rest, rfl, .inl rfl, isDigit_of_decimalLoop h⟩

theorem trimmed_of_contentLength? {hs : List (HeaderLine lim)} {v : Bytes}
    (h : contentLength? hs = some v) : Trimmed v := by
  obtain ⟨line, -, rfl⟩ := Option.map_eq_some_iff.mp h
  exact trimmed_trim _

namespace Session

variable {s : Session} {l : FirstLine lim} {hs : List (HeaderLine lim)} {v : Bytes}

theorem AtEndOfHead.length_lookup (h : s.AtEndOfHead l hs) (hchunked : ¬ AsksChunked hs)
    (hlength : contentLength? hs = some v) :
    s.parser.headers.haveValue (str "Transfer-Encoding") (str "chunked") = false ∧
      s.parser.headers.haveHeader (str "Content-Length") = true ∧
      s.parser.headers.value (str "Content-Length") = v := by
  rw [h.headers, haveHeader_stored, value_stored hlength, hlength, ← Bool.not_eq_true,
    haveValue_stored_iff]
  exact ⟨hchunked, rfl, rfl⟩

/-- **Which lengths are accepted.** At the end of every accepted head that asks for no
chunks and has a `Content-Length`, the first one decides, whatever the others are. The
final LF is rejected with `InvalidContentLength` unless the value is, after unfolding
and trimming, decimal digits that a plus sign may precede; and when the value spells
a number below `2 ^ 32`, the LF is accepted and the body is as many bytes. -/
theorem contentLength_form (lim : Limits) (calls : List Call)
    (h : (after lim calls).parser.state = .parsingEndOfHeader) :
    ∃ (l : FirstLine lim) (hs : List (HeaderLine lim)), (after lim calls).AtEndOfHead l hs ∧
      (¬ AsksChunked hs → ∀ v, contentLength? hs = some v →
        (¬ LengthForm v → (after lim calls).parser.parse LF =
          (after lim calls).parser.throwing LF .invalidContentLength) ∧
        ∀ digits, Spells false digits v → denoted false digits < 2 ^ 32 →
          ∃ p', (after lim calls).parser.parse LF = .ok (p', ⟨false, denoted false digits == 0⟩) ∧
            p'.contentLength = denoted false digits ∧
            p'.state = if denoted false digits = 0 then .parsingMessage
              else .parsingIdentityBody) := by
  obtain ⟨l, hs, hhead⟩ := exists_atEndOfHead h
  refine ⟨l, hs, hhead, fun hchunked v hlength => ⟨fun hform => ?_, fun digits hspells hlt => ?_⟩⟩
  · obtain ⟨hno, hhave, hvalue⟩ := hhead.length_lookup hchunked hlength
    cases hread : toUnsignedInt v false with
    | error e =>
        exact MessageParser.parse_LF_of_invalid_length h hno hhave (by rw [hvalue, hread])
    | ok n =>
        exact absurd (lengthForm_of_toUnsignedInt (trimmed_of_contentLength? hlength) hread) hform
  · obtain ⟨hno, hhave, hvalue⟩ := hhead.length_lookup hchunked hlength
    have hread := toUnsignedInt_of_lt hspells hlt
    obtain ⟨p', hparse, hbody, hstate⟩ :=
      MessageParser.parse_LF_of_length h hno hhave (by rw [hvalue, hread])
    have hnumber : (denoted false digits).toUInt32.toNat = denoted false digits :=
      UInt32.toNat_ofNat_of_lt' hlt
    have hzero : (denoted false digits).toUInt32 = 0 ↔ denoted false digits = 0 := by
      rw [← UInt32.toNat_inj, hnumber]
      rfl
    refine ⟨p', ?_, hbody.trans hnumber, ?_⟩
    · rw [hparse]
      congr 3
      rw [Bool.eq_iff_iff, beq_iff_eq, beq_iff_eq, hzero]
    · rw [hstate]
      simp only [hzero]

theorem contentLength_form_word : ∃ (l : FirstLine ⟨1, 1, 1, 14, 4, 1⟩)
    (hs : List (HeaderLine ⟨1, 1, 1, 14, 4, 1⟩)) (s : Session),
    after ⟨1, 1, 1, 14, 4, 1⟩ ((str "a b c\r\nContent-Length:four\r\n\r").map .parse) = s ∧
    s.AtEndOfHead l hs ∧ ¬ AsksChunked hs ∧ contentLength? hs = some (str "four") ∧
    s.parser.parse LF = s.parser.throwing LF .invalidContentLength := by
  obtain ⟨l, hs, hhead, hform⟩ := contentLength_form ⟨1, 1, 1, 14, 4, 1⟩
    ((str "a b c\r\nContent-Length:four\r\n\r").map .parse) (by decide +kernel)
  have hchunked : ¬ AsksChunked hs := by
    rw [← haveValue_stored_iff, ← hhead.headers]
    decide +kernel
  have hlength : contentLength? hs = some (str "four") := by
    rw [contentLength?_eq, ← hhead.headers]
    decide +kernel
  have hword : ¬ LengthForm (str "four") := by
    rintro ⟨sign, digits, hv, rfl | rfl, hdigits⟩
    · exact absurd (hdigits 0x66 (by rw [← List.nil_append digits, ← hv]; decide)) (by decide)
    · exact absurd (congrArg List.head? hv) (by simp; decide)
  exact ⟨l, hs, _, rfl, hhead, hchunked, hlength, (hform hchunked _ hlength).1 hword⟩

def DecimalDigits (v : Bytes) : Prop := v ≠ [] ∧ ∀ ch ∈ v, isDigit ch = true

instance (v : Bytes) : Decidable (DecimalDigits v) :=
  inferInstanceAs (Decidable (v ≠ [] ∧ ∀ ch ∈ v, isDigit ch = true))

/-- At the end of a head that asks for no chunks and has a `Content-Length`, the final LF
is accepted only if all of its values are decimal digits that denote one number. -/
def RefusesAmbiguousLength (p : MessageParser) : Prop :=
  p.headers.haveValue (str "Transfer-Encoding") (str "chunked") = false →
    p.headers.values (str "Content-Length") ≠ [] → (∃ r, p.parse LF = .ok r) →
      ∃ n, ∀ v ∈ p.headers.values (str "Content-Length"), DecimalDigits v ∧ denoted false v = n

theorem not_refusesAmbiguousLength {p : MessageParser}
    (h : p.state = .parsingEndOfHeader ∧
      p.headers.haveValue (str "Transfer-Encoding") (str "chunked") = false ∧
      (answerToLF p).isSome = true ∧
      ∃ v ∈ p.headers.values (str "Content-Length"), ¬ DecimalDigits v ∨
        ∃ v' ∈ p.headers.values (str "Content-Length"), denoted false v ≠ denoted false v') :
    p.state = .parsingEndOfHeader ∧ ¬ RefusesAmbiguousLength p := by
  obtain ⟨hstate, hno, hanswer, v, hv, hbad⟩ := h
  refine ⟨hstate, fun hrefuses => ?_⟩
  obtain ⟨n, hall⟩ := hrefuses hno (List.ne_nil_of_mem hv) (exists_of_answerToLF hanswer)
  rcases hbad with hbad | ⟨v', hv', hne⟩
  · exact hbad (hall v hv).1
  · exact hne ((hall v hv).2.trans (hall v' hv').2.symm)

/-- Two lengths that differ, a sign, and no digit at all are accepted. -/
theorem ambiguous_length_accepted :
    ((afterHead (str "Content-Length: 1\r\nContent-Length: 2")).state = .parsingEndOfHeader ∧
        ¬ RefusesAmbiguousLength (afterHead (str "Content-Length: 1\r\nContent-Length: 2"))) ∧
      ((afterHead (str "Content-Length: +1")).state = .parsingEndOfHeader ∧
        ¬ RefusesAmbiguousLength (afterHead (str "Content-Length: +1"))) ∧
      (afterHead (str "Content-Length:")).state = .parsingEndOfHeader ∧
        ¬ RefusesAmbiguousLength (afterHead (str "Content-Length:")) :=
  ⟨not_refusesAmbiguousLength (by decide +kernel), not_refusesAmbiguousLength (by decide +kernel),
    not_refusesAmbiguousLength (by decide +kernel)⟩

end Session

end Httpxx
