import Mathlib.Algebra.Order.BigOperators.Group.List
import Mathlib.Algebra.Group.Action.Defs
import Httpxx.Parser.Safety

/-!
How much a peer can make a parser hold. The tokens and the stored headers are
bounded by the limits in every reachable parser (`Session.safe_after`); this file
adds the strings that are being read. A header name or value grows only below its
limit. The digits of a chunk size grow without a check, so a bound on what a parser
holds is a bound on the runs in which no chunk size is longer than some number of
digits.
-/

namespace Httpxx

open Library

def Headers.retained (hs : Headers) : ℕ := (hs.entries.map fun i => i.1.length + i.2.length).sum

/-- The bytes of all strings that a parser holds. -/
def MessageParser.retained (p : MessageParser) : ℕ :=
  p.firstToken.length + p.secondToken.length + p.thirdToken.length + p.headerFieldName.length +
    p.headerFieldValue.length + p.headers.retained + p.chunkSizeStr.length

/-- The most that the tokens, the stored headers and the header being read can take. -/
def Limits.retention (lim : Limits) : ℕ :=
  max 1 lim.maxFirstTokenLength + max 1 lim.maxSecondTokenLength +
    max 1 lim.maxThirdTokenLength +
      (lim.maxHeadersAmount + 1) * (max 1 lim.maxHeaderNameLength + lim.maxHeaderValueLength)

variable {lim : Limits} {k : ℕ}

theorem Shown.Safe.retained_within {m : Shown} (h : m.Safe lim) :
    m.headers.retained ≤
      lim.maxHeadersAmount * (max 1 lim.maxHeaderNameLength + lim.maxHeaderValueLength) := by
  have heach : ∀ n ∈ m.headers.entries.map fun i => i.1.length + i.2.length,
      n ≤ max 1 lim.maxHeaderNameLength + lim.maxHeaderValueLength := by
    intro n hn
    obtain ⟨i, hi, rfl⟩ := List.mem_map.mp hn
    exact Nat.add_le_add (h.headers i hi).name.length (h.headers i hi).value.length
  have hsum := List.sum_le_card_nsmul _ _ heach
  rw [List.length_map, smul_eq_mul] at hsum
  exact hsum.trans (Nat.mul_le_mul_right _ h.headers_size)

namespace MessageParser

/-- The header being read is within its limits, and a chunk size within `k` digits. -/
structure ReadingWithin (lim : Limits) (k : ℕ) (p : MessageParser) : Prop where
  limits : p.limits = lim
  headerFieldName : p.headerFieldName.length ≤ max 1 lim.maxHeaderNameLength
  headerFieldValue : p.headerFieldValue.length ≤ lim.maxHeaderValueLength
  chunkSizeStr : p.chunkSizeStr.length ≤ k

theorem readingWithin_create : (create lim).ReadingWithin lim k :=
  ⟨rfl, Nat.zero_le _, Nat.zero_le _, Nat.zero_le _⟩

namespace ReadingWithin

variable {p p' : MessageParser} {ch : Byte}

theorem reset (h : p.ReadingWithin lim k) : p.reset.ReadingWithin lim k :=
  ⟨h.limits, Nat.zero_le _, Nat.zero_le _, Nat.zero_le _⟩

theorem congr (h : p.ReadingWithin lim k) (hlimits : p'.limits = p.limits)
    (hname : p'.headerFieldName = p.headerFieldName)
    (hvalue : p'.headerFieldValue = p.headerFieldValue)
    (hsize : p'.chunkSizeStr = p.chunkSizeStr) : p'.ReadingWithin lim k :=
  ⟨hlimits.trans h.limits, hname ▸ h.headerFieldName, hvalue ▸ h.headerFieldValue,
    hsize ▸ h.chunkSizeStr⟩

theorem updatePosition (h : p.ReadingWithin lim k) : (p.updatePosition ch).ReadingWithin lim k := by
  unfold MessageParser.updatePosition
  split <;> exact h.congr rfl rfl rfl rfl

@[simp] theorem chunkSizeStr_updatePosition (p : MessageParser) (ch : Byte) :
    (p.updatePosition ch).chunkSizeStr = p.chunkSizeStr := by
  unfold MessageParser.updatePosition
  split <;> rfl

theorem length_append_le {s : Bytes} {n : ℕ} (c : Byte) (hroom : s.length < n) :
    (s ++ [c]).length ≤ n := by
  rw [List.length_append, List.length_singleton]
  omega

theorem appendHeader (h : p.ReadingWithin lim k) (hok : p.appendHeader ch = .ok p') :
    p'.ReadingWithin lim k ∧ p'.headerFieldName = [] := by
  unfold MessageParser.appendHeader at hok
  split at hok
  · cases hok
  · cases hok
    exact ⟨⟨h.limits, Nat.zero_le _, Nat.zero_le _, h.chunkSizeStr⟩, rfl⟩

theorem parseHeader (isTrailer : Bool) (h : p.ReadingWithin lim k)
    (hok : p.parseHeader ch isTrailer = .ok p') : p'.ReadingWithin lim k := by
  simp only [MessageParser.parseHeader] at hok
  split at hok
  · cases hok
    exact ⟨h.limits, Nat.zero_le _, Nat.zero_le _, h.chunkSizeStr⟩
  split at hok
  · cases hok
  split at hok
  · cases hok
    exact ⟨h.limits, Nat.le_max_left _ _, Nat.zero_le _, h.chunkSizeStr⟩
  · cases hok

theorem parseHeaderName (isTrailer : Bool) (h : p.ReadingWithin lim k)
    (hok : p.parseHeaderName ch isTrailer = .ok p') : p'.ReadingWithin lim k := by
  unfold MessageParser.parseHeaderName at hok
  split at hok
  · cases hok
  split at hok
  · cases hok
    exact h.congr rfl rfl rfl rfl
  split at hok
  · split at hok
    · rename_i hroom
      cases hok
      rw [h.limits] at hroom
      exact ⟨h.limits, (length_append_le ch hroom).trans (Nat.le_max_right _ _),
        h.headerFieldValue, h.chunkSizeStr⟩
    · cases hok
  · cases hok

theorem parseHeaderValue (isTrailer : Bool) (h : p.ReadingWithin lim k)
    (hok : p.parseHeaderValue ch isTrailer = .ok p') : p'.ReadingWithin lim k := by
  unfold MessageParser.parseHeaderValue at hok
  split at hok
  · cases hok
    exact h.congr rfl rfl rfl rfl
  split at hok
  · split at hok
    · rename_i hroom
      cases hok
      rw [h.limits] at hroom
      exact ⟨h.limits, h.headerFieldName, length_append_le ch hroom, h.chunkSizeStr⟩
    · cases hok
  · cases hok

theorem parseHeaderValueLF (isTrailer : Bool) (h : p.ReadingWithin lim k)
    (hok : p.parseHeaderValueLF ch isTrailer = .ok p') : p'.ReadingWithin lim k := by
  unfold MessageParser.parseHeaderValueLF at hok
  split at hok
  · cases hok
    exact h.congr rfl rfl rfl rfl
  · cases hok

theorem parseHeaderValueLWS (isTrailer : Bool) (h : p.ReadingWithin lim k)
    (hok : p.parseHeaderValueLWS ch isTrailer = .ok p') : p'.ReadingWithin lim k := by
  unfold MessageParser.parseHeaderValueLWS at hok
  split at hok
  · obtain ⟨r, happend, hr⟩ := bind_eq_ok_iff.mp hok
    cases hr
    exact (h.appendHeader happend).1.congr rfl rfl rfl rfl
  split at hok
  · cases hok
  split at hok
  · split at hok
    · rename_i hroom
      cases hok
      rw [h.limits] at hroom
      exact ⟨h.limits, h.headerFieldName, length_append_le SP hroom, h.chunkSizeStr⟩
    · cases hok
  split at hok
  · obtain ⟨r, happend, hr⟩ := bind_eq_ok_iff.mp hok
    cases hr
    obtain ⟨hkept, hname⟩ := h.appendHeader happend
    refine ⟨hkept.limits, ?_, hkept.headerFieldValue, hkept.chunkSizeStr⟩
    rw [hname]
    exact Nat.le_max_left _ _
  · cases hok

theorem parseEndOfHeader (h : p.ReadingWithin lim k) (hok : p.parseEndOfHeader ch = .ok p') :
    p'.ReadingWithin lim k := by
  unfold MessageParser.parseEndOfHeader at hok
  split at hok
  · split at hok
    · cases hok
      exact h.congr rfl rfl rfl rfl
    split at hok
    · split at hok
      · cases hok
      · simp only at hok
        split at hok <;> cases hok <;> exact h.congr rfl rfl rfl rfl
    · cases hok
      exact h.congr rfl rfl rfl rfl
  · cases hok

/-- The one accumulator that no limit guards. -/
theorem parseChunkSize (h : p.ReadingWithin lim k)
    (hshort : isHexDigit ch = true → p.chunkSizeStr.length < k)
    (hok : p.parseChunkSize ch = .ok p') : p'.ReadingWithin lim k := by
  unfold MessageParser.parseChunkSize at hok
  split at hok
  · rename_i hhex
    cases hok
    exact ⟨h.limits, h.headerFieldName, h.headerFieldValue, length_append_le ch (hshort hhex)⟩
  split at hok
  · cases hok
  split at hok
  · cases hok
  · simp only at hok
    split at hok
    all_goals
      cases hok
      exact ⟨h.limits, h.headerFieldName, h.headerFieldValue, Nat.zero_le _⟩

/-- **Every step keeps what is being read within its limits**, as long as the chunk
size being read has less than `k` digits when one more is added. -/
theorem parseState (h : p.ReadingWithin lim k)
    (hshort : p.state = .parsingChunkSize → isHexDigit ch = true → p.chunkSizeStr.length < k)
    (hok : p.parseState ch = .ok p') : p'.ReadingWithin lim k := by
  cases hstate : p.state with
  | parsingHeader | parsingTrailerHeader =>
      simp only [MessageParser.parseState, hstate] at hok
      exact h.parseHeader _ hok
  | parsingHeaderName | parsingTrailerHeaderName =>
      simp only [MessageParser.parseState, hstate] at hok
      exact h.parseHeaderName _ hok
  | parsingHeaderValue | parsingTrailerHeaderValue =>
      simp only [MessageParser.parseState, hstate] at hok
      exact h.parseHeaderValue _ hok
  | parsingHeaderValueLF | parsingTrailerHeaderValueLF =>
      simp only [MessageParser.parseState, hstate] at hok
      exact h.parseHeaderValueLF _ hok
  | parsingHeaderValueLWS | parsingTrailerHeaderValueLWS =>
      simp only [MessageParser.parseState, hstate] at hok
      exact h.parseHeaderValueLWS _ hok
  | parsingEndOfHeader =>
      simp only [MessageParser.parseState, hstate] at hok
      exact h.parseEndOfHeader hok
  | parsingChunkSize =>
      simp only [MessageParser.parseState, hstate] at hok
      exact h.parseChunkSize (hshort hstate) hok
  | parsingMessage =>
      simp only [MessageParser.parseState, hstate] at hok
      split_ifs at hok <;> cases hok
      all_goals exact h.reset.congr rfl rfl rfl rfl
  | _ =>
      simp only [MessageParser.parseState, hstate] at hok
      split_ifs at hok <;> cases hok
      all_goals exact h.congr rfl rfl rfl rfl

end ReadingWithin

/-- What a parser holds, by what it shows and what it is reading. -/
theorem retained_le_of_within {p : MessageParser} (hshown : p.shown.Safe lim)
    (hreading : p.ReadingWithin lim k) : p.retained ≤ lim.retention + k := by
  have h₁ := hshown.firstToken.length
  have h₂ := hshown.secondToken.length
  have h₃ := hshown.thirdToken.length
  have hheaders := hshown.retained_within
  have hname := hreading.headerFieldName
  have hvalue := hreading.headerFieldValue
  have hsize := hreading.chunkSizeStr
  simp only [shown] at h₁ h₂ h₃ hheaders
  unfold retained Limits.retention
  rw [Nat.succ_mul]
  omega

end MessageParser

/-! ### Every run -/

namespace Session

/-- A call that does not add a digit to a chunk size of `k` digits. -/
def KeepsSizesShort (k : ℕ) (s : Session) : Call → Prop
  | .parse ch => s.parser.state = .parsingChunkSize → isHexDigit ch = true →
      s.parser.chunkSizeStr.length < k
  | .reset => True

instance (k : ℕ) (s : Session) (call : Call) : Decidable (s.KeepsSizesShort k call) :=
  match call with
  | .parse ch => inferInstanceAs (Decidable (s.parser.state = .parsingChunkSize →
      isHexDigit ch = true → s.parser.chunkSizeStr.length < k))
  | .reset => .isTrue trivial

/-- In a run in which no chunk size grows longer than `k` digits, what is being read is
within its limits. -/
theorem readingWithin_after {calls : List Call}
    (h : Along (KeepsSizesShort k) (start lim) calls) :
    (after lim calls).parser.ReadingWithin lim k := by
  refine (along_induction (I := fun s => s.parser.Clean ∧ s.parser.ReadingWithin lim k)
    ⟨MessageParser.clean_create lim, MessageParser.readingWithin_create⟩ ?_ h).2
  rintro s call hcall ⟨hclean, hwithin⟩
  cases call with
  | reset => exact ⟨MessageParser.clean_reset _, hwithin.reset⟩
  | parse ch =>
      rcases MessageParser.parse_cases hclean ch with
        ⟨code, hthrow, -⟩ | ⟨p, flags, hok, hp, -⟩
      · rw [step_parse_of_error hthrow]
        exact ⟨hclean, hwithin⟩
      · rw [step_parse_of_ok hok]
        obtain ⟨q, hstate, rfl, -⟩ := MessageParser.parse_ok_iff.mp hok
        exact ⟨hp, (hwithin.parseState hcall hstate).updatePosition⟩

/-- **The limits bound what a peer can make a parser hold, chunk sizes apart.** In
every run in which no hexadecimal digit is added to a chunk size that has `k` digits
already, a parser never holds more than a number of bytes that its limits and `k`
determine. -/
theorem retained_le (lim : Limits) (k : ℕ) (calls : List Call)
    (h : Along (KeepsSizesShort k) (start lim) calls) :
    (after lim calls).parser.retained ≤ lim.retention + k :=
  MessageParser.retained_le_of_within (safe_after lim calls).shown (readingWithin_after h)

def chunkedHead : List Call :=
  (str "a b c\r\nTransfer-Encoding:chunked\r\n\r\n").map .parse

theorem retained_le_chunkedHead :
    Along (KeepsSizesShort 1) (start ⟨1, 1, 1, 17, 7, 1⟩) (chunkedHead ++ [.parse 0x30]) ∧
      (after ⟨1, 1, 1, 17, 7, 1⟩ (chunkedHead ++ [.parse 0x30])).parser.retained ≤ 51 + 1 := by
  have h : Along (KeepsSizesShort 1) (start ⟨1, 1, 1, 17, 7, 1⟩)
      (chunkedHead ++ [.parse 0x30]) := by decide +kernel
  exact ⟨h, retained_le ⟨1, 1, 1, 17, 7, 1⟩ 1 _ h⟩

theorem chunkSizeStr_foldl {s : Session} (hs : s.parser.state = .parsingChunkSize) {ds : Bytes}
    (hds : ∀ ch ∈ ds, isHexDigit ch = true) :
    ((ds.map Call.parse).foldl step s).parser.chunkSizeStr = s.parser.chunkSizeStr ++ ds := by
  induction ds generalizing s with
  | nil => simp
  | cons ch ds ih =>
      obtain ⟨hch, hds⟩ := List.forall_mem_cons.mp hds
      have hstep : s.parser.parseState ch =
          .ok { s.parser with chunkSizeStr := s.parser.chunkSizeStr ++ [ch] } := by
        simp [MessageParser.parseState, hs, MessageParser.parseChunkSize, hch]
      have hnext := step_parse_of_ok (MessageParser.parse_of_ok hstep)
      rw [List.map_cons, List.foldl_cons, ih (by rw [hnext]; simpa using hs) hds, hnext]
      simp

/-- Without a condition on the chunk sizes nothing bounds what a parser holds: zeros
after the head of a chunked message are kept, as many as are sent. -/
theorem retained_unbounded :
    ¬ ∀ lim : Limits, ∃ bound, ∀ calls, (after lim calls).parser.retained ≤ bound := by
  intro h
  obtain ⟨bound, hbound⟩ := h ⟨1, 1, 1, 17, 7, 1⟩
  have hhead : (after ⟨1, 1, 1, 17, 7, 1⟩ chunkedHead).parser.state = .parsingChunkSize := by
    decide +kernel
  have hzeros : ∀ ch ∈ List.replicate (bound + 1) (0x30 : Byte), isHexDigit ch = true := by
    intro ch hch
    obtain rfl := List.eq_of_mem_replicate hch
    rfl
  have hkept := congrArg List.length (chunkSizeStr_foldl hhead hzeros)
  have hle := hbound (chunkedHead ++ (List.replicate (bound + 1) (0x30 : Byte)).map Call.parse)
  rw [List.length_append, List.length_replicate] at hkept
  unfold MessageParser.retained at hle
  rw [after, List.foldl_append] at hle
  rw [after] at hkept
  omega

end Session

end Httpxx
