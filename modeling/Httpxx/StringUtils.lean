import Mathlib.Data.List.DropRight
import Mathlib.Data.List.TakeWhile
import Httpxx.OStream

/-!
`trim` and `toUnsignedInt` of `src/string_utils.cpp`. An `unsigned int` is 32
bits wide, and the two loops of `toUnsignedInt` do their arithmetic in it.
-/

namespace Httpxx

open Library

def charsToTrim : Bytes := [0x20, 0x09, 0x0D, 0x0A]

def isTrimmed (ch : Byte) : Bool := charsToTrim.contains ch

/-- Trims space characters on the both ends of the string: first everything
after the last other character, then everything before the first one. -/
def trim (s : Bytes) : Bytes :=
  (s.rdropWhile isTrimmed).dropWhile isTrimmed

inductive ConversionError
  | invalidHexDigit (ch : Byte) (curPos : ℕ)
  | invalidDecimalDigit (ch : Byte) (curPos : ℕ)
  | overflow
  deriving DecidableEq, Repr

def ConversionError.what : ConversionError → Bytes
  | .invalidHexDigit ch curPos =>
      str "Invalid hex digit character '" ++ [ch] ++ str "' on " ++
        OStream.decimal curPos ++ str " position"
  | .invalidDecimalDigit ch curPos =>
      str "Invalid decimal digit character '" ++ [ch] ++ str "' on " ++
        OStream.decimal curPos ++ str " position"
  | .overflow => str "Integer overflow has been detected"

/-- The hexadecimal loop from position `curPos` on. -/
def hexLoop : ℕ → UInt32 → Bytes → Except ConversionError UInt32
  | _, result, [] => .ok result
  | curPos, result, ch :: rest =>
      let accumulate (newResult : UInt32) : Except ConversionError UInt32 :=
        if newResult < result then .error .overflow
        else hexLoop (curPos + 1) newResult rest
      if 0x30 ≤ ch && ch ≤ 0x39 then accumulate (result * 16 + ch.toUInt32 - 0x30)
      else if 0x61 ≤ ch && ch ≤ 0x66 then accumulate (result * 16 + ch.toUInt32 - 0x61 + 10)
      else if 0x41 ≤ ch && ch ≤ 0x46 then accumulate (result * 16 + ch.toUInt32 - 0x41 + 10)
      else .error (.invalidHexDigit ch curPos)

def decimalLoop : ℕ → UInt32 → Bytes → Except ConversionError UInt32
  | _, result, [] => .ok result
  | curPos, result, ch :: rest =>
      if !isDigit ch then .error (.invalidDecimalDigit ch curPos)
      else
        let newResult := result * 10 + ch.toUInt32 - 0x30
        if newResult < result then .error .overflow
        else decimalLoop (curPos + 1) newResult rest

/-- Converts string to unsigned int. -/
def toUnsignedInt (s : Bytes) (isHex : Bool) : Except ConversionError UInt32 :=
  match trim s with
  | [] => .ok 0
  | ch :: rest =>
      if isHex then hexLoop 0 0 (ch :: rest)
      else if ch == 0x2B then decimalLoop 1 0 rest  -- a leading '+' is skipped
      else decimalLoop 0 0 (ch :: rest)

/-! ### Trimming -/

/-- No character that `trim` would remove stands at either end. -/
def Trimmed (s : Bytes) : Prop :=
  (∀ ch ∈ s.head?, ch ∉ charsToTrim) ∧ ∀ ch ∈ s.getLast?, ch ∉ charsToTrim

theorem isTrimmed_iff (ch : Byte) : isTrimmed ch = true ↔ ch ∈ charsToTrim := by
  simp [isTrimmed]

theorem trim_of_trimmed {s : Bytes} (h : Trimmed s) : trim s = s := by
  have hright : s.rdropWhile isTrimmed = s := by
    refine List.rdropWhile_eq_self_iff.mpr fun hne hc => ?_
    exact h.2 _ (List.getLast?_eq_some_getLast hne) ((isTrimmed_iff _).mp hc)
  rw [trim, hright]
  cases s with
  | nil => rfl
  | cons ch s =>
      have hch : ¬ isTrimmed ch = true := fun hc =>
        h.1 ch rfl ((isTrimmed_iff _).mp hc)
      simp only [List.dropWhile_cons, hch, if_false, Bool.false_eq_true]

theorem trim_append {lead core trail : Bytes} (hlead : ∀ ch ∈ lead, ch ∈ charsToTrim)
    (htrail : ∀ ch ∈ trail, ch ∈ charsToTrim) (hcore : Trimmed core) :
    trim (lead ++ core ++ trail) = core := by
  have hdropTrail : (lead ++ core ++ trail).rdropWhile isTrimmed =
      (lead ++ core).rdropWhile isTrimmed := by
    -- the white space at the end goes first, from the outside in
    induction trail using List.reverseRecOn with
    | nil => rw [List.append_nil]
    | append_singleton trail ch ih =>
        rw [← List.append_assoc, List.rdropWhile_concat_pos _ _ _
          ((isTrimmed_iff _).mpr (htrail ch (by simp)))]
        exact ih fun c hc => htrail c (by simp [hc])
  rw [trim, hdropTrail]
  cases hc : core with
  | nil =>
      have hnil : lead.rdropWhile isTrimmed = [] :=
        List.rdropWhile_eq_nil_iff.mpr fun c hc => (isTrimmed_iff c).mpr (hlead c hc)
      simp [hnil]
  | cons ch rest =>
      rw [← hc]
      have hne : lead ++ core ≠ [] := by simp [hc]
      have hright : (lead ++ core).rdropWhile isTrimmed = lead ++ core := by
        refine List.rdropWhile_eq_self_iff.mpr fun _ hlast => ?_
        have hcne : core ≠ [] := by simp [hc]
        rw [List.getLast_append_of_ne_nil hne hcne] at hlast
        exact hcore.2 _ (List.getLast?_eq_some_getLast hcne) ((isTrimmed_iff _).mp hlast)
      rw [hright, List.dropWhile_append_of_pos fun c hc => (isTrimmed_iff c).mpr (hlead c hc)]
      have hch : ¬ isTrimmed ch = true := fun h =>
        hcore.1 ch (by rw [hc]; rfl) ((isTrimmed_iff _).mp h)
      rw [hc]
      simp only [List.dropWhile_cons, hch, if_false, Bool.false_eq_true]

theorem trim_sublist (s : Bytes) : (trim s).Sublist s :=
  (List.dropWhile_sublist _).trans (List.rdropWhile_prefix _ _).sublist

theorem mem_of_mem_trim {s : Bytes} {ch : Byte} (h : ch ∈ trim s) : ch ∈ s :=
  (trim_sublist s).subset h

theorem trim_length_le (s : Bytes) : (trim s).length ≤ s.length := (trim_sublist s).length_le

theorem trimmed_trim (s : Bytes) : Trimmed (trim s) := by
  constructor
  · intro ch hch hmem
    have h := List.head?_dropWhile_not isTrimmed
      (s.rdropWhile isTrimmed)
    rw [show (s.rdropWhile isTrimmed).dropWhile isTrimmed =
      trim s from rfl, hch] at h
    simp [(isTrimmed_iff ch).mpr hmem] at h
  · intro ch hch hmem
    have hne : s.rdropWhile isTrimmed ≠ [] := by
      intro h
      simp [trim, h] at hch
    obtain ⟨pre, hpre⟩ : ∃ pre, s.rdropWhile isTrimmed = pre ++ trim s :=
      (List.dropWhile_suffix isTrimmed).imp fun _ h => h.symm
    have hlast := List.rdropWhile_last_not isTrimmed s hne
    have hgl : (s.rdropWhile isTrimmed).getLast? = some ch := by
      have htne : trim s ≠ [] := by
        intro h
        simp [h] at hch
      rw [hpre, List.getLast?_append_of_ne_nil _ htne]
      exact hch
    rw [List.getLast?_eq_some_getLast hne] at hgl
    rw [Option.some.inj hgl] at hlast
    exact hlast ((isTrimmed_iff ch).mpr hmem)

/-- What `trim` removes is white space at the ends. -/
theorem exists_trim (s : Bytes) :
    ∃ lead trail, s = lead ++ trim s ++ trail ∧ (∀ ch ∈ lead, ch ∈ charsToTrim) ∧
      ∀ ch ∈ trail, ch ∈ charsToTrim := by
  refine ⟨(s.rdropWhile isTrimmed).takeWhile isTrimmed, s.rtakeWhile isTrimmed, ?_,
    fun ch hch => (isTrimmed_iff ch).mp (List.mem_takeWhile_imp hch),
    fun ch hch => (isTrimmed_iff ch).mp (List.mem_rtakeWhile_imp hch)⟩
  rw [trim, List.takeWhile_append_dropWhile, List.rdropWhile_append_rtakeWhile]

theorem trim_append_left {lead s : Bytes} (h : ∀ ch ∈ lead, ch ∈ charsToTrim) :
    trim (lead ++ s) = trim s := by
  obtain ⟨lead', trail, hs, hlead', htrail⟩ := exists_trim s
  have hall : ∀ ch ∈ lead ++ lead', ch ∈ charsToTrim := List.forall_mem_append.mpr ⟨h, hlead'⟩
  calc trim (lead ++ s) = trim (lead ++ lead' ++ trim s ++ trail) := by
        conv_lhs => rw [hs]
        simp
    _ = trim s := trim_append hall htrail (trimmed_trim s)

theorem trimmed_of_forall {s : Bytes} (h : ∀ ch ∈ s, ch ∉ charsToTrim) : Trimmed s :=
  ⟨fun ch hch => h ch (List.mem_of_mem_head? hch), fun ch hch => h ch (List.mem_of_getLast? hch)⟩

theorem not_mem_charsToTrim_of_isToken {ch : Byte} (h : isToken ch = true) :
    ch ∉ charsToTrim := by
  intro hmem
  have hspace : ch = SP ∨ ch = HT ∨ ch = CR ∨ ch = LF := by simpa [charsToTrim] using hmem
  rcases hspace with rfl | rfl | rfl | rfl <;> exact absurd h (by decide)

theorem trim_of_isToken {s : Bytes} (h : ∀ ch ∈ s, isToken ch = true) : trim s = s :=
  trim_of_trimmed (trimmed_of_forall fun ch hch => not_mem_charsToTrim_of_isToken (h ch hch))

end Httpxx
