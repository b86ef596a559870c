import Mathlib.Tactic.NormNum
import Httpxx.StringUtils

/-!
What `toUnsignedInt` reads. Its loops are the wrapping reader of
`Httpxx.Library.Positional` at the width of an `unsigned int`, so on a string of
digits it returns the number they denote modulo `2 ^ 32`, and throws exactly when
the values of the prefixes drop. Below `2 ^ 32` that is the number itself, which
makes it the inverse of the decimal and hexadecimal output of a stream.
-/

namespace Httpxx

open Library

def radix (isHex : Bool) : ℕ := if isHex then 16 else 10

def isDigitOf (isHex : Bool) (ch : Byte) : Bool := if isHex then isHexDigit ch else isDigit ch

def digitValue (ch : Byte) : ℕ := (hexValue ch).toNat

/-- The number that a string of digits denotes. -/
def denoted (isHex : Bool) (digits : Bytes) : ℕ := numeral (radix isHex) (digits.map digitValue)

def readResult : Option ℕ → Except ConversionError UInt32
  | none => .error .overflow
  | some n => .ok n.toUInt32

/-! ### One digit -/

theorem digitValue_of_isDigit {ch : Byte} (h : isDigit ch = true) :
    0x30 ≤ ch.toNat ∧ digitValue ch = ch.toNat - 0x30 := by
  have hrange : 0x30 ≤ ch ∧ ch ≤ 0x39 := by simpa [isDigit] using h
  have hle := UInt8.le_iff_toNat_le.mp hrange.1
  refine ⟨hle, ?_⟩
  rw [digitValue, hexValue, if_pos h, UInt8.toNat_sub_of_le _ _ hrange.1]
  rfl

theorem toNat_letter {ch first : Byte} (hfirst : first ≤ ch) (hlast : ch.toNat ≤ first.toNat + 5) :
    (ch - first + 10).toNat = ch.toNat - first.toNat + 10 := by
  rw [UInt8.toNat_add, UInt8.toNat_sub_of_le _ _ hfirst]
  show (ch.toNat - first.toNat + 10) % 256 = _
  omega

theorem digitValue_of_lower {ch : Byte} (h : (0x61 ≤ ch && ch ≤ 0x66) = true) :
    0x61 ≤ ch.toNat ∧ digitValue ch = ch.toNat - 0x61 + 10 := by
  have hrange : 0x61 ≤ ch ∧ ch ≤ 0x66 := by simpa using h
  have hfirst := UInt8.le_iff_toNat_le.mp hrange.1
  have hlast := UInt8.le_iff_toNat_le.mp hrange.2
  have hdigit : ¬ isDigit ch = true := by
    unfold isDigit
    grind
  refine ⟨hfirst, ?_⟩
  rw [digitValue, hexValue, if_neg hdigit, if_pos h, toNat_letter hrange.1 hlast]
  rfl

theorem digitValue_of_upper {ch : Byte} (h : (0x41 ≤ ch && ch ≤ 0x46) = true) :
    0x41 ≤ ch.toNat ∧ digitValue ch = ch.toNat - 0x41 + 10 := by
  have hrange : 0x41 ≤ ch ∧ ch ≤ 0x46 := by simpa using h
  have hfirst := UInt8.le_iff_toNat_le.mp hrange.1
  have hlast := UInt8.le_iff_toNat_le.mp hrange.2
  have hdigit : ¬ isDigit ch = true := by
    unfold isDigit
    grind
  have hlower : ¬ (0x61 ≤ ch && ch ≤ 0x66) = true := by grind
  refine ⟨hfirst, ?_⟩
  rw [digitValue, hexValue, if_neg hdigit, if_neg hlower, if_pos h, toNat_letter hrange.1 hlast]
  rfl

/-- One accumulation in `unsigned int` arithmetic: the new digit is added by way of
its character code. -/
theorem toNat_accumulate (r b ch first offset : UInt32) (h : first.toNat ≤ ch.toNat) :
    (r * b + ch - first + offset).toNat =
      (r.toNat * b.toNat + (ch.toNat - first.toNat + offset.toNat)) % 2 ^ 32 := by
  have hch := ch.toNat_lt
  have hfirst := first.toNat_lt
  simp only [UInt32.toNat_sub, UInt32.toNat_add, UInt32.toNat_mul]
  generalize r.toNat * b.toNat = p
  omega

/-! ### The loops -/

theorem step_eq_readResult {r n : UInt32} {b d : ℕ} {ds : List ℕ}
    {rest : Except ConversionError UInt32} (hn : n.toNat = (r.toNat * b + d) % 2 ^ 32)
    (hrest : rest = readResult (readWrapping (2 ^ 32) b n.toNat ds)) :
    (if n < r then .error .overflow else rest) =
      readResult (readWrapping (2 ^ 32) b r.toNat (d :: ds)) := by
  rw [readWrapping]
  simp only [← hn, UInt32.lt_iff_toNat_lt]
  split
  · rfl
  · exact hrest

theorem hexLoop_eq {s : Bytes} (hs : ∀ ch ∈ s, isHexDigit ch = true) (curPos : ℕ) (r : UInt32) :
    hexLoop curPos r s = readResult (readWrapping (2 ^ 32) 16 r.toNat (s.map digitValue)) := by
  induction s generalizing curPos r with
  | nil => simp [hexLoop, readWrapping, readResult]
  | cons ch s ih =>
      obtain ⟨hch, hs⟩ := List.forall_mem_cons.mp hs
      simp only [hexLoop, List.map_cons]
      by_cases hdigit : isDigit ch = true
      · obtain ⟨hfirst, hvalue⟩ := digitValue_of_isDigit hdigit
        rw [if_pos (show (0x30 ≤ ch && ch ≤ 0x39) = true from hdigit)]
        refine step_eq_readResult ?_ (ih hs _ _)
        have hstep := toNat_accumulate r 16 ch.toUInt32 0x30 0 (by simpa using hfirst)
        rw [hvalue]
        simpa using hstep
      · rw [if_neg (show ¬ (0x30 ≤ ch && ch ≤ 0x39) = true from hdigit)]
        by_cases hlower : (0x61 ≤ ch && ch ≤ 0x66) = true
        · obtain ⟨hfirst, hvalue⟩ := digitValue_of_lower hlower
          rw [if_pos hlower]
          refine step_eq_readResult ?_ (ih hs _ _)
          have hstep := toNat_accumulate r 16 ch.toUInt32 0x61 10 (by simpa using hfirst)
          rw [hvalue]
          simpa using hstep
        · have hupper : (0x41 ≤ ch && ch ≤ 0x46) = true := by
            simp only [isHexDigit, hdigit, hlower, Bool.or_eq_true] at hch
            simpa using hch
          obtain ⟨hfirst, hvalue⟩ := digitValue_of_upper hupper
          rw [if_neg hlower, if_pos hupper]
          refine step_eq_readResult ?_ (ih hs _ _)
          have hstep := toNat_accumulate r 16 ch.toUInt32 0x41 10 (by simpa using hfirst)
          rw [hvalue]
          simpa using hstep

theorem decimalLoop_eq {s : Bytes} (hs : ∀ ch ∈ s, isDigit ch = true) (curPos : ℕ) (r : UInt32) :
    decimalLoop curPos r s = readResult (readWrapping (2 ^ 32) 10 r.toNat (s.map digitValue)) := by
  induction s generalizing curPos r with
  | nil => simp [decimalLoop, readWrapping, readResult]
  | cons ch s ih =>
      obtain ⟨hch, hs⟩ := List.forall_mem_cons.mp hs
      obtain ⟨hfirst, hvalue⟩ := digitValue_of_isDigit hch
      simp only [decimalLoop, List.map_cons, hch, Bool.not_true, Bool.false_eq_true, if_false]
      refine step_eq_readResult ?_ (ih hs _ _)
      have hstep := toNat_accumulate r 10 ch.toUInt32 0x30 0 (by simpa using hfirst)
      rw [hvalue]
      simpa using hstep

/-! ### Whole strings -/

/-- The string `s` spells out a number by these digits: white space may stand around
them, and a plus sign before decimal ones. -/
structure Spells (isHex : Bool) (digits s : Bytes) : Prop where
  ne_nil : digits ≠ []
  chars : ∀ ch ∈ digits, isDigitOf isHex ch = true
  spelling : ∃ lead sign trail, s = lead ++ (sign ++ digits) ++ trail ∧
    (∀ ch ∈ lead, ch ∈ charsToTrim) ∧ (∀ ch ∈ trail, ch ∈ charsToTrim) ∧
    (sign = [] ∨ isHex = false ∧ sign = [0x2B])

theorem Spells.of_digits {isHex : Bool} {digits : Bytes} (hne : digits ≠ [])
    (hchars : ∀ ch ∈ digits, isDigitOf isHex ch = true) : Spells isHex digits digits :=
  ⟨hne, hchars, [], [], [], by simp, by simp, by simp, .inl rfl⟩

theorem isHexDigit_of_isDigit {ch : Byte} (h : isDigit ch = true) : isHexDigit ch = true := by
  simp [isHexDigit, h]

theorem isHexDigit_of_isDigitOf {isHex : Bool} {ch : Byte} (h : isDigitOf isHex ch = true) :
    isHexDigit ch = true := by
  cases isHex with
  | false => exact isHexDigit_of_isDigit h
  | true => exact h

theorem not_mem_charsToTrim_of_isHexDigit {ch : Byte} (h : isHexDigit ch = true) :
    ch ∉ charsToTrim := by
  intro hmem
  have hspace : ch = SP ∨ ch = HT ∨ ch = CR ∨ ch = LF := by simpa [charsToTrim] using hmem
  rcases hspace with rfl | rfl | rfl | rfl <;> exact absurd h (by decide)

/-- A string that spells out a number is read by the wrapping reader. -/
theorem toUnsignedInt_of_spells {isHex : Bool} {digits s : Bytes} (h : Spells isHex digits s) :
    toUnsignedInt s isHex =
      readResult (readWrapping (2 ^ 32) (radix isHex) 0 (digits.map digitValue)) := by
  obtain ⟨hne, hchars, lead, sign, trail, rfl, hlead, htrail, hsign⟩ := h
  have hdigits : ∀ ch ∈ digits, ch ∉ charsToTrim := fun ch hch =>
    not_mem_charsToTrim_of_isHexDigit (isHexDigit_of_isDigitOf (hchars ch hch))
  have htrimmed : Trimmed (sign ++ digits) := by
    refine trimmed_of_forall fun ch hch => ?_
    rcases List.mem_append.mp hch with hch | hch
    · rcases hsign with rfl | ⟨-, rfl⟩
      · simp at hch
      · obtain rfl : ch = 0x2B := by simpa using hch
        decide
    · exact hdigits ch hch
  rw [toUnsignedInt, trim_append hlead htrail htrimmed]
  obtain ⟨ch, rest, rfl⟩ := List.exists_cons_of_ne_nil hne
  cases isHex with
  | true =>
      obtain rfl : sign = [] := by simpa using hsign
      exact hexLoop_eq hchars 0 0
  | false =>
      -- a sign is skipped before the loop, and a digit is not taken for one
      rcases hsign with rfl | ⟨-, rfl⟩
      · have hnotsign : (ch == 0x2B) = false := by
          rw [beq_eq_false_iff_ne]
          rintro rfl
          exact absurd (hchars 0x2B (by simp)) (by decide)
        simp only [List.nil_append, hnotsign, Bool.false_eq_true, if_false]
        exact decimalLoop_eq hchars 0 0
      · exact decimalLoop_eq hchars 1 0

/-- The number is returned when it fits into an `unsigned int`, and an exception
thrown when it does not. -/
def ReadsExactly (s : Bytes) (isHex : Bool) (n : ℕ) : Prop :=
  (n < 2 ^ 32 → toUnsignedInt s isHex = .ok n.toUInt32) ∧
    (2 ^ 32 ≤ n → ∃ e, toUnsignedInt s isHex = .error e)

theorem radix_pos (isHex : Bool) : 0 < radix isHex := by
  cases isHex <;> decide

theorem toUnsignedInt_of_lt {isHex : Bool} {digits s : Bytes} (h : Spells isHex digits s)
    (hlt : denoted isHex digits < 2 ^ 32) :
    toUnsignedInt s isHex = .ok (denoted isHex digits).toUInt32 := by
  rw [toUnsignedInt_of_spells h, readWrapping_of_lt (radix_pos isHex) hlt]
  rfl

/-- The digits are read exactly when the number fits, or the overflow shows as a
drop between the values of two prefixes modulo `2 ^ 32`. -/
theorem readsExactly_iff {isHex : Bool} {digits s : Bytes} (h : Spells isHex digits s) :
    ReadsExactly s isHex (denoted isHex digits) ↔
      denoted isHex digits < 2 ^ 32 ∨ Drops (2 ^ 32) (radix isHex) (digits.map digitValue) := by
  constructor
  · rintro ⟨-, hlarge⟩
    by_cases hlt : denoted isHex digits < 2 ^ 32
    · exact .inl hlt
    · right
      obtain ⟨e, he⟩ := hlarge (Nat.not_lt.mp hlt)
      by_contra hdrops
      rw [toUnsignedInt_of_spells h, readWrapping_eq, if_neg hdrops] at he
      cases he
  · intro hcond
    refine ⟨toUnsignedInt_of_lt h, fun hlarge => ?_⟩
    have hdrops := hcond.resolve_left (Nat.not_lt.mpr hlarge)
    exact ⟨.overflow, by rw [toUnsignedInt_of_spells h, readWrapping_eq, if_pos hdrops]; rfl⟩

theorem toNat_eq_denoted_iff {isHex : Bool} {digits s : Bytes} (h : Spells isHex digits s)
    {n : UInt32} (hread : toUnsignedInt s isHex = .ok n) :
    n.toNat = denoted isHex digits ↔ denoted isHex digits < 2 ^ 32 := by
  constructor
  · intro heq
    rw [← heq]
    exact n.toNat_lt
  · intro hlt
    rw [toUnsignedInt_of_lt h hlt] at hread
    injection hread with hread
    rw [← hread]
    exact UInt32.toNat_ofNat_of_lt' hlt

/-! ### Numbers that a stream has written -/

theorem digitValue_digitChar (uppercase : Bool) {d : ℕ} (h : d < 16) :
    digitValue (OStream.digitChar uppercase d) = d := by
  revert d uppercase
  decide

theorem isHexDigit_digitChar (uppercase : Bool) {d : ℕ} (h : d < 16) :
    isHexDigit (OStream.digitChar uppercase d) = true := by
  revert d uppercase
  decide

theorem isDigit_digitChar {d : ℕ} (h : d < 10) : isDigit (OStream.digitChar false d) = true := by
  revert d
  decide

theorem map_digitValue_digitChar {ds : List ℕ} (h : ∀ d ∈ ds, d < 16) :
    (ds.map (OStream.digitChar false)).map digitValue = ds := by
  rw [List.map_map]
  calc ds.map (digitValue ∘ OStream.digitChar false)
      = ds.map id := List.map_congr_left fun d hd => digitValue_digitChar false (h d hd)
    _ = ds := List.map_id ds

theorem spells_decimal (n : ℕ) : Spells false (OStream.decimal n) (OStream.decimal n) := by
  refine .of_digits (by simp [OStream.decimal, digitsOf_ne_nil]) fun ch hch => ?_
  obtain ⟨d, hd, rfl⟩ := List.mem_map.mp hch
  exact isDigit_digitChar (digitsOf_lt (by decide) hd)

theorem spells_hexadecimal (n : ℕ) :
    Spells true (OStream.hexadecimal n) (OStream.hexadecimal n) := by
  refine .of_digits (by simp [OStream.hexadecimal, digitsOf_ne_nil]) fun ch hch => ?_
  obtain ⟨d, hd, rfl⟩ := List.mem_map.mp hch
  exact isHexDigit_digitChar false (digitsOf_lt (by decide) hd)

theorem denoted_decimal (n : ℕ) : denoted false (OStream.decimal n) = n := by
  have hsmall : ∀ d ∈ digitsOf 10 n, d < 16 := fun d hd =>
    (digitsOf_lt (by decide) hd).trans (by decide)
  rw [denoted, OStream.decimal, map_digitValue_digitChar hsmall]
  exact numeral_digitsOf 10 n

theorem denoted_hexadecimal (n : ℕ) : denoted true (OStream.hexadecimal n) = n := by
  have hsmall : ∀ d ∈ digitsOf 16 n, d < 16 := fun d hd => digitsOf_lt (by decide) hd
  rw [denoted, OStream.hexadecimal, map_digitValue_digitChar hsmall]
  exact numeral_digitsOf 16 n

theorem toUnsignedInt_decimal {n : ℕ} (h : n < 2 ^ 32) :
    toUnsignedInt (OStream.decimal n) false = .ok n.toUInt32 := by
  have hread := toUnsignedInt_of_lt (spells_decimal n) (by rw [denoted_decimal]; exact h)
  rwa [denoted_decimal] at hread

theorem toUnsignedInt_hexadecimal {n : ℕ} (h : n < 2 ^ 32) :
    toUnsignedInt (OStream.hexadecimal n) true = .ok n.toUInt32 := by
  have hread := toUnsignedInt_of_lt (spells_hexadecimal n) (by rw [denoted_hexadecimal]; exact h)
  rwa [denoted_hexadecimal] at hread

end Httpxx
