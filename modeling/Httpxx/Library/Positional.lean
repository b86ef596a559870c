import Mathlib.Data.Nat.Digits.Defs
import Mathlib.Data.Nat.Digits.Lemmas
import Mathlib.Tactic.Ring

/-!
Positional numerals, most significant digit first.

`numeral b ds` is the number that the digits `ds` denote in base `b`, and
`digitsOf b n` writes `n` in that base without leading zeros. `readWrapping`
reads a numeral in machine arithmetic, as loops over a fixed-width accumulator
do: every step multiplies and adds modulo `m`, and a step whose result is
smaller than the accumulator it started from is taken for an overflow.

That test is not a test for overflow. `readWrapping_eq` says what it computes:
the numeral modulo `m`, refused exactly when the values of the prefixes modulo
`m` drop somewhere. Below `m` they never drop (`not_drops_of_lt`), so small
numerals are read exactly; above `m` a numeral can come through changed.
-/

namespace Httpxx.Library

/-- The number the digits denote in base `b`, most significant digit first. -/
def numeral (b : ℕ) (ds : List ℕ) : ℕ := ds.foldl (fun v d => v * b + d) 0

/-- The digits of `n` in base `b`, most significant first, at least one. -/
def digitsOf (b n : ℕ) : List ℕ := if n = 0 then [0] else (Nat.digits b n).reverse

/-- Read digits into an accumulator modulo `m`; a step that makes the
accumulator smaller is refused. -/
def readWrapping (m b : ℕ) : ℕ → List ℕ → Option ℕ
  | r, [] => some r
  | r, d :: ds =>
      let r' := (r * b + d) % m
      if r' < r then none else readWrapping m b r' ds

/-- Somewhere along the numeral the value of a prefix, taken modulo `m`, is
smaller than the value of the prefix one digit shorter. -/
def Drops (m b : ℕ) (ds : List ℕ) : Prop :=
  ∃ k < ds.length, numeral b (ds.take (k + 1)) % m < numeral b (ds.take k) % m

instance (m b : ℕ) (ds : List ℕ) : Decidable (Drops m b ds) :=
  inferInstanceAs (Decidable (∃ k < ds.length, _ < _))

@[simp] theorem numeral_nil (b : ℕ) : numeral b [] = 0 := rfl

@[simp] theorem numeral_append_singleton (b : ℕ) (ds : List ℕ) (d : ℕ) :
    numeral b (ds ++ [d]) = numeral b ds * b + d := by
  simp [numeral]

theorem numeral_eq_ofDigits (b : ℕ) (ds : List ℕ) :
    numeral b ds = Nat.ofDigits b ds.reverse := by
  induction ds using List.reverseRecOn with
  | nil => rfl
  | append_singleton ds d ih =>
      rw [numeral_append_singleton, List.reverse_append, List.reverse_singleton,
        List.singleton_append, Nat.ofDigits_cons, ih]
      ring

/-! ### Writing a number and reading it back -/

@[simp] theorem numeral_digitsOf (b n : ℕ) : numeral b (digitsOf b n) = n := by
  unfold digitsOf
  split
  · rename_i h
    simp [h, numeral]
  · rw [numeral_eq_ofDigits, List.reverse_reverse, Nat.ofDigits_digits]

theorem digitsOf_ne_nil (b n : ℕ) : digitsOf b n ≠ [] := by
  unfold digitsOf
  split
  · simp
  · rename_i h
    simpa using Nat.digits_ne_nil_iff_ne_zero.mpr h

theorem digitsOf_lt {b n d : ℕ} (hb : 1 < b) (hd : d ∈ digitsOf b n) : d < b := by
  unfold digitsOf at hd
  split at hd
  · simp at hd
    omega
  · exact Nat.digits_lt_base hb (List.mem_reverse.mp hd)

theorem digitsOf_length_le {b n k : ℕ} (hb : 1 < b) (hk : 0 < k) (hn : n < b ^ k) :
    (digitsOf b n).length ≤ k := by
  unfold digitsOf
  split
  · exact hk
  · rw [List.length_reverse]
    exact (Nat.digits_length_le_iff hb n).mpr hn

theorem digitsOf_of_lt {b n : ℕ} (h : n < b) : digitsOf b n = [n] := by
  unfold digitsOf
  split
  · rename_i h0
    rw [h0]
  · rename_i h0
    rw [Nat.digits_of_lt b n h0 h, List.reverse_singleton]

/-- Below `b ^ 2` the digits, padded to two with zeros, are quotient and remainder. -/
theorem pad_digitsOf_two {b n : ℕ} (hb : 1 < b) (h : n < b * b) :
    List.replicate (2 - (digitsOf b n).length) 0 ++ digitsOf b n = [n / b, n % b] := by
  by_cases hn : n < b
  · rw [digitsOf_of_lt hn, Nat.div_eq_of_lt hn, Nat.mod_eq_of_lt hn]
    rfl
  · have hquot : n / b < b := Nat.div_lt_of_lt_mul h
    have hne : n / b ≠ 0 := (Nat.div_pos (by omega) (by omega)).ne'
    have hdigits : digitsOf b n = [n / b, n % b] := by
      rw [digitsOf, if_neg (by omega), Nat.digits_def' hb (by omega),
        Nat.digits_of_lt b (n / b) hne hquot]
      rfl
    rw [hdigits]
    rfl

/-! ### Reading with a wrapping accumulator -/

theorem readWrapping_append (m b r : ℕ) (ds es : List ℕ) :
    readWrapping m b r (ds ++ es) =
      (readWrapping m b r ds).bind fun r' => readWrapping m b r' es := by
  induction ds generalizing r with
  | nil => rfl
  | cons d ds ih =>
      simp only [List.cons_append, readWrapping]
      split
      · rfl
      · exact ih _

theorem drops_append_singleton (m b : ℕ) (ds : List ℕ) (d : ℕ) :
    Drops m b (ds ++ [d]) ↔
      Drops m b ds ∨ (numeral b ds * b + d) % m < numeral b ds % m := by
  have htake : ∀ k ≤ ds.length, (ds ++ [d]).take k = ds.take k := fun k hk =>
    List.take_append_of_le_length hk
  constructor
  · rintro ⟨k, hk, hlt⟩
    rw [List.length_append, List.length_singleton] at hk
    rcases Nat.lt_or_ge k ds.length with hk' | hk'
    · left
      rw [htake (k + 1) hk', htake k hk'.le] at hlt
      exact ⟨k, hk', hlt⟩
    · right
      obtain rfl : k = ds.length := by omega
      rw [htake _ le_rfl, List.take_length, List.take_of_length_le (by simp),
        numeral_append_singleton] at hlt
      exact hlt
  · rintro (⟨k, hk, hlt⟩ | hlt)
    · refine ⟨k, by rw [List.length_append]; omega, ?_⟩
      rwa [htake (k + 1) hk, htake k hk.le]
    · refine ⟨ds.length, by simp, ?_⟩
      rw [htake _ le_rfl, List.take_length, List.take_of_length_le (by simp),
        numeral_append_singleton]
      exact hlt

/-- **What the wrapping reader computes.** It refuses exactly the numerals whose
prefixes drop modulo `m`, and reads every other one modulo `m`. -/
theorem readWrapping_eq (m b : ℕ) (ds : List ℕ) :
    readWrapping m b 0 ds = if Drops m b ds then none else some (numeral b ds % m) := by
  -- the reader goes from the left, so the last digit is the one that is added
  induction ds using List.reverseRecOn with
  | nil => simp [readWrapping, Drops]
  | append_singleton ds d ih =>
      have hmod : (numeral b ds % m * b + d) % m = (numeral b ds * b + d) % m := by
        rw [Nat.add_mod, Nat.mul_mod, Nat.mod_mod, ← Nat.mul_mod, ← Nat.add_mod]
      rw [readWrapping_append, ih, numeral_append_singleton]
      simp only [drops_append_singleton]
      by_cases hds : Drops m b ds
      · simp [hds]
      · simp only [hds, if_false, false_or, Option.bind_some, readWrapping, hmod]

theorem numeral_take_le (b : ℕ) (hb : 0 < b) (ds : List ℕ) {j k : ℕ} (h : j ≤ k) :
    numeral b (ds.take j) ≤ numeral b (ds.take k) := by
  induction k with
  | zero =>
      obtain rfl : j = 0 := by omega
      exact le_rfl
  | succ k ih =>
      rcases Nat.lt_or_ge k j with hlt | hge
      · obtain rfl : j = k + 1 := by omega
        exact le_rfl
      · refine (ih hge).trans ?_
        rcases Nat.lt_or_ge k ds.length with hk | hk
        · rw [List.take_add_one, List.getElem?_eq_getElem hk, Option.toList_some,
            numeral_append_singleton]
          exact (Nat.le_mul_of_pos_right _ hb).trans (Nat.le_add_right _ _)
        · rw [List.take_of_length_le hk, List.take_of_length_le (by omega)]

theorem not_drops_of_lt {m b : ℕ} (hb : 0 < b) {ds : List ℕ} (h : numeral b ds < m) :
    ¬ Drops m b ds := by
  rintro ⟨k, hk, hlt⟩
  have hstep := numeral_take_le b hb ds (Nat.le_add_right k 1)
  have hlast := numeral_take_le b hb ds (show k + 1 ≤ ds.length from hk)
  rw [List.take_length] at hlast
  rw [Nat.mod_eq_of_lt (by omega), Nat.mod_eq_of_lt (by omega)] at hlt
  omega

theorem readWrapping_of_lt {m b : ℕ} (hb : 0 < b) {ds : List ℕ} (h : numeral b ds < m) :
    readWrapping m b 0 ds = some (numeral b ds) := by
  rw [readWrapping_eq, if_neg (not_drops_of_lt hb h), Nat.mod_eq_of_lt h]

end Httpxx.Library
