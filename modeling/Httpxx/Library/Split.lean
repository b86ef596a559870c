import Mathlib.Data.List.Basic
import Mathlib.Data.List.TakeWhile

/-!
Splitting a list at an element, found by a property or as a separator. `cut` splits
it once, at the first separator. `fields` are the pieces between all separators; what
follows the last separator counts as a piece only when it is not empty, as in a text
whose lines each end with the separator. A loop that reads one field after another
meets exactly the cases of `fields_of_not_mem` and `fields_append_cons`.
-/

namespace Httpxx.Library

variable {α : Type}

theorem exists_first {P : α → Prop} [DecidablePred P] {l : List α} (h : ∃ a ∈ l, P a) :
    ∃ before a after, l = before ++ a :: after ∧ P a ∧ ∀ b ∈ before, ¬ P b := by
  obtain ⟨a, ha, hP⟩ := h
  obtain ⟨first, hfirst⟩ := Option.isSome_iff_exists.mp
    (List.find?_isSome (p := fun a => decide (P a)).mpr ⟨a, ha, decide_eq_true hP⟩)
  obtain ⟨hP, before, after, rfl, hbefore⟩ := List.find?_eq_some_iff_append.mp hfirst
  exact ⟨before, first, after, rfl, of_decide_eq_true hP, by simpa using hbefore⟩

/-- Joining puts the separator before every list but the first. -/
theorem intercalate_cons_eq_flatMap (a : α) (l : List α) (ls : List (List α)) :
    [a].intercalate (l :: ls) = l ++ ls.flatMap (a :: ·) := by
  induction ls generalizing l with
  | nil => simp
  | cons l' ls ih =>
      rw [List.intercalate_cons_cons, ih, List.flatMap_cons, List.append_assoc]
      rfl

variable [DecidableEq α]

/-- What stands before the first separator and what stands after it; without a
separator, the whole list and nothing. -/
def cut (a : α) (l : List α) : List α × List α :=
  (l.takeWhile (· != a), (l.dropWhile (· != a)).drop 1)

theorem bne_of_not_mem {a : α} {l : List α} (h : a ∉ l) : ∀ b ∈ l, (b != a) = true :=
  fun _ hb => bne_iff_ne.mpr fun heq => h (heq ▸ hb)

theorem cut_of_not_mem {a : α} {l : List α} (h : a ∉ l) : cut a l = (l, []) := by
  have hne := bne_of_not_mem h
  have htake : l.takeWhile (· != a) = l := List.takeWhile_eq_self_iff.mpr hne
  have hdrop : l.dropWhile (· != a) = [] := List.dropWhile_eq_nil_iff.mpr hne
  rw [cut, htake, hdrop, List.drop_nil]

theorem cut_append_cons {a : α} {x : List α} (h : a ∉ x) (y : List α) :
    cut a (x ++ a :: y) = (x, y) := by
  have hne := bne_of_not_mem h
  rw [cut, List.takeWhile_append_of_pos hne, List.dropWhile_append_of_pos hne]
  simp

theorem not_mem_or_exists_first (a : α) (l : List α) :
    a ∉ l ∨ ∃ x y, a ∉ x ∧ l = x ++ a :: y := by
  by_cases h : a ∈ l
  · obtain ⟨x, y, hl, hx⟩ := List.eq_append_cons_of_mem h
    exact .inr ⟨x, y, hx, hl⟩
  · exact .inl h

/-- The pieces of a list between its separators, without a last piece that is
empty. -/
def fields (a : α) (l : List α) : List (List α) :=
  if (l.splitOn a).getLast? = some [] then (l.splitOn a).dropLast else l.splitOn a

@[simp] theorem fields_nil (a : α) : fields a [] = [] := by
  simp [fields, List.splitOn_nil]

theorem fields_of_not_mem {a : α} {l : List α} (h : a ∉ l) (hne : l ≠ []) :
    fields a l = [l] := by
  rw [fields, List.splitOn_eq_singleton h]
  simp [hne]

theorem fields_append_cons {a : α} {x : List α} (h : a ∉ x) (l : List α) :
    fields a (x ++ a :: l) = x :: fields a l := by
  obtain ⟨y, ys, hsplit⟩ := List.exists_cons_of_ne_nil (List.splitOn_ne_nil a l)
  rw [fields, fields, List.splitOn_append_cons_self_of_not_mem h, hsplit,
    List.getLast?_cons_cons, List.dropLast_cons_cons]
  split <;> rfl

/-- Fields joined by the separator are found again, when none of them is empty. -/
theorem fields_intercalate {a : α} {ls : List (List α)} (h : ∀ l ∈ ls, a ∉ l)
    (hne : ∀ l ∈ ls, l ≠ []) : fields a ([a].intercalate ls) = ls := by
  cases ls with
  | nil => exact fields_nil a
  | cons l ls =>
      have hlast : (l :: ls).getLast? ≠ some [] := fun hnil =>
        hne [] (List.mem_of_getLast? hnil) rfl
      rw [fields, List.splitOn_intercalate a h (List.cons_ne_nil l ls), if_neg hlast]

end Httpxx.Library
