import Mathlib.Tactic.Common
import Mathlib.Data.List.Basic

/-!
A memory of cells with natural numbers as addresses. `write` puts a list into
consecutive cells and `read` takes one out. What a program does to a memory is said
with two lemmas: the cells that were written hold the list (`read_write`), and every
other cell is as it was (`write_of_lt`, `write_of_ge`).
-/

namespace Httpxx.Library

/-- The contents of every cell. -/
def Memory (α : Type) := ℕ → α

namespace Memory

variable {α : Type}

/-- Put a list into the cells from an address on. -/
def write (m : Memory α) (a : ℕ) (l : List α) : Memory α :=
  fun x => if a ≤ x then l[x - a]?.getD (m x) else m x

def read (m : Memory α) (a n : ℕ) : List α := List.ofFn fun i : Fin n => m (a + i)

@[ext] theorem ext {m m' : Memory α} (h : ∀ x, m x = m' x) : m = m' := funext h

@[simp] theorem length_read (m : Memory α) (a n : ℕ) : (m.read a n).length = n := List.length_ofFn

theorem write_of_lt (m : Memory α) {a x : ℕ} (l : List α) (h : x < a) : m.write a l x = m x := by
  rw [write, if_neg (by omega)]

theorem write_of_ge (m : Memory α) {a x : ℕ} {l : List α} (h : a + l.length ≤ x) :
    m.write a l x = m x := by
  have hnone : l[x - a]? = none := List.getElem?_eq_none (by omega)
  rw [write, hnone]
  split <;> rfl

theorem write_add (m : Memory α) (a : ℕ) {l : List α} {i : ℕ} (h : i < l.length) :
    m.write a l (a + i) = l[i] := by
  have hi : a + i - a = i := by omega
  rw [write, if_pos (by omega), hi, List.getElem?_eq_getElem h]
  rfl

theorem getElem_read (m : Memory α) (a n : ℕ) {i : ℕ} (h : i < (m.read a n).length) :
    (m.read a n)[i] = m (a + i) :=
  List.getElem_ofFn h

theorem read_write (m : Memory α) (a : ℕ) (l : List α) : (m.write a l).read a l.length = l := by
  apply List.ext_getElem
  · exact length_read _ _ _
  · intro i _ hi
    rw [getElem_read]
    exact m.write_add a hi

theorem read_congr {m m' : Memory α} {a n : ℕ} (h : ∀ i < n, m (a + i) = m' (a + i)) :
    m.read a n = m'.read a n := by
  apply List.ext_getElem
  · rw [length_read, length_read]
  · intro i hi _
    rw [getElem_read, getElem_read]
    rw [length_read] at hi
    exact h i hi

theorem read_write_of_ge (m : Memory α) {a b : ℕ} {l : List α} (h : a + l.length ≤ b) (n : ℕ) :
    (m.write a l).read b n = m.read b n := by
  apply read_congr
  intro i _
  exact m.write_of_ge (by omega)

theorem read_add (m : Memory α) (a n k : ℕ) :
    m.read a (n + k) = m.read a n ++ m.read (a + n) k := by
  apply List.ext_getElem
  · rw [List.length_append, length_read, length_read, length_read]
  · intro i _ _
    rw [List.getElem_append, getElem_read]
    split
    · rw [getElem_read]
    · rename_i hn
      rw [length_read] at hn
      have haddress : a + n + (i - n) = a + i := by omega
      simp only [getElem_read, length_read, haddress]

/-- A list written right before other cells is read together with them. -/
theorem read_write_append (m : Memory α) {a b : ℕ} {l : List α} (h : a + l.length = b) (n : ℕ) :
    (m.write a l).read a (l.length + n) = l ++ m.read b n := by
  rw [read_add, read_write, h, read_write_of_ge m (by omega)]

end Memory

end Httpxx.Library
