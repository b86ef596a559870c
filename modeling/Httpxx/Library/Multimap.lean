import Mathlib.Data.List.Sort
import Mathlib.Order.RelClasses

/-!
Ordered multimaps over a comparator. The entries are kept sorted by key, and a
new entry goes after the entries whose keys compare equal to its own, so equal
keys stay in the order in which they were added.

The comparator is any strict weak order, given as a boolean test, as a C++
comparator is. Two keys compare equal when neither is below the other; this is
coarser than equality of keys. A lookup reads the contiguous range between the
lower and the upper bound of a key, and `equalRange_eq_filter` says that on
sorted entries this range is everything that compares equal, in insertion order.
-/

namespace Httpxx.Library

def equivalent {κ : Type} (lt : κ → κ → Bool) (a b : κ) : Bool := !lt a b && !lt b a

/-- Entries sorted by key under the comparator `lt`. -/
@[ext] structure Multimap (κ ν : Type) (lt : κ → κ → Bool) where
  /-- The entries, in iteration order. -/
  entries : List (κ × ν)
  /-- No entry comes after one with a larger key. -/
  sorted : entries.Pairwise fun a b => lt b.1 a.1 = false
  deriving DecidableEq

section Image

variable {κ ρ : Type} {lt : κ → κ → Bool} [LinearOrder ρ] {f : κ → ρ}

theorem isStrictWeakOrder_of_lt_iff (h : ∀ a b, lt a b = true ↔ f a < f b) :
    IsStrictWeakOrder κ fun a b => lt a b = true where
  irrefl a := by
    rw [h]
    exact lt_irrefl _
  trans a b c := by
    simp only [h]
    exact lt_trans
  incomp_trans a b c := by
    simp only [h, not_lt]
    rintro ⟨hba, hab⟩ ⟨hcb, hbc⟩
    exact ⟨hcb.trans hba, hab.trans hbc⟩

theorem equivalent_iff_of_lt_iff (h : ∀ a b, lt a b = true ↔ f a < f b) (a b : κ) :
    equivalent lt a b = true ↔ f a = f b := by
  rw [equivalent, Bool.and_eq_true, Bool.not_eq_true', Bool.not_eq_true', ← Bool.not_eq_true,
    ← Bool.not_eq_true, h, h, not_lt, not_lt]
  exact ⟨fun h => le_antisymm h.2 h.1, fun h => ⟨h.ge, h.le⟩⟩

end Image

section Order

variable {κ : Type} {lt : κ → κ → Bool} [IsStrictWeakOrder κ fun a b => lt a b = true]

theorem comparator_irrefl (a : κ) : lt a a = false := by
  have h := irrefl_of (fun a b => lt a b = true) a
  simpa using h

theorem comparator_trans {a b c : κ} (hab : lt a b = true) (hbc : lt b c = true) : lt a c = true :=
  trans_of (fun a b => lt a b = true) hab hbc

theorem comparator_asymm {a b : κ} (hab : lt a b = true) : lt b a = false := by
  by_contra hba
  have := comparator_trans hab (by simpa using hba)
  simp [comparator_irrefl] at this

/-- A strict weak order is negatively transitive. -/
theorem comparator_not_trans {a b c : κ} (hab : lt a b = false) (hbc : lt b c = false) :
    lt a c = false := by
  by_contra hac
  have hac : lt a c = true := by simpa using hac
  have hba : lt b a = false := by
    by_contra h
    have := comparator_trans (by simpa using h) hac
    simp_all
  have hcb : lt c b = false := by
    by_contra h
    have := comparator_trans hac (by simpa using h)
    simp_all
  have hincomp : ¬ lt a c = true ∧ ¬ lt c a = true :=
    @IsStrictWeakOrder.incomp_trans κ (fun a b => lt a b = true) _ a b c
      (by simp [hab, hba]) (by simp [hbc, hcb])
  exact hincomp.1 hac

omit [IsStrictWeakOrder κ fun a b => lt a b = true] in
theorem equivalent_comm (a b : κ) : equivalent lt a b = equivalent lt b a := by
  simp [equivalent, Bool.and_comm]

end Order

namespace Multimap

variable {κ ν : Type} {lt : κ → κ → Bool}

def empty : Multimap κ ν lt := ⟨[], .nil⟩

instance : EmptyCollection (Multimap κ ν lt) := ⟨empty⟩

def size (m : Multimap κ ν lt) : ℕ := m.entries.length

/-- The entries between the lower and the upper bound of a key. -/
def equalRange (m : Multimap κ ν lt) (q : κ) : List (κ × ν) :=
  (m.entries.dropWhile fun e => lt e.1 q).takeWhile fun e => !lt q e.1

@[simp] theorem entries_empty : (∅ : Multimap κ ν lt).entries = [] := rfl

@[simp] theorem size_empty : (∅ : Multimap κ ν lt).size = 0 := rfl

def filter (m : Multimap κ ν lt) (p : κ × ν → Bool) : Multimap κ ν lt where
  entries := m.entries.filter p
  sorted := m.sorted.filter p

@[simp] theorem entries_filter (m : Multimap κ ν lt) (p : κ × ν → Bool) :
    (m.filter p).entries = m.entries.filter p := rfl

def erase (m : Multimap κ ν lt) (q : κ) : Multimap κ ν lt where
  entries := (m.entries.takeWhile fun e => lt e.1 q) ++
    (m.entries.dropWhile fun e => lt e.1 q).dropWhile fun e => !lt q e.1
  sorted := by
    have h : ((m.entries.dropWhile fun e => lt e.1 q).dropWhile fun e => !lt q e.1).Sublist
        (m.entries.dropWhile fun e => lt e.1 q) := List.dropWhile_sublist _
    have h := h.append_left (m.entries.takeWhile fun e => lt e.1 q)
    rw [List.takeWhile_append_dropWhile] at h
    exact m.sorted.sublist h

def mapValues {μ : Type} (m : Multimap κ ν lt) (g : ν → μ) : Multimap κ μ lt where
  entries := m.entries.map (Prod.map id g)
  sorted := List.pairwise_map.mpr m.sorted

@[simp] theorem entries_mapValues {μ : Type} (m : Multimap κ ν lt) (g : ν → μ) :
    (m.mapValues g).entries = m.entries.map (Prod.map id g) := rfl

/-- What is kept for its key is kept with any value. -/
theorem filter_mapValues {μ : Type} (m : Multimap κ ν lt) (g : ν → μ) (p : κ → Bool) :
    (m.mapValues g).filter (fun e => p e.1) = (m.filter fun e => p e.1).mapValues g := by
  ext1
  rw [entries_filter, entries_mapValues, entries_mapValues, entries_filter, List.filter_map]
  rfl

variable [IsStrictWeakOrder κ fun a b => lt a b = true]

theorem pairwise_orderedInsert (e : κ × ν) {l : List (κ × ν)}
    (h : l.Pairwise fun a b => lt b.1 a.1 = false) :
    (l.orderedInsert (fun a b => lt a.1 b.1 = true) e).Pairwise
      fun a b => lt b.1 a.1 = false := by
  induction l with
  | nil => simp
  | cons x l ih =>
      obtain ⟨hx, hl⟩ := List.pairwise_cons.mp h
      rw [List.orderedInsert_cons]
      by_cases hlt : lt e.1 x.1 = true
      · rw [if_pos hlt]
        refine List.pairwise_cons.mpr ⟨?_, h⟩
        intro y hy
        rcases List.mem_cons.mp hy with rfl | hy
        · exact comparator_asymm hlt
        · exact comparator_not_trans (hx y hy) (comparator_asymm hlt)
      · rw [if_neg hlt]
        refine List.pairwise_cons.mpr ⟨?_, ih hl⟩
        intro y hy
        rcases (List.mem_orderedInsert _).mp hy with rfl | hy
        · simpa using hlt
        · exact hx y hy

/-- Add an entry after those whose keys are not above its own. -/
def insert (m : Multimap κ ν lt) (e : κ × ν) : Multimap κ ν lt where
  entries := m.entries.orderedInsert (fun a b => lt a.1 b.1 = true) e
  sorted := pairwise_orderedInsert e m.sorted

def insertAll (m : Multimap κ ν lt) (es : List (κ × ν)) : Multimap κ ν lt :=
  es.foldl insert m

@[simp] theorem insertAll_nil (m : Multimap κ ν lt) : m.insertAll [] = m := rfl

@[simp] theorem insertAll_cons (m : Multimap κ ν lt) (e : κ × ν) (es : List (κ × ν)) :
    m.insertAll (e :: es) = (m.insert e).insertAll es := rfl

@[simp] theorem insertAll_append (m : Multimap κ ν lt) (es fs : List (κ × ν)) :
    m.insertAll (es ++ fs) = (m.insertAll es).insertAll fs :=
  List.foldl_append

@[simp] theorem mem_insert {m : Multimap κ ν lt} {e x : κ × ν} :
    x ∈ (m.insert e).entries ↔ x = e ∨ x ∈ m.entries :=
  List.mem_orderedInsert _

@[simp] theorem mem_insertAll {m : Multimap κ ν lt} {es : List (κ × ν)} {x : κ × ν} :
    x ∈ (m.insertAll es).entries ↔ x ∈ es ∨ x ∈ m.entries := by
  induction es generalizing m with
  | nil => simp
  | cons e es ih =>
      rw [insertAll_cons, ih, mem_insert, List.mem_cons]
      tauto

theorem insert_mapValues {μ : Type} (m : Multimap κ ν lt) (g : ν → μ) (e : κ × ν) :
    (m.mapValues g).insert (e.1, g e.2) = (m.insert e).mapValues g :=
  Multimap.ext (List.map_orderedInsert _ _ (Prod.map id g) m.entries e (fun _ _ => Iff.rfl)
    fun _ _ => Iff.rfl).symm

@[simp] theorem size_insert (m : Multimap κ ν lt) (e : κ × ν) :
    (m.insert e).size = m.size + 1 :=
  List.orderedInsert_length _ _ _

@[simp] theorem size_insertAll (m : Multimap κ ν lt) (es : List (κ × ν)) :
    (m.insertAll es).size = m.size + es.length := by
  induction es generalizing m with
  | nil => rfl
  | cons e es ih =>
      rw [insertAll_cons, ih, size_insert, List.length_cons]
      omega

/-! ### Lookups on sorted entries -/

theorem range_eq_filter {l : List (κ × ν)} (h : l.Pairwise fun a b => lt b.1 a.1 = false)
    (q : κ) :
    (l.dropWhile fun e => lt e.1 q).takeWhile (fun e => !lt q e.1) =
      l.filter fun e => equivalent lt e.1 q := by
  induction l with
  | nil => rfl
  | cons x l ih =>
      obtain ⟨hx, hl⟩ := List.pairwise_cons.mp h
      cases hxq : lt x.1 q with
      | true => simp [hxq, equivalent, ih hl]
      | false =>
          cases hqx : lt q x.1 with
          | true =>
              -- the first entry is above the key, and so are all after it
              have habove : ∀ y ∈ l, lt q y.1 = true := by
                intro y hy
                by_contra hqy
                have := comparator_not_trans (by simpa using hqy) (hx y hy)
                simp_all
              have hnil : l.filter (fun e => equivalent lt e.1 q) = [] :=
                List.filter_eq_nil_iff.mpr fun y hy => by simp [equivalent, habove y hy]
              have hxe : equivalent lt x.1 q = false := by simp [equivalent, hqx]
              simp [hxq, hqx, hxe, hnil]
          | false =>
              -- the range begins here: nothing after it is below the key
              have hdrop : l.dropWhile (fun e => lt e.1 q) = l := by
                cases l with
                | nil => rfl
                | cons y l =>
                    have := comparator_not_trans (hx y (by simp)) hxq
                    simp [this]
              have hrest := ih hl
              rw [hdrop] at hrest
              simp [hxq, hqx, equivalent, hrest]

theorem outside_eq_filter {l : List (κ × ν)}
    (h : l.Pairwise fun a b => lt b.1 a.1 = false) (q : κ) :
    (l.takeWhile fun e => lt e.1 q) ++
        (l.dropWhile fun e => lt e.1 q).dropWhile (fun e => !lt q e.1) =
      l.filter fun e => !equivalent lt e.1 q := by
  induction l with
  | nil => rfl
  | cons x l ih =>
      obtain ⟨hx, hl⟩ := List.pairwise_cons.mp h
      cases hxq : lt x.1 q with
      | true => simp [hxq, equivalent, ih hl]
      | false =>
          have hnone : ∀ y ∈ l, lt y.1 q = false := fun y hy => comparator_not_trans (hx y hy) hxq
          have htake : l.takeWhile (fun e => lt e.1 q) = [] := by
            cases l with
            | nil => rfl
            | cons y l => simp [hnone y (by simp)]
          have hdrop : l.dropWhile (fun e => lt e.1 q) = l := by
            cases l with
            | nil => rfl
            | cons y l => simp [hnone y (by simp)]
          cases hqx : lt q x.1 with
          | true =>
              have habove : ∀ y ∈ l, equivalent lt y.1 q = false := by
                intro y hy
                have hqy : lt q y.1 = true := by
                  by_contra hqy
                  have := comparator_not_trans (by simpa using hqy) (hx y hy)
                  simp_all
                simp [equivalent, hqy]
              have hall : l.filter (fun e => !equivalent lt e.1 q) = l :=
                List.filter_eq_self.mpr fun y hy => by simp [habove y hy]
              simpa [hxq, hqx, equivalent] using hall.symm
          | false =>
              have hrest := ih hl
              rw [htake, hdrop, List.nil_append] at hrest
              simp [hxq, hqx, equivalent, hrest]

theorem equalRange_eq_filter (m : Multimap κ ν lt) (q : κ) :
    m.equalRange q = m.entries.filter fun e => equivalent lt e.1 q :=
  range_eq_filter m.sorted q

theorem erase_eq_filter (m : Multimap κ ν lt) (q : κ) :
    m.erase q = m.filter fun e => !equivalent lt e.1 q :=
  Multimap.ext (outside_eq_filter m.sorted q)

theorem orderedInsert_split (e : κ × ν) {l : List (κ × ν)}
    (h : l.Pairwise fun a b => lt b.1 a.1 = false) :
    ∃ x y, l = x ++ y ∧
      l.orderedInsert (fun a b => lt a.1 b.1 = true) e = x ++ e :: y ∧
      (∀ d ∈ x, lt e.1 d.1 = false) ∧ (∀ d ∈ y, lt e.1 d.1 = true) := by
  induction l with
  | nil => exact ⟨[], [], rfl, rfl, by simp, by simp⟩
  | cons c l ih =>
      obtain ⟨hc, hl⟩ := List.pairwise_cons.mp h
      rw [List.orderedInsert_cons]
      by_cases hlt : lt e.1 c.1 = true
      · refine ⟨[], c :: l, rfl, by rw [if_pos hlt]; rfl, by simp, ?_⟩
        intro d hd
        rcases List.mem_cons.mp hd with rfl | hd
        · exact hlt
        · by_contra hed
          have := comparator_not_trans (by simpa using hed) (hc d hd)
          simp_all
      · obtain ⟨x, y, hsplit, hins, hx, hy⟩ := ih hl
        refine ⟨c :: x, y, by rw [hsplit]; rfl, by rw [if_neg hlt, hins]; rfl, ?_, hy⟩
        intro d hd
        rcases List.mem_cons.mp hd with rfl | hd
        · simpa using hlt
        · exact hx d hd

/-- Insertion splits the entries into those not above the new one and those
above it. -/
theorem entries_insert (m : Multimap κ ν lt) (e : κ × ν) :
    ∃ l r, m.entries = l ++ r ∧ (m.insert e).entries = l ++ e :: r ∧
      (∀ x ∈ l, lt e.1 x.1 = false) ∧ (∀ x ∈ r, lt e.1 x.1 = true) :=
  orderedInsert_split e m.sorted

/-- A new entry is found last among those that compare equal to it, and changes
no other lookup. -/
theorem equalRange_insert (m : Multimap κ ν lt) (e : κ × ν) (q : κ) :
    (m.insert e).equalRange q =
      m.equalRange q ++ if equivalent lt e.1 q then [e] else [] := by
  obtain ⟨l, r, hm, hins, -, hr⟩ := entries_insert m e
  rw [equalRange_eq_filter, equalRange_eq_filter, hm, hins]
  cases heq : equivalent lt e.1 q with
  | false => simp [heq]
  | true =>
      have habove : ∀ y ∈ r, ¬ equivalent lt y.1 q = true := by
        intro y hy hyq
        simp only [equivalent, Bool.and_eq_true, Bool.not_eq_true'] at heq hyq
        have := comparator_not_trans heq.1 hyq.2
        simp [hr y hy] at this
      simp [heq, List.filter_eq_nil_iff.mpr habove]

theorem equalRange_insertAll (m : Multimap κ ν lt) (es : List (κ × ν)) (q : κ) :
    (m.insertAll es).equalRange q =
      m.equalRange q ++ es.filter fun e => equivalent lt e.1 q := by
  induction es generalizing m with
  | nil => simp
  | cons e es ih =>
      rw [insertAll_cons, ih, equalRange_insert]
      cases heq : equivalent lt e.1 q <;> simp [heq]

theorem insert_of_forall_not_lt (m : Multimap κ ν lt) (e : κ × ν)
    (h : ∀ x ∈ m.entries, lt e.1 x.1 = false) :
    (m.insert e).entries = m.entries ++ [e] := by
  obtain ⟨l, r, hm, hins, -, hr⟩ := entries_insert m e
  obtain rfl : r = [] := by
    cases r with
    | nil => rfl
    | cons x r =>
        have h₁ := h x (by rw [hm]; simp)
        have h₂ := hr x (by simp)
        simp [h₁] at h₂
  rw [hins, hm, List.append_nil]

/-- Adding entries that are already in order after the present ones appends
them. -/
theorem entries_insertAll_of_sorted (m : Multimap κ ν lt) (es : List (κ × ν))
    (h : (m.entries ++ es).Pairwise fun a b => lt b.1 a.1 = false) :
    (m.insertAll es).entries = m.entries ++ es := by
  induction es generalizing m with
  | nil => simp
  | cons e es ih =>
      have hlast : (m.insert e).entries = m.entries ++ [e] :=
        insert_of_forall_not_lt m e fun x hx =>
          (List.pairwise_append.mp h).2.2 x hx e (by simp)
      rw [insertAll_cons, ih _ (by rw [hlast]; simpa using h), hlast, List.append_assoc]
      rfl

omit [IsStrictWeakOrder κ fun a b => lt a b = true] in
/-- The place of a new entry is determined by what is above it. -/
theorem orderedInsert_append {e : κ × ν} {x y : List (κ × ν)}
    (hx : ∀ d ∈ x, lt e.1 d.1 = false) (hy : ∀ d ∈ y, lt e.1 d.1 = true) :
    (x ++ y).orderedInsert (fun a b => lt a.1 b.1 = true) e = x ++ e :: y := by
  induction x with
  | nil =>
      cases y with
      | nil => rfl
      | cons d y => rw [List.nil_append, List.orderedInsert_cons, if_pos (hy d (by simp))]; rfl
  | cons d x ih =>
      rw [List.forall_mem_cons] at hx
      rw [List.cons_append, List.orderedInsert_cons, if_neg (by simp [hx.1]), ih hx.2]
      rfl

/-- Entries can be thrown away before a new one is added or after. -/
theorem filter_insert (m : Multimap κ ν lt) (e : κ × ν) (p : κ × ν → Bool) :
    (m.insert e).filter p = if p e then (m.filter p).insert e else m.filter p := by
  obtain ⟨l, r, hm, hins, hl, hr⟩ := entries_insert m e
  ext1
  cases hp : p e with
  | false => simp [hm, hins, hp]
  | true =>
      have hplace := orderedInsert_append (x := l.filter p) (y := r.filter p)
        (fun d hd => hl d (List.mem_of_mem_filter hd)) fun d hd => hr d (List.mem_of_mem_filter hd)
      rw [if_pos rfl, entries_filter, hins, List.filter_append, List.filter_cons_of_pos hp,
        ← hplace, ← List.filter_append, ← hm]
      rfl

theorem filter_insertAll (m : Multimap κ ν lt) (es : List (κ × ν)) (p : κ × ν → Bool) :
    (m.insertAll es).filter p = (m.filter p).insertAll (es.filter p) := by
  induction es generalizing m with
  | nil => rfl
  | cons e es ih =>
      rw [insertAll_cons, ih, filter_insert]
      cases hp : p e with
      | false => rw [List.filter_cons_of_neg (by simp [hp])]; rfl
      | true => rw [List.filter_cons_of_pos hp]; rfl

/-- A multimap holds what it held and what was added to it. -/
theorem perm_insertAll (m : Multimap κ ν lt) (es : List (κ × ν)) :
    (m.insertAll es).entries.Perm (es ++ m.entries) := by
  induction es generalizing m with
  | nil => exact .rfl
  | cons e es ih =>
      have hinsert : (m.insert e).entries.Perm (e :: m.entries) := List.perm_orderedInsert _ _ _
      exact (ih (m.insert e)).trans ((hinsert.append_left es).trans List.perm_middle)

/-- What is left of added entries after a key is erased is what adding the others
gives. -/
theorem erase_insertAll (es : List (κ × ν)) (q : κ) :
    ((∅ : Multimap κ ν lt).insertAll es).erase q =
      (∅ : Multimap κ ν lt).insertAll (es.filter fun e => !equivalent lt e.1 q) := by
  rw [erase_eq_filter, filter_insertAll]
  rfl

/-- A lookup in added entries finds those of them that compare equal, in the order in
which they were added. -/
theorem equalRange_insertAll_empty (es : List (κ × ν)) (q : κ) :
    ((∅ : Multimap κ ν lt).insertAll es).equalRange q =
      es.filter fun e => equivalent lt e.1 q := by
  rw [equalRange_insertAll]
  rfl

@[simp] theorem insertAll_entries (m : Multimap κ ν lt) :
    (∅ : Multimap κ ν lt).insertAll m.entries = m :=
  Multimap.ext (entries_insertAll_of_sorted ∅ m.entries (by simpa using m.sorted))

end Multimap

end Httpxx.Library
