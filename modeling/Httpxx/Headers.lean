import Mathlib.Data.List.Lex
import Mathlib.Data.List.TakeWhile
import Httpxx.Library.Multimap
import Httpxx.OStream

/-!
The header container of `include/httpxx/headers.h` and its comparator,
`src/common.cpp`. `Headers` is a `std::multimap` from names to values ordered by
`CaseInsensitiveComparator`, which compares with `strcasecmp` on C strings: up
to the first NUL, and byte by byte after `tolower`.
-/

namespace Httpxx

open Library

/-- What `c_str()` hands to a C function: the bytes before the first NUL. -/
def cStr (s : Bytes) : Bytes := s.takeWhile (· ≠ 0)

/-- `tolower` of the C locale. -/
def tolower (ch : Byte) : Byte := if isUpAlpha ch then ch + 0x20 else ch

/-- `strcasecmp` on C strings, whose end compares as a NUL byte. -/
def strcasecmp : Bytes → Bytes → ℤ
  | [], [] => 0
  | [], b :: _ => 0 - (tolower b).toNat
  | a :: _, [] => (tolower a).toNat
  | a :: s, b :: t =>
      if tolower a = tolower b then strcasecmp s t
      else (tolower a).toNat - (tolower b).toNat

def CaseInsensitiveComparator (lhs rhs : Bytes) : Bool :=
  decide (strcasecmp (cStr lhs) (cStr rhs) < 0)

/-- What the comparator sees of a string. -/
def foldedCase (s : Bytes) : List ℕ := (cStr s).map fun ch => (tolower ch).toNat

theorem tolower_toNat_pos {ch : Byte} (h : ch ≠ 0) : 0 < (tolower ch).toNat := by
  have hne : tolower ch ≠ 0 := by
    unfold tolower isUpAlpha
    grind
  exact Nat.pos_of_ne_zero fun h0 => hne (UInt8.toNat_inj.mp h0)

theorem strcasecmp_neg_iff {s t : Bytes} (hs : ∀ ch ∈ s, ch ≠ 0) (ht : ∀ ch ∈ t, ch ≠ 0) :
    strcasecmp s t < 0 ↔
      s.map (fun ch => (tolower ch).toNat) < t.map (fun ch => (tolower ch).toNat) := by
  induction s generalizing t with
  | nil =>
      cases t with
      | nil => simp [strcasecmp]
      | cons b t =>
          have := tolower_toNat_pos (ht b (by simp))
          simp only [strcasecmp, List.map_nil, List.map_cons, List.nil_lt_cons, iff_true]
          omega
  | cons a s ih =>
      cases t with
      | nil =>
          simp only [strcasecmp, List.map_nil, List.not_lt_nil, iff_false]
          omega
      | cons b t =>
          have hrest := ih (fun ch h => hs ch (List.mem_cons_of_mem _ h))
            (t := t) fun ch h => ht ch (List.mem_cons_of_mem _ h)
          simp only [strcasecmp, List.map_cons, List.cons_lt_cons_iff, ← UInt8.toNat_inj]
          split
          · rename_i heq
            simp [heq, hrest]
          · rename_i hne
            simp only [hne, false_and, or_false]
            omega

theorem ne_zero_of_mem_cStr {s : Bytes} {ch : Byte} (h : ch ∈ cStr s) : ch ≠ 0 := by
  simpa using List.mem_takeWhile_imp h

theorem caseInsensitiveComparator_iff (a b : Bytes) :
    CaseInsensitiveComparator a b = true ↔ foldedCase a < foldedCase b := by
  rw [CaseInsensitiveComparator, decide_eq_true_eq]
  exact strcasecmp_neg_iff (fun _ => ne_zero_of_mem_cStr) fun _ => ne_zero_of_mem_cStr

instance : IsStrictWeakOrder Bytes fun a b => CaseInsensitiveComparator a b = true :=
  isStrictWeakOrder_of_lt_iff caseInsensitiveComparator_iff

def sameName (a b : Bytes) : Bool := equivalent CaseInsensitiveComparator a b

theorem sameName_iff (a b : Bytes) : sameName a b = true ↔ foldedCase a = foldedCase b :=
  equivalent_iff_of_lt_iff caseInsensitiveComparator_iff a b

def EqIgnoringCase (a b : Bytes) : Prop := a.map tolower = b.map tolower

instance (a b : Bytes) : Decidable (EqIgnoringCase a b) :=
  inferInstanceAs (Decidable (a.map tolower = b.map tolower))

/-- A string that a C function sees to its end. -/
def NulFree (s : Bytes) : Prop := ∀ ch ∈ s, ch ≠ 0

instance : DecidablePred NulFree := fun s => inferInstanceAs (Decidable (∀ ch ∈ s, ch ≠ 0))

theorem NulFree.cStr_eq {s : Bytes} (h : NulFree s) : cStr s = s :=
  List.takeWhile_eq_self_iff.mpr fun ch hch => decide_eq_true (h ch hch)

/-- On strings without NUL the comparator ignores letter case and nothing else. -/
theorem NulFree.sameName_iff {a b : Bytes} (ha : NulFree a) (hb : NulFree b) :
    sameName a b = true ↔ EqIgnoringCase a b := by
  have hfold : ∀ s : Bytes, (s.map fun ch => (tolower ch).toNat) =
      (s.map tolower).map UInt8.toNat := fun s => by rw [List.map_map]; rfl
  rw [Httpxx.sameName_iff, foldedCase, foldedCase, ha.cStr_eq, hb.cStr_eq, hfold, hfold]
  exact (List.map_injective_iff.mpr fun x y => UInt8.toNat_inj.mp).eq_iff

theorem nulFree_of_isToken {s : Bytes} (h : ∀ ch ∈ s, isToken ch = true) : NulFree s := by
  rintro ch hch rfl
  exact absurd (h 0 hch) (by decide)

theorem sameName_iff_eqIgnoringCase {a b : Bytes} (ha : ∀ ch ∈ a, isToken ch = true)
    (hb : ∀ ch ∈ b, isToken ch = true) : sameName a b = true ↔ EqIgnoringCase a b :=
  (nulFree_of_isToken ha).sameName_iff (nulFree_of_isToken hb)

theorem isToken_tolower (ch : Byte) : isToken (tolower ch) = isToken ch := by
  have hall : ∀ n : Fin 256, isToken (tolower (UInt8.ofFin n)) = isToken (UInt8.ofFin n) := by
    decide +kernel
  simpa using hall ch.toFin

/-- Changing letter case keeps a string one of token characters. -/
theorem EqIgnoringCase.isToken {a b : Bytes} (h : EqIgnoringCase a b)
    (hb : ∀ ch ∈ b, isToken ch = true) : ∀ ch ∈ a, isToken ch = true := by
  intro ch hch
  have hmem : tolower ch ∈ b.map tolower := h ▸ List.mem_map_of_mem hch
  obtain ⟨c, hc, heq⟩ := List.mem_map.mp hmem
  rw [← isToken_tolower, ← heq, isToken_tolower]
  exact hb c hc

theorem EqIgnoringCase.length_eq {a b : Bytes} (h : EqIgnoringCase a b) : a.length = b.length := by
  simpa using congrArg List.length h

abbrev Headers := Multimap Bytes Bytes CaseInsensitiveComparator

namespace Headers

def haveHeader (hs : Headers) (header : Bytes) : Bool := !(hs.equalRange header).isEmpty

/-- `have(name, value)`: inspects headers for 'header' => 'value' pair. -/
def haveValue (hs : Headers) (name value : Bytes) : Bool :=
  (hs.equalRange name).any fun i => i.2 == value

def value (hs : Headers) (header : Bytes) : Bytes :=
  match hs.equalRange header with
  | [] => []
  | i :: _ => i.2

def values (hs : Headers) (header : Bytes) : List Bytes := (hs.equalRange header).map Prod.snd

theorem haveHeader_eq (hs : Headers) (header : Bytes) :
    hs.haveHeader header = !(hs.values header).isEmpty := by
  simp [haveHeader, values]

theorem haveValue_eq (hs : Headers) (name value : Bytes) :
    hs.haveValue name value = (hs.values name).any (· == value) := by
  simp [haveValue, values, Function.comp_def]

theorem value_eq (hs : Headers) (header : Bytes) :
    hs.value header = (hs.values header).headD [] := by
  unfold value values
  cases hs.equalRange header <;> rfl

def compose (hs : Headers) (target : OStream) : OStream :=
  hs.entries.foldl (fun target i =>
    (((target.putString i.1).putString (str ": ")).putString i.2).putString (str "\r\n")) target

def add (hs : Headers) (name value : Bytes) : Headers := hs.insert (name, value)

def composedSize (hs : Headers) : ℕ :=
  hs.entries.foldl (fun result i => result + (i.1.length + i.2.length + 4)) 0

end Headers

end Httpxx
