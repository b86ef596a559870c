import Httpxx.Uri

/-!
The path of a URI as RFC-3986, which `include/httpxx/uri.h` refers to, has it: an escape
is a `'%'` and two hex digits, every escape stands for one byte, and every other
character for itself. `decodePercent` is the decoder of parameters as well, where a
`'+'` stands for a space; so it decodes what is left when every `'+'` is made a space.
-/

namespace Httpxx

open Library

namespace Grammar

def BeginsWithEscape (s : Bytes) : Prop :=
  ∃ a b rest, s = 0x25 :: a :: b :: rest ∧ isHexDigit a = true ∧ isHexDigit b = true

def octet (a b : Byte) : Byte := (digitValue a * 16 + digitValue b).toUInt8

/-- The text, read from left to right, is decoded to the bytes. -/
inductive PercentDecoded : Bytes → Bytes → Prop
  | nil : PercentDecoded [] []
  | escape {a b : Byte} {rest w : Bytes} (ha : isHexDigit a = true) (hb : isHexDigit b = true)
      (h : PercentDecoded rest w) : PercentDecoded (0x25 :: a :: b :: rest) (octet a b :: w)
  | char {ch : Byte} {rest w : Bytes} (hch : ¬ BeginsWithEscape (ch :: rest))
      (h : PercentDecoded rest w) : PercentDecoded (ch :: rest) (ch :: w)

theorem beginsWithEscape_iff {ch : Byte} {rest : Bytes} :
    BeginsWithEscape (ch :: rest) ↔
      ch = 0x25 ∧ ∃ a b z, rest = a :: b :: z ∧ isHexDigit a = true ∧ isHexDigit b = true := by
  constructor
  · rintro ⟨a, b, z, heq, ha, hb⟩
    obtain ⟨rfl, rfl⟩ := List.cons.inj heq
    exact ⟨rfl, a, b, z, rfl, ha, hb⟩
  · rintro ⟨rfl, a, b, z, rfl, ha, hb⟩
    exact ⟨a, b, z, rfl, ha, hb⟩

theorem PercentDecoded.of_escape {a b : Byte} {rest w : Bytes} (ha : isHexDigit a = true)
    (hb : isHexDigit b = true) (h : PercentDecoded (0x25 :: a :: b :: rest) w) :
    ∃ w', w = octet a b :: w' ∧ PercentDecoded rest w' := by
  cases h with
  | escape _ _ h => exact ⟨_, rfl, h⟩
  | char hch => exact absurd ⟨a, b, rest, rfl, ha, hb⟩ hch

theorem PercentDecoded.of_char {ch : Byte} {rest w : Bytes}
    (hch : ¬ BeginsWithEscape (ch :: rest)) (h : PercentDecoded (ch :: rest) w) :
    ∃ w', w = ch :: w' ∧ PercentDecoded rest w' := by
  cases h with
  | escape ha hb => exact absurd ⟨_, _, _, rfl, ha, hb⟩ hch
  | char _ h => exact ⟨_, rfl, h⟩

theorem PercentDecoded.unique {s w w' : Bytes} (h : PercentDecoded s w)
    (h' : PercentDecoded s w') : w = w' := by
  induction h generalizing w' with
  | nil => cases h'; rfl
  | escape ha hb _ ih =>
      obtain ⟨decoded, rfl, hrest⟩ := h'.of_escape ha hb
      rw [ih hrest]
  | char hch _ ih =>
      obtain ⟨decoded, rfl, hrest⟩ := h'.of_char hch
      rw [ih hrest]

def plusToSpace (ch : Byte) : Byte := if ch == 0x2B then SP else ch

theorem octet_eq (a b : Byte) : octet a b = hexValue a * 16 + hexValue b := by
  apply UInt8.toNat_inj.mp
  rw [UInt8.toNat_add, UInt8.toNat_mul, show UInt8.toNat 16 = 16 from rfl, octet]
  simp [digitValue]

theorem isHexDigit_plusToSpace (ch : Byte) : isHexDigit (plusToSpace ch) = isHexDigit ch := by
  unfold plusToSpace
  split
  · rename_i h
    rw [beq_iff_eq.mp h]
    rfl
  · rfl

theorem plusToSpace_of_isHexDigit {ch : Byte} (h : isHexDigit ch = true) :
    plusToSpace ch = ch := by
  rw [plusToSpace, if_neg]
  rw [beq_iff_eq]
  rintro rfl
  exact absurd h (by decide)

theorem map_plusToSpace_of_not_mem {s : Bytes} (h : (0x2B : Byte) ∉ s) :
    s.map plusToSpace = s := by
  conv_rhs => rw [← List.map_id s]
  apply List.map_congr_left
  intro ch hch
  rw [plusToSpace, if_neg, id]
  rw [beq_iff_eq]
  rintro rfl
  exact h hch

theorem plusToSpace_eq_percent_iff (ch : Byte) : plusToSpace ch = 0x25 ↔ ch = 0x25 := by
  unfold plusToSpace
  split
  · rename_i h
    rw [beq_iff_eq.mp h]
    decide
  · rfl

theorem beginsWithEscape_map (s : Bytes) :
    BeginsWithEscape (s.map plusToSpace) ↔ BeginsWithEscape s := by
  match s with
  | [] | [_] | [_, _] => simp [BeginsWithEscape]
  | ch :: a :: b :: rest =>
      simp [beginsWithEscape_iff, plusToSpace_eq_percent_iff, isHexDigit_plusToSpace]

/-- To show something of every text, show it of a text behind an escape and of a text
behind any other character. -/
theorem escape_induction {P : Bytes → Prop} (nil : P [])
    (escape : ∀ a b rest, isHexDigit a = true → isHexDigit b = true → P rest →
      P (0x25 :: a :: b :: rest))
    (char : ∀ ch rest, ¬ BeginsWithEscape (ch :: rest) → P rest → P (ch :: rest)) :
    ∀ s, P s := by
  intro s
  induction hlength : s.length using Nat.strong_induction_on generalizing s with
  | _ n ih =>
      subst hlength
      by_cases h : BeginsWithEscape s
      · obtain ⟨a, b, rest, rfl, ha, hb⟩ := h
        exact escape a b rest ha hb (ih rest.length (by simp only [List.length_cons]; omega) _ rfl)
      · cases s with
        | nil => exact nil
        | cons ch rest => exact char ch rest h (ih rest.length (by simp) _ rfl)

theorem existsUnique_percentDecoded (s : Bytes) : ∃! w, PercentDecoded s w := by
  induction s using escape_induction with
  | nil => exact ⟨[], .nil, fun _ h => h.unique .nil⟩
  | escape a b rest ha hb ih =>
      obtain ⟨w, hw, -⟩ := ih
      exact ⟨octet a b :: w, .escape ha hb hw, fun _ h => h.unique (.escape ha hb hw)⟩
  | char ch rest hch ih =>
      obtain ⟨w, hw, -⟩ := ih
      exact ⟨ch :: w, .char hch hw, fun _ h => h.unique (.char hch hw)⟩

/-! ### What `decodePercent` decodes -/

theorem decodePercent_escape {a b : Byte} (ha : isHexDigit a = true) (hb : isHexDigit b = true)
    (rest : Bytes) : decodePercent (0x25 :: a :: b :: rest) = octet a b :: decodePercent rest := by
  rw [octet_eq]
  simp [decodePercent, ha, hb]

theorem decodePercent_char {ch : Byte} {rest : Bytes} (h : ¬ BeginsWithEscape (ch :: rest)) :
    decodePercent (ch :: rest) = plusToSpace ch :: decodePercent rest := by
  by_cases hch : ch = 0x25
  · subst hch
    match rest with
    | [] | [_] => rfl
    | a :: b :: z =>
        have hdigits : (!isHexDigit a || !isHexDigit b) = true := by
          by_contra hno
          simp only [Bool.or_eq_true, Bool.not_eq_true', not_or, Bool.not_eq_false] at hno
          exact h ⟨a, b, z, rfl, hno⟩
        simp only [decodePercent, beq_self_eq_true, if_true, hdigits]
        rfl
  · exact decodePercent_cons hch rest

/-- The decoder decodes the text in which every `'+'` is made a space. -/
theorem percentDecoded_plusToSpace (s : Bytes) :
    PercentDecoded (s.map plusToSpace) (decodePercent s) := by
  induction s using escape_induction with
  | nil => exact .nil
  | escape a b rest ha hb ih =>
      rw [decodePercent_escape ha hb, List.map_cons, List.map_cons, List.map_cons,
        plusToSpace_of_isHexDigit ha, plusToSpace_of_isHexDigit hb]
      exact .escape ha hb ih
  | char ch rest hch ih =>
      rw [decodePercent_char hch]
      refine .char ?_ ih
      rw [← List.map_cons, beginsWithEscape_map]
      exact hch

/-- A `'+'` makes a difference. -/
theorem not_mem_of_percentDecoded {s w : Bytes} (h : PercentDecoded s w)
    (hplus : PercentDecoded (s.map plusToSpace) w) : (0x2B : Byte) ∉ s := by
  induction h with
  | nil => exact List.not_mem_nil
  | @escape a b rest w ha hb h ih =>
      rw [List.map_cons, List.map_cons, List.map_cons, plusToSpace_of_isHexDigit ha,
        plusToSpace_of_isHexDigit hb] at hplus
      obtain ⟨w', heq, hplus⟩ := hplus.of_escape ha hb
      obtain ⟨-, rfl⟩ := List.cons.inj heq
      have hrest := ih hplus
      have hdigit : ∀ {d : Byte}, isHexDigit d = true → (0x2B : Byte) ≠ d := by
        rintro d hd rfl
        exact absurd hd (by decide)
      simp [hrest, hdigit ha, hdigit hb]
  | @char ch rest w hch h ih =>
      rw [← beginsWithEscape_map, List.map_cons] at hch
      obtain ⟨w', heq, hplus⟩ := PercentDecoded.of_char hch hplus
      obtain ⟨hplain, rfl⟩ := List.cons.inj heq
      have hne : (0x2B : Byte) ≠ ch := by
        rintro rfl
        cases hplain
      simp [hne, ih hplus]

end Grammar

namespace Uri

open Grammar

/-- **When the path is what RFC-3986 makes of the raw path.** Up to the first question
mark the text is decoded to the path exactly when there is no `'+'` in it. -/
theorem path_decoded_iff (s : Bytes) :
    PercentDecoded (s.takeWhile (· != questionMark)) (ofString s).path ↔
      (0x2B : Byte) ∉ s.takeWhile (· != questionMark) := by
  rw [ofString_eq]
  have hplus := percentDecoded_plusToSpace (s.takeWhile (· != questionMark))
  refine ⟨fun h => not_mem_of_percentDecoded h hplus, fun h => ?_⟩
  rwa [map_plusToSpace_of_not_mem h] at hplus

/-- A `'+'` in a path becomes a space. -/
theorem plus_not_literal : ¬ PercentDecoded (str "/a+b") (ofString (str "/a+b")).path := by
  intro h
  have hplus := percentDecoded_plusToSpace (str "/a+b")
  exact absurd (not_mem_of_percentDecoded h hplus) (by decide)

end Uri

end Httpxx
