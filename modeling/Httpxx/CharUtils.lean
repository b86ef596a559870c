import Mathlib.Tactic.Common

/-!
Character classes of `src/char_utils.h` and `src/char_utils.cpp`. Every function
there takes an `unsigned char`, so a character is a byte and the comparisons are
unsigned. `isdigit` and `isxdigit` are those of the C locale.
-/

namespace Httpxx

abbrev Byte := UInt8

/-- The contents of a `std::string`. -/
abbrev Bytes := List Byte

/-- The bytes of an ASCII string literal. -/
def str (s : String) : Bytes := s.toList.map fun c => c.toNat.toUInt8

/-- A test of all characters of a string runs along the string, not over all bytes. -/
instance (s : Bytes) (p : Byte → Prop) [DecidablePred p] : Decidable (∀ ch ∈ s, p ch) :=
  List.decidableBAll p s

instance (o : Option Byte) (p : Byte → Prop) [DecidablePred p] : Decidable (∀ ch ∈ o, p ch) :=
  Option.decidableForallMem o

abbrev SP : Byte := 0x20
abbrev HT : Byte := 0x09
abbrev CR : Byte := 0x0D
abbrev LF : Byte := 0x0A
abbrev colon : Byte := 0x3A
abbrev ampersand : Byte := 0x26
abbrev equalsSign : Byte := 0x3D
abbrev questionMark : Byte := 0x3F

def isLowAlpha (ch : Byte) : Bool := 0x61 ≤ ch && ch ≤ 0x7A

def isUpAlpha (ch : Byte) : Bool := 0x41 ≤ ch && ch ≤ 0x5A

def isChar (ch : Byte) : Bool := ch ≤ 0x7F

def isControl (ch : Byte) : Bool := ch ≤ 0x1F || ch == 0x7F

def isSpace (ch : Byte) : Bool := ch == 0x20

def isTab (ch : Byte) : Bool := ch == 0x09

def isSpaceOrTab (ch : Byte) : Bool := isSpace ch || isTab ch

def isCarriageReturn (ch : Byte) : Bool := ch == 0x0D

def isLineFeed (ch : Byte) : Bool := ch == 0x0A

def isDigit (ch : Byte) : Bool := 0x30 ≤ ch && ch ≤ 0x39

def isHexDigit (ch : Byte) : Bool :=
  isDigit ch || (0x61 ≤ ch && ch ≤ 0x66) || (0x41 ≤ ch && ch ≤ 0x46)

def isUrlSafe (ch : Byte) : Bool :=
  (0x61 ≤ ch && ch ≤ 0x7A) || (0x41 ≤ ch && ch ≤ 0x5A) || isDigit ch || ch == 0x5F

/-- The separators `( ) < > @ , ; : \ " / [ ] ? = \x7b \x7d`, space and tab. -/
def isSeparator (ch : Byte) : Bool :=
  ch == 0x28 || ch == 0x29 || ch == 0x3C || ch == 0x3E || ch == 0x40 ||
    ch == 0x2C || ch == 0x3B || ch == 0x3A || ch == 0x5C || ch == 0x22 ||
    ch == 0x2F || ch == 0x5B || ch == 0x5D || ch == 0x3F || ch == 0x3D ||
    ch == 0x7B || ch == 0x7D || isSpaceOrTab ch

def isToken (ch : Byte) : Bool := isChar ch && !isControl ch && !isSeparator ch

def hexValue (ch : Byte) : Byte :=
  if isDigit ch then ch - 0x30
  else if 0x61 ≤ ch && ch ≤ 0x66 then ch - 0x61 + 10
  else if 0x41 ≤ ch && ch ≤ 0x46 then ch - 0x41 + 10
  else 0

/-! ### How the classes lie to each other -/

theorem isSpaceOrTab_iff (ch : Byte) : isSpaceOrTab ch = true ↔ ch = SP ∨ ch = HT := by
  simp [isSpaceOrTab, isSpace, isTab]

theorem isCarriageReturn_iff (ch : Byte) : isCarriageReturn ch = true ↔ ch = CR := by
  simp [isCarriageReturn]

theorem isLineFeed_iff (ch : Byte) : isLineFeed ch = true ↔ ch = LF := by
  simp [isLineFeed]

@[simp] theorem isCarriageReturn_CR : isCarriageReturn CR = true := rfl
@[simp] theorem isCarriageReturn_LF : isCarriageReturn LF = false := rfl
@[simp] theorem isLineFeed_LF : isLineFeed LF = true := rfl
@[simp] theorem isSpaceOrTab_CR : isSpaceOrTab CR = false := rfl
@[simp] theorem isSpaceOrTab_colon : isSpaceOrTab colon = false := rfl
@[simp] theorem isCarriageReturn_colon : isCarriageReturn colon = false := rfl
@[simp] theorem isToken_CR : isToken CR = false := rfl
@[simp] theorem isToken_colon : isToken colon = false := rfl
@[simp] theorem isHexDigit_CR : isHexDigit CR = false := rfl

theorem isChar_not_isControl_iff (ch : Byte) :
    (isChar ch && !isControl ch) = true ↔ 0x20 ≤ ch ∧ ch ≤ 0x7E := by
  simp only [isChar, isControl, Bool.and_eq_true, Bool.not_eq_true', Bool.or_eq_false_iff,
    decide_eq_true_eq, decide_eq_false_iff_not, beq_eq_false_iff_ne]
  grind

/-- The bytes of the first and the second token, `0x21..0x7E`. -/
def Visible (ch : Byte) : Prop := 0x21 ≤ ch ∧ ch ≤ 0x7E

/-- The bytes of the third token, `0x20..0x7E`. -/
def Printable (ch : Byte) : Prop := 0x20 ≤ ch ∧ ch ≤ 0x7E

instance : DecidablePred Visible := fun _ => inferInstanceAs (Decidable (_ ∧ _))
instance : DecidablePred Printable := fun _ => inferInstanceAs (Decidable (_ ∧ _))

theorem visible_iff (ch : Byte) :
    Visible ch ↔ isSpaceOrTab ch = false ∧ (isChar ch && !isControl ch) = true := by
  rw [isChar_not_isControl_iff, Visible, ← Bool.not_eq_true, isSpaceOrTab_iff]
  grind

theorem printable_iff (ch : Byte) : Printable ch ↔ (isChar ch && !isControl ch) = true :=
  (isChar_not_isControl_iff ch).symm

theorem Visible.printable {ch : Byte} (h : Visible ch) : Printable ch :=
  (printable_iff ch).mpr ((visible_iff ch).mp h).2

theorem visible_iff_printable_ne_SP (ch : Byte) : Visible ch ↔ Printable ch ∧ ch ≠ SP := by
  rw [Visible, Printable]
  grind

theorem Printable.ne_CR {ch : Byte} (h : Printable ch) : ch ≠ CR := by
  rintro rfl
  exact absurd h (by decide)

theorem isControl_of_isToken {ch : Byte} (h : isToken ch = true) : isControl ch = false := by
  simp only [isToken, Bool.and_eq_true, Bool.not_eq_true'] at h
  exact h.1.2

theorem isSpaceOrTab_of_isToken {ch : Byte} (h : isToken ch = true) :
    isSpaceOrTab ch = false := by
  simp only [isToken, isSeparator, Bool.and_eq_true, Bool.not_eq_true',
    Bool.or_eq_false_iff] at h
  exact h.2.2

theorem ne_colon_of_isToken {ch : Byte} (h : isToken ch = true) : ch ≠ colon := by
  rintro rfl
  simp at h

theorem ne_CR_of_not_isControl {ch : Byte} (h : isControl ch = false) : ch ≠ CR := by
  rintro rfl
  exact absurd h (by decide)

theorem ne_CR_of_isToken {ch : Byte} (h : isToken ch = true) : ch ≠ CR :=
  ne_CR_of_not_isControl (isControl_of_isToken h)

end Httpxx
