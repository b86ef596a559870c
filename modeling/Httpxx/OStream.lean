import Httpxx.CharUtils
import Httpxx.Library.Positional

/-!
Formatted output. An output stream is the bytes written to it so far together
with the formatting state that `operator<<` reads: the integer base, the
`showbase` and `uppercase` flags, and the field width and fill character. The
width applies to the next formatted insertion only; everything else persists
until it is changed. Padding goes to the left, as the default `adjustfield`
has it, and integers are rendered as in the C locale.
-/

namespace Httpxx

open Library

inductive Base | dec | hex | oct
  deriving DecidableEq, Repr

def Base.radix : Base → ℕ
  | .dec => 10
  | .hex => 16
  | .oct => 8

structure OStream where
  /-- The bytes written so far. -/
  out : Bytes := []
  base : Base := .dec
  showbase : Bool := false
  uppercase : Bool := false
  width : ℕ := 0
  fill : Byte := SP
  deriving DecidableEq, Repr

namespace OStream

/-- A default-formatted stream without contents, such as a new
`std::ostringstream`. -/
def fresh : OStream := {}

/-- Insert a string: pad it to the field width and reset the width. -/
def putString (os : OStream) (s : Bytes) : OStream :=
  { os with out := os.out ++ List.replicate (os.width - s.length) os.fill ++ s, width := 0 }

def setHex (os : OStream) : OStream := { os with base := .hex }

def setUppercase (os : OStream) : OStream := { os with uppercase := true }

def unsetShowbase (os : OStream) : OStream := { os with showbase := false }

def setFill (os : OStream) (ch : Byte) : OStream := { os with fill := ch }

def setw (os : OStream) (n : ℕ) : OStream := { os with width := n }

def digitChar (uppercase : Bool) (d : ℕ) : Byte :=
  if d < 10 then 0x30 + d.toUInt8
  else (if uppercase then 0x41 else 0x61) + (d - 10).toUInt8

/-- What `showbase` puts before the digits of an integer. -/
def basePrefix (os : OStream) (n : ℕ) : Bytes :=
  if os.showbase && n != 0 then
    match os.base with
    | .dec => []
    | .hex => [0x30, if os.uppercase then 0x58 else 0x78]
    | .oct => [0x30]
  else []

/-- Insert an unsigned integer. -/
def putUnsigned (os : OStream) (n : ℕ) : OStream :=
  os.putString
    (os.basePrefix n ++ (digitsOf os.base.radix n).map (digitChar os.uppercase))

def contents (os : OStream) : Bytes := os.out

/-- A stream after an insertion: more bytes, the same formatting. -/
def append (os : OStream) (s : Bytes) : OStream := { os with out := os.out ++ s }

@[simp] theorem append_out (os : OStream) (s : Bytes) : (os.append s).out = os.out ++ s := rfl
@[simp] theorem append_width (os : OStream) (s : Bytes) : (os.append s).width = os.width := rfl
@[simp] theorem append_append (os : OStream) (s t : Bytes) :
    (os.append s).append t = os.append (s ++ t) := by
  simp [append]

@[simp] theorem setHex_append (os : OStream) (s : Bytes) :
    (os.append s).setHex = os.setHex.append s := rfl
@[simp] theorem setHex_out (os : OStream) : os.setHex.out = os.out := rfl

theorem putString_of_width {os : OStream} (h : os.width = 0) (s : Bytes) :
    os.putString s = os.append s := by
  cases os
  simp_all [putString, append]

def decimal (n : ℕ) : Bytes := (digitsOf 10 n).map (digitChar false)

def hexadecimal (n : ℕ) : Bytes := (digitsOf 16 n).map (digitChar false)

def unsignedText (os : OStream) (n : ℕ) : Bytes :=
  os.basePrefix n ++ (digitsOf os.base.radix n).map (digitChar os.uppercase)

theorem putUnsigned_of_width {os : OStream} (h : os.width = 0) (n : ℕ) :
    os.putUnsigned n = os.append (os.unsignedText n) :=
  putString_of_width h _

theorem putUnsigned_dec {os : OStream} (hw : os.width = 0) (hb : os.base = .dec)
    (hu : os.uppercase = false) (n : ℕ) : os.putUnsigned n = os.append (decimal n) := by
  have hprefix : os.basePrefix n = [] := by simp [basePrefix, hb]
  rw [putUnsigned_of_width hw, unsignedText, hprefix, hb, hu]
  rfl

/-- No field width and no flags, as in a new stream; the base may be any. -/
structure Plain (os : OStream) : Prop where
  width : os.width = 0
  showbase : os.showbase = false
  uppercase : os.uppercase = false

theorem plain_fresh : fresh.Plain := ⟨rfl, rfl, rfl⟩

theorem Plain.append {os : OStream} (h : os.Plain) (s : Bytes) : (os.append s).Plain :=
  ⟨h.width, h.showbase, h.uppercase⟩

theorem Plain.setHex {os : OStream} (h : os.Plain) : os.setHex.Plain :=
  ⟨h.width, h.showbase, h.uppercase⟩

theorem Plain.unsignedText_setHex {os : OStream} (h : os.Plain) (n : ℕ) :
    os.setHex.unsignedText n = hexadecimal n := by
  have hprefix : os.setHex.basePrefix n = [] := by simp [basePrefix, OStream.setHex, h.showbase]
  have hcase : os.setHex.uppercase = false := h.uppercase
  rw [unsignedText, hprefix, hcase]
  rfl

end OStream

end Httpxx
