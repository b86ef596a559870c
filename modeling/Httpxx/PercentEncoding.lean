import Httpxx.Numbers

/-!
`encodePercent` and `decodePercent` of `src/string_utils.cpp`. The encoder writes
to a stream that is set up once to two-digit upper-case hexadecimals; only the
field width is used up by an insertion and set again for the next byte.
-/

namespace Httpxx

open Library

/-- The stream `encodePercent` writes to, formatted by its first four calls. -/
def encodedString : OStream :=
  (OStream.fresh.setUppercase.setHex.unsetShowbase).setFill 0x30

def encodeCode (encodedString : OStream) (code : Byte) : OStream :=
  if isSpace code then encodedString.putString (str "+")
  else if !isUrlSafe code then
    ((encodedString.putString (str "%")).setw 2).putUnsigned code.toNat
  else encodedString.putString [code]

def encodePercent (s : Bytes) : Bytes := (s.foldl encodeCode encodedString).contents

/-- Decodes percent-encoded string. A `'%'` that two hex digits do not follow
stands for itself. -/
def decodePercent : Bytes → Bytes
  | [] => []
  | ch :: rest =>
      if ch == 0x25 then
        match rest with
        | a :: b :: rest' =>
            if !isHexDigit a || !isHexDigit b then ch :: decodePercent (a :: b :: rest')
            else (hexValue a * 16 + hexValue b) :: decodePercent rest'
        | [a] => ch :: decodePercent [a]
        | [] => ch :: decodePercent []
      else if ch == 0x2B then SP :: decodePercent rest
      else ch :: decodePercent rest

/-! ### The encoder byte by byte -/

def hexPair (code : Byte) : Bytes :=
  [OStream.digitChar true (code.toNat / 16), OStream.digitChar true (code.toNat % 16)]

/-- What the encoder writes for one byte. -/
def encodedCode (code : Byte) : Bytes :=
  if isSpace code then [0x2B] else if !isUrlSafe code then 0x25 :: hexPair code else [code]

/-- The field of two characters, filled with zeros, holds exactly the digits of a
byte. -/
theorem putUnsigned_hexPair (t : Bytes) (code : Byte) :
    ((encodedString.append t).setw 2).putUnsigned code.toNat =
      encodedString.append (t ++ hexPair code) := by
  have hdigits := congrArg (List.map (OStream.digitChar true))
    (pad_digitsOf_two (b := 16) (by decide) code.toNat_lt)
  rw [List.map_append, List.map_replicate] at hdigits
  have hpad : List.replicate (2 - ((digitsOf 16 code.toNat).map (OStream.digitChar true)).length)
      0x30 ++ (digitsOf 16 code.toNat).map (OStream.digitChar true) = hexPair code := by
    rw [List.length_map]
    exact hdigits
  calc ((encodedString.append t).setw 2).putUnsigned code.toNat
      = encodedString.append (t ++ List.replicate
          (2 - ((digitsOf 16 code.toNat).map (OStream.digitChar true)).length) 0x30 ++
          (digitsOf 16 code.toNat).map (OStream.digitChar true)) := rfl
    _ = encodedString.append (t ++ hexPair code) := by rw [List.append_assoc, hpad]

theorem encodeCode_append (t : Bytes) (code : Byte) :
    encodeCode (encodedString.append t) code =
      encodedString.append (t ++ encodedCode code) := by
  have hwidth : ∀ t, (encodedString.append t).width = 0 := fun _ => rfl
  unfold encodeCode encodedCode
  split
  · rw [OStream.putString_of_width (hwidth t), OStream.append_append]
    rfl
  · split
    · rw [OStream.putString_of_width (hwidth t), OStream.append_append, putUnsigned_hexPair,
        List.append_assoc]
      rfl
    · rw [OStream.putString_of_width (hwidth t), OStream.append_append]

theorem encodePercent_eq (s : Bytes) : encodePercent s = s.flatMap encodedCode := by
  have hloop : ∀ t, s.foldl encodeCode (encodedString.append t) =
      encodedString.append (t ++ s.flatMap encodedCode) := by
    induction s with
    | nil => intro t; simp
    | cons code s ih =>
        intro t
        rw [List.foldl_cons, encodeCode_append, ih, List.flatMap_cons, List.append_assoc]
  exact congrArg OStream.contents (hloop [])

@[simp] theorem encodePercent_nil : encodePercent [] = [] := rfl

@[simp] theorem encodePercent_cons (code : Byte) (s : Bytes) :
    encodePercent (code :: s) = encodedCode code ++ encodePercent s := by
  simp only [encodePercent_eq, List.flatMap_cons]

def isPercentEncoded (ch : Byte) : Bool := isUrlSafe ch || ch == 0x2B || ch == 0x25

theorem isPercentEncoded_of_mem_encodedCode {ch code : Byte} (h : ch ∈ encodedCode code) :
    isPercentEncoded ch = true := by
  have hall : ∀ n : Fin 256, ∀ ch ∈ encodedCode (UInt8.ofFin n), isPercentEncoded ch = true := by
    decide +kernel
  exact hall code.toFin ch (by simpa using h)

theorem isPercentEncoded_of_mem {ch : Byte} {s : Bytes} (h : ch ∈ encodePercent s) :
    isPercentEncoded ch = true := by
  rw [encodePercent_eq] at h
  obtain ⟨code, -, hcode⟩ := List.mem_flatMap.mp h
  exact isPercentEncoded_of_mem_encodedCode hcode

theorem not_mem_encodePercent {ch : Byte} (h : isPercentEncoded ch = false) (s : Bytes) :
    ch ∉ encodePercent s := by
  intro hmem
  rw [isPercentEncoded_of_mem hmem] at h
  cases h

/-! ### Decoding what was encoded -/

theorem hexValue_hexPair (code : Byte) :
    hexValue (OStream.digitChar true (code.toNat / 16)) * 16 +
      hexValue (OStream.digitChar true (code.toNat % 16)) = code := by
  have hcode : code.toNat < 256 := code.toNat_lt
  have hhigh : (hexValue (OStream.digitChar true (code.toNat / 16))).toNat = code.toNat / 16 :=
    digitValue_digitChar true (by omega)
  have hlow : (hexValue (OStream.digitChar true (code.toNat % 16))).toNat = code.toNat % 16 :=
    digitValue_digitChar true (by omega)
  apply UInt8.toNat_inj.mp
  rw [UInt8.toNat_add, UInt8.toNat_mul, hhigh, hlow, show UInt8.toNat 16 = 16 from rfl]
  omega

theorem decodePercent_hexPair (code : Byte) (rest : Bytes) :
    decodePercent (0x25 :: hexPair code ++ rest) = code :: decodePercent rest := by
  have hcode : code.toNat < 256 := code.toNat_lt
  have hhigh : isHexDigit (OStream.digitChar true (code.toNat / 16)) = true :=
    isHexDigit_digitChar true (by omega)
  have hlow : isHexDigit (OStream.digitChar true (code.toNat % 16)) = true :=
    isHexDigit_digitChar true (by omega)
  simp [hexPair, decodePercent, hhigh, hlow, hexValue_hexPair]

theorem decodePercent_cons {ch : Byte} (h : ch ≠ 0x25) (rest : Bytes) :
    decodePercent (ch :: rest) = (if ch == 0x2B then SP else ch) :: decodePercent rest := by
  have hpercent : ¬ (ch == 0x25) = true := by simpa using h
  rw [decodePercent.eq_def]
  dsimp only
  rw [if_neg hpercent]
  split <;> rfl

/-- Whatever follows the code of a byte, the decoder reads the code as that byte
and goes on behind it. -/
theorem decodePercent_encodedCode (code : Byte) (rest : Bytes) :
    decodePercent (encodedCode code ++ rest) = code :: decodePercent rest := by
  unfold encodedCode
  split
  · rename_i hspace
    rw [isSpace, beq_iff_eq] at hspace
    rw [hspace]
    exact decodePercent_cons (by decide) rest
  · split
    · exact decodePercent_hexPair code rest
    · rename_i hsafe
      rw [Bool.not_eq_true, Bool.not_eq_false'] at hsafe
      have hpercent : code ≠ 0x25 := by
        rintro rfl
        exact absurd hsafe (by decide)
      have hplus : code ≠ 0x2B := by
        rintro rfl
        exact absurd hsafe (by decide)
      rw [List.singleton_append, decodePercent_cons hpercent, if_neg (by simpa using hplus)]

@[simp] theorem decodePercent_encodePercent (s : Bytes) :
    decodePercent (encodePercent s) = s := by
  induction s with
  | nil => rfl
  | cons code s ih => rw [encodePercent_cons, decodePercent_encodedCode, ih]

end Httpxx
