import Httpxx.MessageParser
import Httpxx.PercentEncoding

/-!
Percent-encoding as a code. The encoder replaces every byte by a text of its own; an
escape is a `'%'` with the two digits after it, and no digit is a `'%'`, so that a text
never runs into the next one. Decoding takes the texts apart again, from which follow
injectivity and the fixed points. The characters that are written can stand in the
second token of a first line.
-/

namespace Httpxx

open Library

def isUpHexDigit (ch : Byte) : Bool := isDigit ch || (0x41 ≤ ch && ch ≤ 0x46)

theorem isUpHexDigit_digitChar {d : ℕ} (h : d < 16) :
    isUpHexDigit (OStream.digitChar true d) = true := by
  revert d
  decide

theorem ne_percent_of_isUpHexDigit {ch : Byte} (h : isUpHexDigit ch = true) : ch ≠ 0x25 := by
  rintro rfl
  exact absurd h (by decide)

theorem isUpHexDigit_of_mem_hexPair {code ch : Byte} (h : ch ∈ hexPair code) :
    isUpHexDigit ch = true := by
  have hcode : code.toNat < 256 := code.toNat_lt
  simp only [hexPair, List.mem_cons, List.not_mem_nil, or_false] at h
  rcases h with rfl | rfl
  · exact isUpHexDigit_digitChar (by omega)
  · exact isUpHexDigit_digitChar (by omega)

theorem eq_hexPair_of_percent {code : Byte} {before after : Bytes}
    (h : encodedCode code = before ++ 0x25 :: after) : before = [] ∧ after = hexPair code := by
  unfold encodedCode at h
  split at h
  · cases before with
    | nil => cases h
    | cons ch before => simp at h
  · split at h
    · cases before with
      | nil => exact ⟨rfl, ((List.cons.inj h).2).symm⟩
      | cons ch before =>
          have hmem : (0x25 : Byte) ∈ hexPair code := by
            rw [(List.cons.inj h).2]
            simp
          exact absurd rfl (ne_percent_of_isUpHexDigit (isUpHexDigit_of_mem_hexPair hmem))
    · rename_i hsafe
      cases before with
      | nil =>
          obtain rfl := (List.cons.inj h).1
          exact absurd (by decide : (!isUrlSafe 0x25) = true) hsafe
      | cons ch before => simp at h

/-- Every `'%'` that is written begins an escape of exactly two digits: behind them the
text of the next byte begins. -/
theorem escape_of_percent {s before after : Bytes}
    (h : encodePercent s = before ++ 0x25 :: after) :
    ∃ code s', after = hexPair code ++ encodePercent s' := by
  induction s generalizing before with
  | nil => simp at h
  | cons code s ih =>
      rw [encodePercent_cons, List.append_eq_append_iff] at h
      rcases h with ⟨c, hbefore, hs⟩ | ⟨c, hcode, hafter⟩
      · exact ih hs
      · cases c with
        | nil => exact @ih [] hafter.symm
        | cons ch c =>
            obtain ⟨rfl, rfl⟩ := List.cons.inj hafter
            obtain ⟨-, rfl⟩ := eq_hexPair_of_percent hcode
            exact ⟨code, s, rfl⟩

/-! ### In the second token of a first line -/

namespace MessageParser

/-- The parser takes the byte into the second token, as its first byte or, when there is
room, as one more. -/
def TakesInSecondToken (ch : Byte) : Prop :=
  ∀ p : MessageParser,
    p.state = .parsingFirstTokenSP ∨
        p.state = .parsingSecondToken ∧ p.secondToken.length < p.limits.maxSecondTokenLength →
      ∃ r, p.parse ch = .ok r ∧ r.1.state = .parsingSecondToken ∧
        r.1.secondToken = p.secondToken ++ [ch]

theorem updatePosition_secondToken (p : MessageParser) (ch : Byte) :
    (p.updatePosition ch).state = p.state ∧
      (p.updatePosition ch).secondToken = p.secondToken := by
  unfold updatePosition
  split <;> exact ⟨rfl, rfl⟩

theorem takesInSecondToken_of_visible {ch : Byte} (h : Visible ch) : TakesInSecondToken ch := by
  obtain ⟨hspace, hchar⟩ := (visible_iff ch).mp h
  intro p hp
  have htaken : p.parseState ch = .ok { p with
      secondToken := p.secondToken ++ [ch], state := .parsingSecondToken } := by
    rcases hp with hstate | ⟨hstate, hroom⟩
    · simp [parseState, hstate, hspace, hchar]
    · have hfull : ¬ p.secondToken.length ≥ p.limits.maxSecondTokenLength := by omega
      simp [parseState, hstate, hspace, hchar, hfull]
  have hupdate := updatePosition_secondToken { p with
    secondToken := p.secondToken ++ [ch], state := .parsingSecondToken } ch
  exact ⟨_, by rw [parse, htaken]; rfl, hupdate⟩

end MessageParser

theorem visible_of_isPercentEncoded {ch : Byte} (h : isPercentEncoded ch = true) :
    Visible ch := by
  have hall : ∀ n : Fin 256, isPercentEncoded (UInt8.ofFin n) = true → Visible (UInt8.ofFin n) := by
    decide +kernel
  simpa using hall ch.toFin (by simpa using h)

/-- **Percent-encoding is undone by decoding, and safe.** For every string: decoding
gives it back, and different strings are written differently; what is written are
letters, digits, `'_'`, `'+'` and escapes of a `'%'` and exactly two upper-case hex
digits, behind which encoded text goes on; encoding what such a text decodes to writes
it again. Every character can stand in the second token of a first line, in which the
text of a string that is not empty is not empty, and none separates parameters or the
query. -/
theorem encodePercent_undone :
    (∀ s, decodePercent (encodePercent s) = s) ∧
    (∀ s, ∀ ch ∈ encodePercent s, isLowAlpha ch = true ∨ isUpAlpha ch = true ∨
      isDigit ch = true ∨ ch = 0x5F ∨ ch = 0x2B ∨ ch = 0x25) ∧
    (∀ s before after, encodePercent s = before ++ 0x25 :: after → ∃ a b s',
      after = a :: b :: encodePercent s' ∧ isUpHexDigit a = true ∧ isUpHexDigit b = true) ∧
    Function.Injective encodePercent ∧
    (∀ t ∈ Set.range encodePercent, encodePercent (decodePercent t) = t) ∧
    ∀ s, s ≠ [] → encodePercent s ≠ [] ∧ ∀ ch ∈ encodePercent s,
      MessageParser.TakesInSecondToken ch ∧
        ch ≠ ampersand ∧ ch ≠ equalsSign ∧ ch ≠ questionMark := by
  refine ⟨decodePercent_encodePercent, fun s ch hch => ?_, fun s before after h => ?_,
    Function.LeftInverse.injective decodePercent_encodePercent, ?_, fun s hs => ⟨?_, ?_⟩⟩
  · have hencoded := isPercentEncoded_of_mem hch
    simp only [isPercentEncoded, isUrlSafe, Bool.or_eq_true, beq_iff_eq] at hencoded
    rw [isLowAlpha, isUpAlpha]
    tauto
  · obtain ⟨code, s', rfl⟩ := escape_of_percent h
    have hdigits : ∀ ch ∈ hexPair code, isUpHexDigit ch = true := fun _ =>
      isUpHexDigit_of_mem_hexPair
    exact ⟨_, _, s', rfl, hdigits _ (by simp [hexPair]), hdigits _ (by simp [hexPair])⟩
  · rintro _ ⟨s, rfl⟩
    rw [decodePercent_encodePercent]
  · intro hnil
    have hback := congrArg decodePercent hnil
    rw [decodePercent_encodePercent] at hback
    exact hs hback
  · intro ch hch
    have hencoded := isPercentEncoded_of_mem hch
    have hne : ∀ {sep : Byte}, isPercentEncoded sep = false → ch ≠ sep := fun hsep =>
      ne_of_mem_of_not_mem hch (not_mem_encodePercent hsep s)
    exact ⟨MessageParser.takesInSecondToken_of_visible (visible_of_isPercentEncoded hencoded),
      hne rfl, hne rfl, hne rfl⟩

end Httpxx
