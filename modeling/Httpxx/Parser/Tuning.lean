import Httpxx.Grammar.Acceptance

/-!
What the limits decide. A parser compares a length with a limit in six places,
and no other behaviour depends on the limits: `judged_parse` says once that a
byte is either judged without them, or let in exactly while one string is
shorter than its limit. So limits never change what a stream means, larger limits
accept more of them, and a refusal with a code of the grammar is one under all
limits.

Three of the limits can be set while a message is being read. A run in which
limits are set at any moment, and no byte is refused for a limit, is a run of a
parser that has had the largest of them from the beginning.
-/

namespace Httpxx

open Library

/-! ### The limits by name -/

inductive Limit
  | firstToken
  | secondToken
  | thirdToken
  | headerName
  | headerValue
  | headersAmount
  deriving DecidableEq, Repr

namespace Limit

def get (lim : Limits) : Limit → ℕ
  | firstToken => lim.maxFirstTokenLength
  | secondToken => lim.maxSecondTokenLength
  | thirdToken => lim.maxThirdTokenLength
  | headerName => lim.maxHeaderNameLength
  | headerValue => lim.maxHeaderValueLength
  | headersAmount => lim.maxHeadersAmount

def code : Limit → Code
  | firstToken => .firstTokenIsTooLong
  | secondToken => .secondTokenIsTooLong
  | thirdToken => .thirdTokenIsTooLong
  | headerName => .headerNameIsTooLong
  | headerValue => .headerValueIsTooLong
  | headersAmount => .tooManyHeaders

/-- What a parser compares with the limit. -/
def used (p : MessageParser) : Limit → ℕ
  | firstToken => p.firstToken.length
  | secondToken => p.secondToken.length
  | thirdToken => p.thirdToken.length
  | headerName => p.headerFieldName.length
  | headerValue => p.headerFieldValue.length
  | headersAmount => p.headers.size

end Limit

/-- The codes of the bytes that a larger limit lets in. -/
def Code.isLimit : Code → Bool
  | firstTokenIsTooLong | secondTokenIsTooLong | thirdTokenIsTooLong | tooManyHeaders
  | headerNameIsTooLong | headerValueIsTooLong => true
  | _ => false

@[simp] theorem Limit.isLimit_code (l : Limit) : l.code.isLimit = true := by
  cases l <;> rfl

structure Limits.Within (lim top : Limits) : Prop where
  firstToken : lim.maxFirstTokenLength ≤ top.maxFirstTokenLength
  secondToken : lim.maxSecondTokenLength ≤ top.maxSecondTokenLength
  thirdToken : lim.maxThirdTokenLength ≤ top.maxThirdTokenLength
  headerName : lim.maxHeaderNameLength ≤ top.maxHeaderNameLength
  headerValue : lim.maxHeaderValueLength ≤ top.maxHeaderValueLength
  headersAmount : lim.maxHeadersAmount ≤ top.maxHeadersAmount

theorem Limits.Within.get_le {lim top : Limits} (h : lim.Within top) (l : Limit) :
    l.get lim ≤ l.get top := by
  cases l with
  | firstToken => exact h.firstToken
  | secondToken => exact h.secondToken
  | thirdToken => exact h.thirdToken
  | headerName => exact h.headerName
  | headerValue => exact h.headerValue
  | headersAmount => exact h.headersAmount

def Limits.raised (lim : Limits) (n : ℕ) : Limits where
  maxFirstTokenLength := max lim.maxFirstTokenLength n
  maxSecondTokenLength := max lim.maxSecondTokenLength n
  maxThirdTokenLength := max lim.maxThirdTokenLength n
  maxHeaderNameLength := max lim.maxHeaderNameLength n
  maxHeaderValueLength := max lim.maxHeaderValueLength n
  maxHeadersAmount := max lim.maxHeadersAmount n

theorem Limits.within_raised (lim : Limits) (n : ℕ) : lim.Within (lim.raised n) :=
  ⟨le_max_left _ _, le_max_left _ _, le_max_left _ _, le_max_left _ _, le_max_left _ _,
    le_max_left _ _⟩

theorem Limits.le_get_raised (lim : Limits) (n : ℕ) (l : Limit) : n ≤ l.get (lim.raised n) := by
  cases l <;> exact le_max_right _ _

namespace MessageParser

def withLimits (p : MessageParser) (lim : Limits) : MessageParser := { p with limits := lim }

@[simp] theorem state_withLimits (p : MessageParser) (lim : Limits) :
    (p.withLimits lim).state = p.state := rfl

@[simp] theorem headers_withLimits (p : MessageParser) (lim : Limits) :
    (p.withLimits lim).headers = p.headers := rfl

@[simp] theorem chunkSizeStr_withLimits (p : MessageParser) (lim : Limits) :
    (p.withLimits lim).chunkSizeStr = p.chunkSizeStr := rfl

/-! ### What the limits have to do with a byte -/

section Judged

variable {α : Type}

def relimit (relim : Limits → α → α) (lim : Limits) : Except Thrown α → Except Thrown α
  | .error thrown => .error { thrown with parser := thrown.parser.withLimits lim }
  | .ok r => .ok (relim lim r)

/-- A method that takes a byte is either free of the limits, or moves on exactly while
one length is below its limit. -/
inductive Judged (relim : Limits → α → α) (f : MessageParser → Except Thrown α)
    (p : MessageParser) (ch : Byte) : Prop
  | free (hcode : ∀ thrown, f p = .error thrown → thrown.exception.code.isLimit = false)
      (hf : ∀ lim, f (p.withLimits lim) = relimit relim lim (f p))
  | checked (l : Limit) (r : α)
      (hf : ∀ lim, f (p.withLimits lim) =
        if l.used p < l.get lim then .ok (relim lim r) else (p.withLimits lim).throwing ch l.code)

end Judged

abbrev JudgedStep (f : MessageParser → Except Thrown MessageParser) (p : MessageParser)
    (ch : Byte) : Prop :=
  Judged (fun lim p => p.withLimits lim) f p ch

theorem parseHeader_judged (p : MessageParser) (ch : Byte) (isTrailer : Bool) :
    JudgedStep (fun p => p.parseHeader ch isTrailer) p ch := by
  refine .free ?_ ?_
  · intro thrown h
    simp only [parseHeader] at h
    split_ifs at h <;> cases h <;> rfl
  · intro lim
    simp only [parseHeader]
    split_ifs <;> rfl

theorem parseHeaderName_judged (p : MessageParser) (ch : Byte) (isTrailer : Bool) :
    JudgedStep (fun p => p.parseHeaderName ch isTrailer) p ch := by
  by_cases hch : isCarriageReturn ch = false ∧ (ch == colon) = false ∧ isToken ch = true
  · refine .checked .headerName { p with headerFieldName := p.headerFieldName ++ [ch] } ?_
    intro lim
    simp only [parseHeaderName, hch]
    rfl
  · refine .free ?_ ?_
    · intro thrown h
      simp only [parseHeaderName] at h
      split_ifs at h
      all_goals first | (cases h; rfl) | simp_all
    · intro lim
      simp only [parseHeaderName]
      split_ifs
      all_goals first | rfl | simp_all

theorem parseHeaderValue_judged (p : MessageParser) (ch : Byte) (isTrailer : Bool) :
    JudgedStep (fun p => p.parseHeaderValue ch isTrailer) p ch := by
  by_cases hch : isCarriageReturn ch = false ∧ (!isControl ch) = true
  · refine .checked .headerValue { p with headerFieldValue := p.headerFieldValue ++ [ch] } ?_
    intro lim
    simp only [parseHeaderValue, hch]
    rfl
  · refine .free ?_ ?_
    · intro thrown h
      simp only [parseHeaderValue] at h
      split_ifs at h
      all_goals first | (cases h; rfl) | simp_all
    · intro lim
      simp only [parseHeaderValue]
      split_ifs
      all_goals first | rfl | simp_all

theorem parseHeaderValueLF_judged (p : MessageParser) (ch : Byte) (isTrailer : Bool) :
    JudgedStep (fun p => p.parseHeaderValueLF ch isTrailer) p ch := by
  refine .free ?_ ?_
  · intro thrown h
    simp only [parseHeaderValueLF] at h
    split_ifs at h
    cases h
    rfl
  · intro lim
    simp only [parseHeaderValueLF]
    split_ifs <;> rfl

theorem appendHeader_withLimits (p : MessageParser) (ch : Byte) (lim : Limits) :
    (p.withLimits lim).appendHeader ch =
      if p.headers.size < lim.maxHeadersAmount then
        .ok ({ p with
          headers := p.headers.insert (trim p.headerFieldName, trim p.headerFieldValue)
          headerFieldName := []
          headerFieldValue := [] }.withLimits lim)
      else (p.withLimits lim).throwing ch .tooManyHeaders := by
  by_cases hroom : p.headers.size < lim.maxHeadersAmount
  · rw [if_pos hroom]
    exact appendHeader_of_room (p := p.withLimits lim) hroom
  · rw [if_neg hroom]
    exact appendHeader_of_full (p := p.withLimits lim) (Nat.le_of_not_lt hroom)

theorem parseHeaderValueLWS_judged (p : MessageParser) (ch : Byte) (isTrailer : Bool) :
    JudgedStep (fun p => p.parseHeaderValueLWS ch isTrailer) p ch := by
  by_cases hcr : isCarriageReturn ch = true
  · refine .checked .headersAmount { p with
      headers := p.headers.insert (trim p.headerFieldName, trim p.headerFieldValue)
      headerFieldName := []
      headerFieldValue := []
      state := if isTrailer then .parsingFinalLF else .parsingEndOfHeader } ?_
    intro lim
    simp only [parseHeaderValueLWS, hcr, if_true, appendHeader_withLimits]
    show _ = if p.headers.size < lim.maxHeadersAmount then _ else _
    split_ifs <;> rfl
  by_cases hcolon : (ch == colon) = true
  · refine .free ?_ ?_
    · intro thrown h
      simp only [parseHeaderValueLWS, if_neg hcr, if_pos hcolon] at h
      cases h
      rfl
    · intro lim
      simp only [parseHeaderValueLWS, if_neg hcr, if_pos hcolon]
      rfl
  by_cases hsp : isSpaceOrTab ch = true
  · refine .checked .headerValue { p with
      headerFieldValue := p.headerFieldValue ++ [SP]
      state := if isTrailer then .parsingTrailerHeaderValue else .parsingHeaderValue } ?_
    intro lim
    simp only [parseHeaderValueLWS, if_neg hcr, if_neg hcolon, if_pos hsp]
    rfl
  by_cases htoken : isToken ch = true
  · refine .checked .headersAmount { p with
      headers := p.headers.insert (trim p.headerFieldName, trim p.headerFieldValue)
      headerFieldName := [ch]
      headerFieldValue := []
      state := if isTrailer then .parsingTrailerHeaderName else .parsingHeaderName } ?_
    intro lim
    simp only [parseHeaderValueLWS, if_neg hcr, if_neg hcolon, if_neg hsp, if_pos htoken,
      appendHeader_withLimits]
    show _ = if p.headers.size < lim.maxHeadersAmount then _ else _
    split_ifs <;> rfl
  · refine .free ?_ ?_
    · intro thrown h
      simp only [parseHeaderValueLWS, if_neg hcr, if_neg hcolon, if_neg hsp, if_neg htoken] at h
      cases h
      rfl
    · intro lim
      simp only [parseHeaderValueLWS, if_neg hcr, if_neg hcolon, if_neg hsp, if_neg htoken]
      rfl

theorem parseEndOfHeader_judged (p : MessageParser) (ch : Byte) :
    JudgedStep (fun p => p.parseEndOfHeader ch) p ch := by
  refine .free ?_ ?_
  · intro thrown h
    simp only [parseEndOfHeader] at h
    cases hread : toUnsignedInt (p.headers.value (str "Content-Length")) false with
    | error e =>
        simp only [hread] at h
        split_ifs at h <;> cases h <;> rfl
    | ok n =>
        simp only [hread] at h
        split_ifs at h
        cases h
        rfl
  · intro lim
    by_cases hlf : isLineFeed ch = true
    swap
    · simp only [parseEndOfHeader, hlf]
      rfl
    by_cases hchunked : p.headers.haveValue (str "Transfer-Encoding") (str "chunked") = true
    · simp only [parseEndOfHeader, headers_withLimits, hlf, hchunked, if_true]
      rfl
    by_cases hlength : p.headers.haveHeader (str "Content-Length") = true
    swap
    · simp only [parseEndOfHeader, headers_withLimits, hlf, hchunked, hlength, if_true]
      rfl
    simp only [parseEndOfHeader, headers_withLimits, hlf, hchunked, hlength, if_true]
    cases toUnsignedInt (p.headers.value (str "Content-Length")) false with
    | error e => rfl
    | ok n =>
        simp only
        split_ifs <;> rfl

theorem parseChunkSize_judged (p : MessageParser) (ch : Byte) :
    JudgedStep (fun p => p.parseChunkSize ch) p ch := by
  refine .free ?_ ?_
  · intro thrown h
    simp only [parseChunkSize] at h
    cases hread : toUnsignedInt p.chunkSizeStr true with
    | error e =>
        simp only [hread] at h
        split_ifs at h <;> cases h <;> rfl
    | ok n =>
        simp only [hread] at h
        split_ifs at h
        cases h
        rfl
  · intro lim
    simp only [parseChunkSize, chunkSizeStr_withLimits]
    cases hread : toUnsignedInt p.chunkSizeStr true with
    | error e =>
        simp only
        split_ifs <;> rfl
    | ok n =>
        simp only
        split_ifs <;> rfl

theorem Judged.of_eq {α : Type} {relim : Limits → α → α} {f g : MessageParser → Except Thrown α}
    {p : MessageParser} {ch : Byte} (h : Judged relim f p ch)
    (heq : ∀ lim, g (p.withLimits lim) = f (p.withLimits lim)) : Judged relim g p ch := by
  have hself : g p = f p := heq p.limits
  cases h with
  | free hcode hf =>
      exact .free (fun thrown hg => hcode thrown (hself ▸ hg)) fun lim => by rw [heq, hf, hself]
  | checked l r hf => exact .checked l r fun lim => (heq lim).trans (hf lim)

/-- A token takes one more character while it is shorter than its limit; what else it
does with a byte is free. -/
theorem Judged.token {relim : Limits → MessageParser → MessageParser}
    {f : MessageParser → Except Thrown MessageParser} {p r : MessageParser} {ch : Byte} (l : Limit)
    (grows : Prop) [Decidable grows]
    (hgrows : grows → ∀ lim, f (p.withLimits lim) =
      if l.used p ≥ l.get lim then (p.withLimits lim).throwing ch l.code else .ok (relim lim r))
    (hcode : ¬ grows → ∀ thrown, f p = .error thrown → thrown.exception.code.isLimit = false)
    (hf : ¬ grows → ∀ lim, f (p.withLimits lim) = relimit relim lim (f p)) :
    Judged relim f p ch := by
  by_cases h : grows
  · refine .checked l r fun lim => ?_
    rw [hgrows h lim]
    simp only [ge_iff_le, ← Nat.not_lt, ite_not]
  · exact .free (hcode h) (hf h)

/-- What the limits have to do with the `switch`, in every state. -/
theorem parseState_judged (p : MessageParser) (ch : Byte) :
    JudgedStep (fun p => p.parseState ch) p ch := by
  cases hstate : p.state with
  | parsingFirstToken =>
      refine .token .firstToken (r := { p with firstToken := p.firstToken ++ [ch] })
        (isSpaceOrTab ch = false ∧ (isChar ch && !isControl ch) = true) ?_ ?_ ?_
      · intro hch lim
        simp only [parseState, state_withLimits, hstate, hch]
        rfl
      · intro hch thrown h
        simp only [parseState, hstate] at h
        split_ifs at h
        all_goals first | (cases h; rfl) | simp_all
      · intro hch lim
        simp only [parseState, state_withLimits, hstate]
        split_ifs
        all_goals first | rfl | simp_all
  | parsingSecondToken =>
      refine .token .secondToken (r := { p with secondToken := p.secondToken ++ [ch] })
        (isSpaceOrTab ch = false ∧ (isChar ch && !isControl ch) = true) ?_ ?_ ?_
      · intro hch lim
        simp only [parseState, state_withLimits, hstate, hch]
        rfl
      · intro hch thrown h
        simp only [parseState, hstate] at h
        split_ifs at h
        all_goals first | (cases h; rfl) | simp_all
      · intro hch lim
        simp only [parseState, state_withLimits, hstate]
        split_ifs
        all_goals first | rfl | simp_all
  | parsingThirdToken =>
      refine .token .thirdToken (r := { p with thirdToken := p.thirdToken ++ [ch] })
        (isCarriageReturn ch = false ∧ (isChar ch && !isControl ch) = true) ?_ ?_ ?_
      · intro hch lim
        simp only [parseState, state_withLimits, hstate, hch]
        rfl
      · intro hch thrown h
        simp only [parseState, hstate] at h
        split_ifs at h
        all_goals first | (cases h; rfl) | simp_all
      · intro hch lim
        simp only [parseState, state_withLimits, hstate]
        split_ifs
        all_goals first | rfl | simp_all
  | parsingHeader =>
      exact (parseHeader_judged p ch false).of_eq fun lim => by
        simp only [parseState, state_withLimits, hstate]
  | parsingHeaderName =>
      exact (parseHeaderName_judged p ch false).of_eq fun lim => by
        simp only [parseState, state_withLimits, hstate]
  | parsingHeaderValue =>
      exact (parseHeaderValue_judged p ch false).of_eq fun lim => by
        simp only [parseState, state_withLimits, hstate]
  | parsingHeaderValueLF =>
      exact (parseHeaderValueLF_judged p ch false).of_eq fun lim => by
        simp only [parseState, state_withLimits, hstate]
  | parsingHeaderValueLWS =>
      exact (parseHeaderValueLWS_judged p ch false).of_eq fun lim => by
        simp only [parseState, state_withLimits, hstate]
  | parsingEndOfHeader =>
      exact (parseEndOfHeader_judged p ch).of_eq fun lim => by
        simp only [parseState, state_withLimits, hstate]
  | parsingChunkSize =>
      exact (parseChunkSize_judged p ch).of_eq fun lim => by
        simp only [parseState, state_withLimits, hstate]
  | parsingTrailerHeader =>
      exact (parseHeader_judged p ch true).of_eq fun lim => by
        simp only [parseState, state_withLimits, hstate]
  | parsingTrailerHeaderName =>
      exact (parseHeaderName_judged p ch true).of_eq fun lim => by
        simp only [parseState, state_withLimits, hstate]
  | parsingTrailerHeaderValue =>
      exact (parseHeaderValue_judged p ch true).of_eq fun lim => by
        simp only [parseState, state_withLimits, hstate]
  | parsingTrailerHeaderValueLF =>
      exact (parseHeaderValueLF_judged p ch true).of_eq fun lim => by
        simp only [parseState, state_withLimits, hstate]
  | parsingTrailerHeaderValueLWS =>
      exact (parseHeaderValueLWS_judged p ch true).of_eq fun lim => by
        simp only [parseState, state_withLimits, hstate]
  -- the other states look at the byte and at counters
  | _ =>
      cases p
      cases hstate
      refine .free ?_ ?_
      · intro thrown h
        simp only [parseState] at h
        split_ifs at h <;> cases h <;> rfl
      · intro lim
        dsimp only [parseState, withLimits]
        split_ifs <;> rfl

theorem updatePosition_withLimits (p : MessageParser) (ch : Byte) (lim : Limits) :
    (p.withLimits lim).updatePosition ch = (p.updatePosition ch).withLimits lim := by
  unfold updatePosition
  split <;> rfl

theorem parse_eq_map (p : MessageParser) (ch : Byte) :
    p.parse ch = (p.parseState ch).map fun p' =>
      (p'.updatePosition ch, ⟨p.bodyExpected, p'.isCompleted⟩) := by
  cases h : p.parseState ch with
  | error thrown => simp [parse, h, bind, Except.bind, Except.map]
  | ok p' => exact parse_of_ok h

/-- **What the limits have to do with a byte.** -/
theorem judged_parse (p : MessageParser) (ch : Byte) :
    Judged (fun lim r => (r.1.withLimits lim, r.2)) (fun p => p.parse ch) p ch := by
  cases parseState_judged p ch with
  | free hcode hf =>
      refine .free ?_ ?_
      · intro thrown h
        cases hstep : p.parseState ch with
        | error e =>
            obtain rfl : e = thrown := by simpa [parse_eq_map, hstep, Except.map] using h
            exact hcode e hstep
        | ok p' => simp [parse_eq_map, hstep, Except.map] at h
      · intro lim
        simp only [parse_eq_map, hf]
        cases p.parseState ch with
        | error e => rfl
        | ok p' => simp only [relimit, Except.map, updatePosition_withLimits]; rfl
  | checked l r hf =>
      refine .checked l (r.updatePosition ch, ⟨p.bodyExpected, r.isCompleted⟩) fun lim => ?_
      simp only [parse_eq_map, hf]
      split_ifs
      · simp only [Except.map, updatePosition_withLimits]
        rfl
      · rfl

/-! ### Two parsers that differ in their limits -/

section TwoLimits

variable {p : MessageParser} {a b : Limits} {ch : Byte} {r r' : MessageParser × Flags}
  {thrown : Thrown}

/-- A byte that is let in under larger limits too is answered alike. -/
theorem parse_within (hab : a.Within b) (ha : (p.withLimits a).parse ch = .ok r) :
    (p.withLimits b).parse ch = .ok (r.1.withLimits b, r.2) ∧ r.1.limits = a := by
  cases judged_parse p ch with
  | free hcode hf =>
      rw [hf] at ha ⊢
      cases hp : p.parse ch with
      | error e => simp [hp, relimit] at ha
      | ok r₀ =>
          simp only [hp, relimit, Except.ok.injEq] at ha ⊢
          subst ha
          exact ⟨rfl, rfl⟩
  | checked l r₀ hf =>
      by_cases hroom : l.used p < l.get a
      · rw [hf, if_pos hroom] at ha
        cases ha
        rw [hf, if_pos (hroom.trans_le (hab.get_le l))]
        exact ⟨rfl, rfl⟩
      · rw [hf, if_neg hroom] at ha
        cases ha

theorem parse_agrees (ha : (p.withLimits a).parse ch = .ok r)
    (hb : (p.withLimits b).parse ch = .ok r') : r' = (r.1.withLimits b, r.2) := by
  cases judged_parse p ch with
  | free hcode hf =>
      rw [hf] at ha hb
      cases hp : p.parse ch with
      | error e => simp [hp, relimit] at ha
      | ok r₀ =>
          simp only [hp, relimit, Except.ok.injEq] at ha hb
          subst ha hb
          rfl
  | checked l r₀ hf =>
      rw [hf] at ha hb
      split_ifs at ha hb <;> cases ha <;> cases hb
      rfl

/-- A byte that the grammar refuses is refused under all limits, with the same exception. -/
theorem parse_refused (ha : (p.withLimits a).parse ch = .error thrown)
    (hcode : thrown.exception.code.isLimit = false) (b : Limits) :
    (p.withLimits b).parse ch = .error { thrown with parser := thrown.parser.withLimits b } := by
  cases judged_parse p ch with
  | free _ hf =>
      rw [hf] at ha ⊢
      cases hp : p.parse ch with
      | error e =>
          simp only [hp, relimit, Except.error.injEq] at ha ⊢
          subst ha
          rfl
      | ok r₀ => simp [hp, relimit] at ha
  | checked l r₀ hf =>
      rw [hf] at ha
      split_ifs at ha
      cases ha
      simp at hcode

/-- A byte that a limit refuses is let in when the limits are large enough. -/
theorem exists_parse_ok (ha : (p.withLimits a).parse ch = .error thrown)
    (hcode : thrown.exception.code.isLimit = true) :
    ∃ n r, (p.withLimits (a.raised n)).parse ch = .ok r := by
  cases judged_parse p ch with
  | free hfree hf =>
      rw [hf] at ha
      cases hp : p.parse ch with
      | error e =>
          simp only [hp, relimit, Except.error.injEq] at ha
          subst ha
          simp [hfree e hp] at hcode
      | ok r₀ => simp [hp, relimit] at ha
  | checked l r₀ hf =>
      exact ⟨l.used p + 1, _, (hf _).trans (if_pos (a.le_get_raised _ l))⟩

end TwoLimits

/-- With larger limits a parser reads on from where it is. -/
theorem machine_extends {a b : Limits} (hab : a.Within b) :
    Transducer.Extends machine machine (fun p => p.limits = a) (fun p => p.withLimits b) where
  step_ok := by
    rintro p ch p' flags rfl hstep
    obtain ⟨hparse, hlimits⟩ := parse_within (p := p) hab hstep
    exact ⟨hlimits, hparse⟩
  emit_eq := rfl
  last_eq := rfl

theorem run_within {a b : Limits} (hab : a.Within b) {s : Bytes}
    {rs : List (MessageParser × Flags)} (h : machine.run (create a) s = .ok rs) :
    (∀ r ∈ rs, r.1.limits = a) ∧
      machine.run (create b) s = .ok (rs.map fun r => (r.1.withLimits b, r.2)) :=
  (machine_extends hab).run_ok rfl h

/-- Limits under which a stream is consumed leave the same parser, but for the limits. -/
theorem run_agrees {p : MessageParser} {a b : Limits} {s : Bytes}
    {rs rs' : List (MessageParser × Flags)} (ha : machine.run (p.withLimits a) s = .ok rs)
    (hb : machine.run (p.withLimits b) s = .ok rs') :
    rs' = rs.map (fun r => (r.1.withLimits b, r.2)) ∧ ∀ r ∈ rs, r.1.limits = a := by
  induction s generalizing p rs rs' with
  | nil =>
      cases ha
      cases hb
      exact ⟨rfl, by simp⟩
  | cons ch s ih =>
      obtain ⟨r, rs, hstep, hrest, rfl⟩ := (Transducer.run_cons_ok_iff _ _ _ _ _).mp ha
      obtain ⟨r', rs', hstep', hrest', rfl⟩ := (Transducer.run_cons_ok_iff _ _ _ _ _).mp hb
      obtain rfl := parse_agrees hstep hstep'
      have hself : r = (r.1.withLimits a, r.2) := parse_agrees hstep hstep
      have hlimits : r.1.limits = a := by rw [hself]; rfl
      have hrest : machine.run (r.1.withLimits a) s = .ok rs := by rwa [← hlimits]
      obtain ⟨rfl, hrs⟩ := ih hrest hrest'
      exact ⟨rfl, List.forall_mem_cons.mpr ⟨hlimits, hrs⟩⟩

theorem accepted_iff_machine {lim : Limits} {s : Bytes} {m : Shown} {body : Bytes} :
    Accepted lim s m body ↔ ∃ u, machine.Accepts (create lim) s u body ∧ u.shown = m := by
  constructor
  · rintro ⟨rs, hrun, hends, hshown, hpayload⟩
    exact ⟨_, (Transducer.accepts_iff_run _ _ _ _ _).mpr ⟨rs, hrun, hends, rfl, hpayload.symm⟩,
      hshown⟩
  · rintro ⟨u, hacc, rfl⟩
    obtain ⟨rs, hrun, hends, rfl, rfl⟩ := (Transducer.accepts_iff_run _ _ _ _ _).mp hacc
    exact ⟨rs, hrun, hends, rfl, rfl⟩

theorem Accepted.within {lim top : Limits} {s : Bytes} {m : Shown} {body : Bytes}
    (h : Accepted lim s m body) (htop : lim.Within top) : Accepted top s m body := by
  obtain ⟨u, hacc, rfl⟩ := accepted_iff_machine.mp h
  exact accepted_iff_machine.mpr ⟨_, ((machine_extends htop).accepts rfl hacc).2, rfl⟩

/-- Limits that accept a stream agree on what it means. -/
theorem Accepted.agrees {lim lim' : Limits} {s : Bytes} {m m' : Shown} {body body' : Bytes}
    (h : Accepted lim s m body) (h' : Accepted lim' s m' body') : m' = m ∧ body' = body := by
  obtain ⟨rs, hrun, -, rfl, rfl⟩ := h
  obtain ⟨rs', hrun', -, rfl, rfl⟩ := h'
  obtain ⟨rfl, -⟩ := run_agrees (p := create lim) (a := lim) (b := lim') hrun hrun'
  refine ⟨?_, Transducer.payload_map machine (fun p => p.withLimits lim') s rs⟩
  have hlast := Transducer.lastState_map (fun p => p.withLimits lim') (create lim) rs
  exact (congrArg shown hlast).trans rfl

/-- **Limits only refuse.** What is accepted under some limits is accepted under larger
ones, and means the same under all limits that accept it. -/
theorem limits_only_refuse (lim : Limits) (s : Bytes) (m : Shown) (body : Bytes)
    (h : Accepted lim s m body) :
    (∀ top, lim.Within top → Accepted top s m body) ∧
      ∀ lim' m' body', Accepted lim' s m' body' → m' = m ∧ body' = body :=
  ⟨fun _ htop => h.within htop, fun _ _ _ h' => h.agrees h'⟩

theorem limits_only_refuse_fitting :
    Accepted ⟨4, 1, 8, 0, 0, 0⟩ (str "a b c\r\n\r\n") ⟨str "a", str "b", str "c", ∅⟩ [] :=
  (limits_only_refuse ⟨1, 1, 1, 0, 0, 0⟩ _ _ _ (by decide +kernel)).1 ⟨4, 1, 8, 0, 0, 0⟩
    (by constructor <;> decide)

/-- **Which refusals are final.** A byte is refused with the code of a limit if and only
if it is let in under some limits; and with any other code it is refused, with the same
exception, under all limits that let in the bytes before it. -/
theorem refusal_final_iff (lim : Limits) (s : Bytes) (rs : List (MessageParser × Flags))
    (ch : Byte) (thrown : Thrown) (hrun : machine.run (create lim) s = .ok rs)
    (hthrow : (Transducer.lastState (create lim) rs).parse ch = .error thrown) :
    (thrown.exception.code.isLimit = true ↔
      ∃ top rs', machine.run (create top) (s ++ [ch]) = .ok rs') ∧
    (thrown.exception.code.isLimit = false → ∀ lim' rs',
      machine.run (create lim') s = .ok rs' →
        ∃ thrown', (Transducer.lastState (create lim') rs').parse ch = .error thrown' ∧
          thrown'.exception = thrown.exception) := by
  have hlast : ∀ lim' rs', machine.run (create lim') s = .ok rs' →
      Transducer.lastState (create lim') rs' =
        (Transducer.lastState (create lim) rs).withLimits lim' := by
    intro lim' rs' hrun'
    obtain ⟨rfl, -⟩ := run_agrees (p := create lim) (a := lim) (b := lim') hrun hrun'
    exact Transducer.lastState_map (fun p => p.withLimits lim') (create lim) rs
  have hself := hlast lim rs hrun
  rw [hself] at hthrow
  have hfinal : thrown.exception.code.isLimit = false → ∀ lim' rs',
      machine.run (create lim') s = .ok rs' →
        ∃ thrown', (Transducer.lastState (create lim') rs').parse ch = .error thrown' ∧
          thrown'.exception = thrown.exception := by
    intro hcode lim' rs' hrun'
    rw [hlast lim' rs' hrun']
    exact ⟨_, parse_refused hthrow hcode lim', rfl⟩
  refine ⟨⟨?_, ?_⟩, hfinal⟩
  · intro hcode
    obtain ⟨n, r, hr⟩ := exists_parse_ok hthrow hcode
    have htop := (run_within (lim.within_raised n) hrun).2
    refine ⟨lim.raised n, _, (Transducer.run_append_ok_iff _ _ _ _ _).mpr
      ⟨_, [r], htop, ?_, rfl⟩⟩
    rw [hlast _ _ htop]
    exact (Transducer.run_cons_ok_iff _ _ _ _ _).mpr ⟨r, [], hr, rfl, rfl⟩
  · rintro ⟨top, rs', hrun'⟩
    obtain ⟨rs₁, rs₂, h₁, h₂, -⟩ := (Transducer.run_append_ok_iff _ _ _ _ _).mp hrun'
    obtain ⟨r, -, hr, -, -⟩ := (Transducer.run_cons_ok_iff _ _ _ _ _).mp h₂
    by_contra hcode
    obtain ⟨thrown', hthrow', -⟩ := hfinal (by simpa using hcode) top rs₁ h₁
    have hr : (Transducer.lastState (create top) rs₁).parse ch = .ok r := hr
    simp [hr] at hthrow'

theorem refusal_final_iff_token :
    ∃ top rs', machine.run (create top) (str "a" ++ [0x61]) = .ok rs' :=
  ((refusal_final_iff ⟨1, 1, 1, 1, 1, 1⟩ (str "a") _ 0x61 _ rfl rfl).1).mp rfl

end MessageParser

/-! ### Limits set at any moment -/

inductive TunedCall
  | call (call : Call)
  | setMaxHeaderNameLength (newValue : ℕ)
  | setMaxHeaderValueLength (newValue : ℕ)
  | setMaxHeadersAmount (newValue : ℕ)
  deriving DecidableEq, Repr

/-- The call sets no limit above those of `top`. -/
def TunedCall.Within (top : Limits) : TunedCall → Prop
  | call _ => True
  | setMaxHeaderNameLength newValue => newValue ≤ top.maxHeaderNameLength
  | setMaxHeaderValueLength newValue => newValue ≤ top.maxHeaderValueLength
  | setMaxHeadersAmount newValue => newValue ≤ top.maxHeadersAmount

def TunedCall.isCall : TunedCall → Bool
  | call _ => true
  | _ => false

/-- A parser, and what every call of `parse` has given its caller. -/
structure Tuned where
  parser : MessageParser
  answers : List (Except Exception Flags)
  deriving DecidableEq

namespace Tuned

def start (lim : Limits) : Tuned := ⟨.create lim, []⟩

def step (s : Tuned) : TunedCall → Tuned
  | .call .reset => { s with parser := s.parser.reset }
  | .call (.parse ch) =>
      match s.parser.parse ch with
      | .error thrown => ⟨thrown.parser, s.answers ++ [.error thrown.exception]⟩
      | .ok (p, flags) => ⟨p, s.answers ++ [.ok flags]⟩
  | .setMaxHeaderNameLength newValue =>
      { s with parser := s.parser.setMaxHeaderNameLength newValue }
  | .setMaxHeaderValueLength newValue =>
      { s with parser := s.parser.setMaxHeaderValueLength newValue }
  | .setMaxHeadersAmount newValue => { s with parser := s.parser.setMaxHeadersAmount newValue }

def after (lim : Limits) (calls : List TunedCall) : Tuned := calls.foldl step (start lim)

/-- No byte has been refused with the code of a limit. -/
def Unlimited (s : Tuned) : Prop :=
  ∀ e, .error e ∈ s.answers → e.code.isLimit = false

variable {lim top : Limits}

theorem after_append_singleton (calls : List TunedCall) (call : TunedCall) :
    after lim (calls ++ [call]) = (after lim calls).step call := by
  simp [after]

theorem step_parse_of_ok {s : Tuned} {ch : Byte} {p : MessageParser} {flags : Flags}
    (h : s.parser.parse ch = .ok (p, flags)) :
    s.step (.call (.parse ch)) = ⟨p, s.answers ++ [.ok flags]⟩ := by
  simp [step, h]

theorem step_parse_of_error {s : Tuned} {ch : Byte} {thrown : Thrown}
    (h : s.parser.parse ch = .error thrown) :
    s.step (.call (.parse ch)) = ⟨thrown.parser, s.answers ++ [.error thrown.exception]⟩ := by
  simp [step, h]

/-- The limits in force are within `top`, and the phase is safe under `top`. -/
structure Bounded (top : Limits) (s : Tuned) : Prop where
  limits : s.parser.limits.Within top
  clean : s.parser.Clean
  safe : s.parser.view.Safe top

end Tuned

/-- A step under some limits is one under larger limits. -/
theorem Phase.Moves.within {lim top : Limits} (htop : lim.Within top) {q q' : Phase} {ch : Byte}
    (h : Moves lim q ch q') : Moves top q ch q' := by
  induction h with
  | firstMore hch hroom => exact .firstMore hch (hroom.trans_le htop.firstToken)
  | secondMore hch hroom => exact .secondMore hch (hroom.trans_le htop.secondToken)
  | thirdMore hch hroom => exact .thirdMore hch (hroom.trans_le htop.thirdToken)
  | nameMore hch hroom => exact .nameMore hch (hroom.trans_le htop.headerName)
  | valueMore hch hroom => exact .valueMore hch (hroom.trans_le htop.headerValue)
  | fold hch hroom => exact .fold hch (hroom.trans_le htop.headerValue)
  | store hroom _ ih => exact .store (hroom.trans_le htop.headersAmount) ih
  | _ => constructor <;> assumption

namespace Tuned

variable {lim top : Limits}

theorem Bounded.parse_cases {s : Tuned} (h : s.Bounded top) (ch : Byte) :
    (∃ thrown, s.parser.parse ch = .error thrown ∧ thrown.parser = s.parser) ∨
      ∃ p flags, s.parser.parse ch = .ok (p, flags) ∧ p.limits = s.parser.limits ∧ p.Clean ∧
        p.view.Safe top := by
  rcases MessageParser.parse_cases h.clean ch with
    ⟨code, hthrow, -⟩ | ⟨p, flags, hok, hp, hlimits, hparse⟩
  · exact .inl ⟨_, hthrow, rfl⟩
  · obtain ⟨hstep, -⟩ := Phase.step_ok_iff.mp hparse
    have hmoves := (Phase.moves_of_next hstep).within h.limits
    exact .inr ⟨p, flags, hok, hlimits, hp, h.safe.next hmoves⟩

theorem Bounded.step {s : Tuned} {call : TunedCall} (h : s.Bounded top) (hcall : call.Within top) :
    (s.step call).Bounded top := by
  cases call with
  | call call =>
      cases call with
      | reset => exact ⟨h.limits, MessageParser.clean_reset _, Phase.safe_initial top⟩
      | parse ch =>
          rcases h.parse_cases ch with ⟨thrown, hthrow, hp⟩ | ⟨p, flags, hok, hlimits, hp, hsafe⟩
          · rw [step_parse_of_error hthrow, hp]
            exact ⟨h.limits, h.clean, h.safe⟩
          · rw [step_parse_of_ok hok]
            exact ⟨hlimits ▸ h.limits, hp, hsafe⟩
  | setMaxHeaderNameLength n => exact ⟨{ h.limits with headerName := hcall }, h.clean, h.safe⟩
  | setMaxHeaderValueLength n => exact ⟨{ h.limits with headerValue := hcall }, h.clean, h.safe⟩
  | setMaxHeadersAmount n => exact ⟨{ h.limits with headersAmount := hcall }, h.clean, h.safe⟩

theorem bounded_after (hlim : lim.Within top) {calls : List TunedCall}
    (hcalls : ∀ call ∈ calls, call.Within top) : (after lim calls).Bounded top := by
  induction calls using List.reverseRecOn with
  | nil => exact ⟨hlim, MessageParser.clean_create lim, Phase.safe_initial top⟩
  | append_singleton calls call ih =>
      rw [after_append_singleton]
      exact (ih fun c hc => hcalls c (by simp [hc])).step (hcalls call (by simp))

/-- **However the limits are set, the parser stays within the largest of them**, and a
rejected byte leaves it as it was. -/
theorem safe_under_top (lim top : Limits) (hlim : lim.Within top) (calls : List TunedCall)
    (hcalls : ∀ call ∈ calls, call.Within top) :
    (after lim calls).parser.shown.Safe top ∧
      ∀ ch thrown, (after lim calls).parser.parse ch = .error thrown →
        thrown.parser = (after lim calls).parser := by
  have hbounded := bounded_after hlim hcalls
  refine ⟨?_, ?_⟩
  · rw [← MessageParser.shown_view hbounded.clean]
    exact hbounded.safe.shown
  · intro ch thrown hthrow
    rcases hbounded.parse_cases ch with ⟨thrown', hthrow', hp⟩ | ⟨p, flags, hok, -⟩
    · obtain rfl : thrown' = thrown := by simpa [hthrow'] using hthrow
      exact hp
    · simp [hok] at hthrow

/-- A header that is stored under limits raised in the middle of its name, and a byte that is
refused when the limit of names has been taken back. -/
theorem safe_under_top_raised : ∃ s thrown,
    after ⟨1, 1, 1, 1, 1, 1⟩ ((str "a b c\r\nX").map (fun ch => .call (.parse ch)) ++
      [.setMaxHeaderNameLength 4, .setMaxHeaderValueLength 2] ++
      (str "-Ab: y\r\n\r").map (fun ch => .call (.parse ch)) ++ [.setMaxHeaderNameLength 0]) = s ∧
    s.parser.limits = ⟨1, 1, 1, 0, 2, 1⟩ ∧ s.parser.shown.Safe ⟨1, 1, 1, 4, 2, 1⟩ ∧
    s.parser.shown = ⟨str "a", str "b", str "c", (∅ : Headers).insert (str "X-Ab", str "y")⟩ ∧
    s.parser.parse 0x7A = .error thrown ∧ thrown.exception.code = .invalidHeaderLF ∧
    thrown.parser = s.parser := by
  have hrule := safe_under_top ⟨1, 1, 1, 1, 1, 1⟩ ⟨1, 1, 1, 4, 2, 1⟩ (by constructor <;> decide)
    ((str "a b c\r\nX").map (fun ch => .call (.parse ch)) ++
      [.setMaxHeaderNameLength 4, .setMaxHeaderValueLength 2] ++
      (str "-Ab: y\r\n\r").map (fun ch => .call (.parse ch)) ++ [.setMaxHeaderNameLength 0])
    (by simp [List.forall_mem_append, TunedCall.Within, -List.mem_append])
  generalize hs : after _ _ = s at hrule
  have hcode : (s.parser.parse 0x7A).mapError (fun t => t.exception.code) =
      .error .invalidHeaderLF := by
    rw [← hs]
    decide +kernel
  obtain ⟨thrown, hparse, hthrown⟩ := mapError_eq_error_iff.mp hcode
  refine ⟨s, thrown, rfl, ?_, hrule.1, ?_, hparse, hthrown, hrule.2 _ thrown hparse⟩
  all_goals
    rw [← hs]
    decide +kernel

theorem Unlimited.of_step {s : Tuned} {call : TunedCall} (h : (s.step call).Unlimited) :
    s.Unlimited := by
  cases call with
  | call call =>
      cases call with
      | reset => exact h
      | parse ch =>
          cases hparse : s.parser.parse ch with
          | error thrown =>
              rw [step_parse_of_error hparse] at h
              exact fun e he => h e (by simp [he])
          | ok r =>
              rw [step_parse_of_ok hparse] at h
              exact fun e he => h e (by simp [he])
  | _ => exact h

/-- A call that is not refused for a limit does the same under larger limits. -/
theorem step_withLimits {s : Tuned} {call : Call} (h : s.Bounded top)
    (hfree : (s.step (.call call)).Unlimited) :
    step ⟨s.parser.withLimits top, s.answers⟩ (.call call) =
      ⟨(s.step (.call call)).parser.withLimits top, (s.step (.call call)).answers⟩ := by
  cases call with
  | reset => rfl
  | parse ch =>
      cases hparse : s.parser.parse ch with
      | error thrown =>
          rw [step_parse_of_error hparse] at hfree ⊢
          have hcode := hfree thrown.exception (by simp)
          have htop := MessageParser.parse_refused (p := s.parser) (a := s.parser.limits)
            hparse hcode top
          exact step_parse_of_error (s := ⟨s.parser.withLimits top, s.answers⟩) htop
      | ok r =>
          rw [step_parse_of_ok hparse]
          have htop := (MessageParser.parse_within (p := s.parser) (a := s.parser.limits)
            h.limits hparse).1
          exact step_parse_of_ok (s := ⟨s.parser.withLimits top, s.answers⟩) htop

theorem step_setter {s : Tuned} {call : TunedCall} (h : call.isCall = false) :
    (⟨(s.step call).parser.withLimits top, (s.step call).answers⟩ : Tuned) =
      ⟨s.parser.withLimits top, s.answers⟩ := by
  cases call with
  | call call => cases h
  | _ => rfl

/-- **Limits that refuse nothing can as well be fixed.** In a run in which limits are set
at any moment and no byte is refused for a limit, every call of `parse` answers as in the
run without the setters of a parser that has larger limits from the beginning, and both
runs end in the same parser but for the limits. -/
theorem after_eq_of_unlimited (lim top : Limits) (hlim : lim.Within top)
    (calls : List TunedCall) (hcalls : ∀ call ∈ calls, call.Within top)
    (hfree : (after lim calls).Unlimited) :
    after top (calls.filter TunedCall.isCall) =
      ⟨(after lim calls).parser.withLimits top, (after lim calls).answers⟩ := by
  induction calls using List.reverseRecOn with
  | nil => rfl
  | append_singleton calls call ih =>
      have hwithin : ∀ c ∈ calls, c.Within top := fun c hc => hcalls c (by simp [hc])
      rw [after_append_singleton] at hfree ⊢
      have hbefore := ih hwithin hfree.of_step
      rw [List.filter_append]
      cases hcall : call.isCall with
      | false =>
          rw [List.filter_singleton, hcall, step_setter hcall]
          simpa using hbefore
      | true =>
          obtain ⟨call, rfl⟩ : ∃ c, call = .call c := by
            cases call with
            | call call => exact ⟨call, rfl⟩
            | _ => cases hcall
          rw [List.filter_singleton, hcall, cond_true, after_append_singleton, hbefore]
          exact step_withLimits (bounded_after hlim hwithin) hfree

theorem after_eq_of_unlimited_token :
    after ⟨4, 4, 4, 4, 4, 4⟩
        ([.call (.parse 0x61), .setMaxHeadersAmount 2, .call (.parse 0x62)].filter
          TunedCall.isCall) =
      ⟨(after ⟨2, 1, 1, 1, 1, 1⟩ [.call (.parse 0x61), .setMaxHeadersAmount 2,
          .call (.parse 0x62)]).parser.withLimits ⟨4, 4, 4, 4, 4, 4⟩,
        [.ok ⟨false, false⟩, .ok ⟨false, false⟩]⟩ :=
  after_eq_of_unlimited ⟨2, 1, 1, 1, 1, 1⟩ ⟨4, 4, 4, 4, 4, 4⟩ (by constructor <;> decide)
    [.call (.parse 0x61), .setMaxHeadersAmount 2, .call (.parse 0x62)]
    (by simp [TunedCall.Within]) (by
      intro e he
      have hnone : ∀ a ∈ (after ⟨2, 1, 1, 1, 1, 1⟩ [.call (.parse 0x61), .setMaxHeadersAmount 2,
          .call (.parse 0x62)]).answers, a = .ok ⟨false, false⟩ := by decide +kernel
      exact absurd (hnone _ he) (by simp))

end Tuned

end Httpxx
