import Httpxx.Composer.Buffers

/-!
The stream composers on a stream that has been, and will be, used for something else.
Between the calls the caller inserts integers of its own. An integer base and flags that
are set on a stream stay until they are changed: a composer that sets one changes what
the caller writes afterwards, and one that relies on the default writes what the caller
has set. The chunk composers do both; the other two write no integer to the target.
-/

namespace Httpxx

open Library

inductive Integer
  | unsigned (n : ℕ)
  | signed (bits : ℕ) (n : ℤ)
  deriving DecidableEq, Repr

namespace OStream

def signedDecimal (n : ℤ) : Bytes :=
  if n < 0 then 0x2D :: decimal n.natAbs else decimal n.natAbs

/-- Insert an integer. In a base other than ten a signed one is written as the unsigned
one of the same bits. -/
def putInteger (os : OStream) : Integer → OStream
  | .unsigned n => os.putUnsigned n
  | .signed bits n =>
      match os.base with
      | .dec => os.putString (signedDecimal n)
      | .hex | .oct => os.putUnsigned (n % 2 ^ bits).toNat

/-- The integer base and the flags, which persist. -/
def format (os : OStream) : Base × Bool × Bool := (os.base, os.showbase, os.uppercase)

theorem unsignedText_congr {os os' : OStream} (h : os'.format = os.format) (n : ℕ) :
    os'.unsignedText n = os.unsignedText n := by
  simp only [format, Prod.mk.injEq] at h
  obtain ⟨hbase, hshowbase, huppercase⟩ := h
  rw [unsignedText, unsignedText, basePrefix, basePrefix, hbase, hshowbase, huppercase]

theorem putInteger_of_format (os : OStream) (i : Integer) :
    ∃ text, ∀ os' : OStream, os'.width = 0 → os'.format = os.format →
      os'.putInteger i = os'.append text := by
  cases i with
  | unsigned n =>
      refine ⟨os.unsignedText n, fun os' hwidth hformat => ?_⟩
      rw [putInteger, putUnsigned_of_width hwidth, unsignedText_congr hformat]
  | signed bits n =>
      by_cases hbase : os.base = .dec
      · refine ⟨signedDecimal n, fun os' hwidth hformat => ?_⟩
        have hbase' : os'.base = .dec := (congrArg Prod.fst hformat).trans hbase
        rw [putInteger, hbase', putString_of_width hwidth]
      · refine ⟨os.unsignedText (n % 2 ^ bits).toNat, fun os' hwidth hformat => ?_⟩
        have hbase' : os'.base ≠ .dec := fun h => hbase ((congrArg Prod.fst hformat).symm.trans h)
        rw [← unsignedText_congr hformat, ← putUnsigned_of_width hwidth, putInteger]
        cases hos : os'.base with
        | dec => exact absurd hos hbase'
        | hex => rfl
        | oct => rfl

/-- The stream renders a number as `std::hex` alone would have it rendered. -/
def RendersHex (os : OStream) (n : ℕ) : Prop :=
  os.showbase = false ∧ (os.uppercase = false ∨ ∀ d ∈ digitsOf 16 n, d < 10)

theorem digitChar_eq_iff {d : ℕ} (hd : d < 16) (uppercase : Bool) :
    digitChar uppercase d = digitChar false d ↔ uppercase = false ∨ d < 10 := by
  revert d uppercase
  decide

theorem basePrefix_setHex {os : OStream} {n : ℕ} (hn : 0 < n) :
    os.setHex.basePrefix n = [] ↔ os.showbase = false := by
  have hne : n ≠ 0 := hn.ne'
  cases h : os.showbase <;> simp [basePrefix, setHex, h, hne]

theorem unsignedText_setHex_eq_iff {os : OStream} {n : ℕ} (hn : 0 < n) :
    os.setHex.unsignedText n = hexadecimal n ↔ os.RendersHex n := by
  have hdigits : (digitsOf 16 n).map (digitChar os.uppercase) = hexadecimal n ↔
      os.uppercase = false ∨ ∀ d ∈ digitsOf 16 n, d < 10 := by
    rw [hexadecimal, List.map_inj_left]
    constructor
    · intro h
      by_cases hcase : os.uppercase = false
      · exact .inl hcase
      · refine .inr fun d hd => ?_
        exact ((digitChar_eq_iff (digitsOf_lt (by decide) hd) _).mp (h d hd)).resolve_left hcase
    · intro h d hd
      exact (digitChar_eq_iff (digitsOf_lt (by decide) hd) _).mpr (h.imp_right fun h => h d hd)
  have htext : os.setHex.unsignedText n =
      os.setHex.basePrefix n ++ (digitsOf 16 n).map (digitChar os.uppercase) := rfl
  rw [htext, RendersHex, ← basePrefix_setHex hn]
  constructor
  · intro h
    -- what `showbase` puts before the digits would make the text longer
    have hlength := congrArg List.length h
    rw [List.length_append, hexadecimal, List.length_map, List.length_map] at hlength
    have hnone : os.setHex.basePrefix n = [] := List.length_eq_zero_iff.mp (by omega)
    rw [hnone, List.nil_append] at h
    exact ⟨hnone, hdigits.mp h⟩
  · rintro ⟨hnone, h⟩
    rw [hnone, List.nil_append]
    exact hdigits.mpr h

end OStream

namespace MessageComposer

/-! ### Actions on one stream -/

/-- What is done to the stream: a composer is called, or the caller inserts an
integer. -/
inductive Action
  | compose (c : MessageComposer) (k : Composition)
  | insert (i : Integer)

namespace Action

def isInsertion : Action → Bool
  | compose _ _ => false
  | insert _ => true

def step (os : OStream) : Action → OStream
  | compose c k =>
      match k.stream c os with
      | .ok os' => os'
      | .error _ => os
  | insert i => os.putInteger i

def run (os : OStream) (actions : List Action) : OStream := actions.foldl step os

theorem run_append_singleton (os : OStream) (actions : List Action) (a : Action) :
    run os (actions ++ [a]) = step (run os actions) a := by
  rw [run, List.foldl_append]
  rfl

end Action

open Httpxx.MessageComposer.Action

/-- A call appends what it appends to a new stream, and leaves the format as it was. -/
structure Neutral (os : OStream) (c : MessageComposer) (k : Composition) : Prop where
  appends : (step os (.compose c k)).out =
    os.out ++ (step OStream.fresh (.compose c k)).out
  format : (step os (.compose c k)).format = os.format

/-- Every call in the run is neutral, and every integer of the caller is rendered as in
the run without the calls. -/
def Undisturbed (os : OStream) (actions : List Action) : Prop :=
  ∀ before a after, actions = before ++ a :: after →
    match a with
    | .compose c k => Neutral (run os before) c k
    | .insert i => ∃ text,
        (step (run os before) (.insert i)).out = (run os before).out ++ text ∧
        (step (run os (before.filter isInsertion)) (.insert i)).out =
          (run os (before.filter isInsertion)).out ++ text

def Composition.chunkLen : Composition → ℕ
  | .firstChunk _ n | .nextChunk n => n
  | .envelope _ _ | .lastChunk _ => 0

/-- The calls of the run that write a size line find a stream that is in hexadecimal
already and renders their lengths as `std::hex` alone does. -/
def SizeLinesFit (os : OStream) (actions : List Action) : Prop :=
  ∀ c k, Action.compose c k ∈ actions →
    k.chunkLen = 0 ∨ os.base = .hex ∧ os.RendersHex k.chunkLen

/-! ### What one action does -/

variable {os : OStream}

theorem step_compose_of_chunkLen_eq_zero (c : MessageComposer) {k : Composition}
    (h : k.chunkLen = 0) :
    ∃ text, ∀ os : OStream, os.width = 0 → step os (.compose c k) = os.append text := by
  have hnothing : ∀ os : OStream, os = os.append [] := fun os => by simp [OStream.append]
  cases k with
  | envelope headers n =>
      refine ⟨c.head (identityHeaders headers n), fun os hwidth => ?_⟩
      rw [← composeEnvelope_eq hwidth]
      rfl
  | firstChunk headers n =>
      obtain rfl : n = 0 := h
      exact ⟨[], fun os _ => hnothing os⟩
  | nextChunk n =>
      obtain rfl : n = 0 := h
      exact ⟨[], fun os _ => hnothing os⟩
  | lastChunk headers =>
      refine ⟨str "\r\n0\r\n" ++ headers.entries.flatMap headerLine ++ [CR, LF],
        fun os hwidth => ?_⟩
      rw [← composeLastChunk_eq hwidth]
      rfl

/-- With a size line it sets the base, and writes the length in the format it finds. -/
theorem step_compose_of_chunkLen_pos (c : MessageComposer) {k : Composition}
    (h : 0 < k.chunkLen) :
    ∃ before, ∀ os : OStream, os.width = 0 → step os (.compose c k) =
      os.setHex.append (before ++ (os.setHex.unsignedText k.chunkLen ++ [CR, LF])) := by
  cases k with
  | envelope headers n => cases h
  | firstChunk headers n =>
      have hn : 0 < n := h
      refine ⟨c.head (chunkedHeaders headers), fun os hwidth => ?_⟩
      rw [step, Composition.stream, composeFirstChunkEnvelope_of_width hwidth c headers hn]
      rfl
  | nextChunk n =>
      have hn : 0 < n := h
      refine ⟨[CR, LF], fun os hwidth => ?_⟩
      rw [step, Composition.stream, composeNextChunkEnvelope_of_width hwidth hn]
      rfl
  | lastChunk headers => cases h

theorem neutral_iff (hwidth : os.width = 0) (c : MessageComposer) (k : Composition) :
    Neutral os c k ↔ k.chunkLen = 0 ∨ os.base = .hex ∧ os.RendersHex k.chunkLen := by
  rcases Nat.eq_zero_or_pos k.chunkLen with hlen | hlen
  · obtain ⟨text, htext⟩ := step_compose_of_chunkLen_eq_zero c hlen
    refine ⟨fun _ => .inl hlen, fun _ => ⟨?_, ?_⟩⟩
    · rw [htext os hwidth, htext OStream.fresh rfl]
      rfl
    · rw [htext os hwidth]
      rfl
  · obtain ⟨before, hbefore⟩ := step_compose_of_chunkLen_pos c hlen
    have hfresh : (step OStream.fresh (.compose c k)).out =
        before ++ (OStream.hexadecimal k.chunkLen ++ [CR, LF]) := by
      rw [hbefore OStream.fresh rfl, OStream.plain_fresh.unsignedText_setHex]
      rfl
    have happends : (step os (.compose c k)).out =
        os.out ++ (step OStream.fresh (.compose c k)).out ↔ os.RendersHex k.chunkLen := by
      rw [hbefore os hwidth, hfresh, ← OStream.unsignedText_setHex_eq_iff hlen,
        OStream.append_out, OStream.setHex_out]
      simp only [List.append_cancel_left_eq, List.append_cancel_right_eq]
    have hformat : (step os (.compose c k)).format = os.format ↔ os.base = .hex := by
      rw [hbefore os hwidth]
      simp [OStream.format, OStream.append, OStream.setHex, eq_comm]
    constructor
    · intro h
      exact .inr ⟨hformat.mp h.format, happends.mp h.appends⟩
    · rintro (h | ⟨hbase, hrenders⟩)
      · omega
      · exact ⟨happends.mpr hrenders, hformat.mpr hbase⟩

theorem width_step (hwidth : os.width = 0) (a : Action) : (step os a).width = 0 := by
  cases a with
  | insert i =>
      obtain ⟨text, htext⟩ := os.putInteger_of_format i
      rw [step, htext os hwidth rfl]
      exact hwidth
  | compose c k =>
      rcases Nat.eq_zero_or_pos k.chunkLen with hlen | hlen
      · obtain ⟨text, htext⟩ := step_compose_of_chunkLen_eq_zero c hlen
        rw [htext os hwidth]
        exact hwidth
      · obtain ⟨before, hbefore⟩ := step_compose_of_chunkLen_pos c hlen
        rw [hbefore os hwidth]
        exact hwidth

theorem format_step_insert (hwidth : os.width = 0) (i : Integer) :
    (step os (.insert i)).format = os.format := by
  obtain ⟨text, htext⟩ := os.putInteger_of_format i
  rw [step, htext os hwidth rfl]
  rfl

/-! ### What a run does -/

theorem width_run (hwidth : os.width = 0) (actions : List Action) :
    (run os actions).width = 0 := by
  induction actions using List.reverseRecOn with
  | nil => exact hwidth
  | append_singleton actions a ih =>
      rw [run_append_singleton]
      exact width_step ih a

theorem neutral_congr {os' : OStream} (hwidth : os.width = 0) (hwidth' : os'.width = 0)
    (h : os'.format = os.format) (c : MessageComposer) (k : Composition) :
    Neutral os' c k ↔ Neutral os c k := by
  simp only [OStream.format, Prod.mk.injEq] at h
  obtain ⟨hbase, hshowbase, huppercase⟩ := h
  rw [neutral_iff hwidth', neutral_iff hwidth, hbase, OStream.RendersHex, OStream.RendersHex,
    hshowbase, huppercase]

theorem format_run (hwidth : os.width = 0) {actions : List Action}
    (h : SizeLinesFit os actions) : (run os actions).format = os.format := by
  induction actions using List.reverseRecOn with
  | nil => rfl
  | append_singleton actions a ih =>
      have hrun := width_run hwidth actions
      have hformat := ih fun c k hmem => h c k (List.mem_append_left _ hmem)
      rw [run_append_singleton]
      cases a with
      | insert i => exact (format_step_insert hrun i).trans hformat
      | compose c k =>
          have hneutral : Neutral os c k := (neutral_iff hwidth c k).mpr (h c k (by simp))
          exact ((neutral_congr hwidth hrun hformat c k).mpr hneutral).format.trans hformat

theorem Undisturbed.of_append {actions : List Action} {a : Action}
    (h : Undisturbed os (actions ++ [a])) : Undisturbed os actions := by
  rintro before b after rfl
  exact h before b (after ++ [a]) (by simp)

/-- Where every call is neutral the size lines fit: the first one that does not fit
finds the format of the beginning. -/
theorem Undisturbed.sizeLinesFit (hwidth : os.width = 0) {actions : List Action}
    (h : Undisturbed os actions) : SizeLinesFit os actions := by
  induction actions using List.reverseRecOn with
  | nil => exact fun c k hmem => absurd hmem List.not_mem_nil
  | append_singleton actions a ih =>
      have hbefore := ih h.of_append
      intro c k hmem
      rcases List.mem_append.mp hmem with hmem | hmem
      · exact hbefore c k hmem
      · obtain rfl := List.mem_singleton.mp hmem
        have hneutral : Neutral (run os actions) c k := h actions (.compose c k) [] rfl
        rw [← neutral_iff hwidth]
        exact (neutral_congr hwidth (width_run hwidth actions)
          (format_run hwidth hbefore) c k).mp hneutral

theorem undisturbed_of_sizeLinesFit (hwidth : os.width = 0) {actions : List Action}
    (h : SizeLinesFit os actions) : Undisturbed os actions := by
  rintro before a after rfl
  have hformat : (run os before).format = os.format :=
    format_run hwidth fun c k hmem => h c k (List.mem_append_left _ hmem)
  cases a with
  | compose c k =>
      have hneutral : Neutral os c k := (neutral_iff hwidth c k).mpr (h c k (by simp))
      exact (neutral_congr hwidth (width_run hwidth before) hformat c k).mpr hneutral
  | insert i =>
      have halone : (run os (before.filter isInsertion)).format = os.format := by
        refine format_run hwidth fun c k hmem => ?_
        exact absurd (List.mem_filter.mp hmem).2 Bool.false_ne_true
      obtain ⟨text, htext⟩ := os.putInteger_of_format i
      refine ⟨text, ?_, ?_⟩
      · rw [step, htext _ (width_run hwidth before) hformat]
        rfl
      · rw [step, htext _ (width_run hwidth _) halone]
        rfl

/-- **When the composers and the caller do not disturb each other.** On a stream without
a pending field width they do not exactly when every size line that the run writes
fits: the stream is in hexadecimal, shows no base, and has no letters to write in upper
case. -/
theorem undisturbed_iff (hwidth : os.width = 0) (actions : List Action) :
    Undisturbed os actions ↔ SizeLinesFit os actions :=
  ⟨fun h => h.sizeLinesFit hwidth, undisturbed_of_sizeLinesFit hwidth⟩

theorem undisturbed_hex :
    Undisturbed OStream.fresh.setHex
      [.insert (.unsigned 255), .compose ⟨[], [], []⟩ (.nextChunk 10),
        .insert (.signed 32 (-1))] := by
  refine (undisturbed_iff rfl _).mpr fun c k hmem => ?_
  obtain ⟨-, rfl⟩ : c = ⟨[], [], []⟩ ∧ k = .nextChunk 10 := by simpa using hmem
  exact .inr ⟨rfl, rfl, .inl rfl⟩

/-- The caller's 255 comes out as `ff` behind a chunk of ten bytes, whose size line is
`0xa` on a stream that shows the base. -/
theorem chunk_disturbs :
    (¬ Undisturbed OStream.fresh
      [.compose ⟨[], [], []⟩ (.nextChunk 10), .insert (.unsigned 255)]) ∧
    (run OStream.fresh [.compose ⟨[], [], []⟩ (.nextChunk 10), .insert (.unsigned 255)]).out =
      str "\r\na\r\nff" ∧
    (step { OStream.fresh.setHex with showbase := true }
      (.compose ⟨[], [], []⟩ (.nextChunk 10))).out = str "\r\n0xa\r\n" := by
  refine ⟨fun h => ?_, by decide +kernel, by decide +kernel⟩
  have hneutral : Neutral OStream.fresh ⟨[], [], []⟩ (.nextChunk 10) := h [] _ _ rfl
  exact absurd (congrArg Prod.fst hneutral.format) (by decide +kernel)

end MessageComposer

end Httpxx
