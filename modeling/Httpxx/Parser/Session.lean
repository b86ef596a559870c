import Httpxx.Parser.Refinement

/-!
The life of one parser object: any sequence of `parse` calls, throwing or not,
and `reset` calls. A session remembers, beside the parser, the bytes accepted of
the message the parser is in, or of the last one when it is between messages,
each with the body flag it was answered with. The record is what statements
about positions and counters compare the parser with; the parser never sees it.

Two results hold of every session. A rejected byte leaves the parser as it was,
and a parser that has been reset, or has just completed a message, goes on
exactly as a new one.
-/

namespace Httpxx

open Library

inductive Call
  | parse (ch : Byte)
  | reset
  deriving DecidableEq, Repr

/-- A parser, and the bytes accepted of its message with their body flags. -/
structure Session where
  parser : MessageParser
  message : List (Byte × Bool)
  deriving DecidableEq

namespace Session

def start (lim : Limits) : Session := ⟨.create lim, []⟩

/-- The session after a call; the caller catches what is thrown. The first byte
accepted between messages begins a new one. -/
def step (s : Session) : Call → Session
  | .reset => ⟨s.parser.reset, []⟩
  | .parse ch =>
      match s.parser.parse ch with
      | .error thrown => { s with parser := thrown.parser }
      | .ok (p, flags) =>
          ⟨p, (if s.parser.isCompleted then [] else s.message) ++ [(ch, flags.isBodyChar)]⟩

def after (lim : Limits) (calls : List Call) : Session := calls.foldl step (start lim)

@[simp] theorem after_nil (lim : Limits) : after lim [] = start lim := rfl

@[simp] theorem after_append_singleton (lim : Limits) (calls : List Call) (call : Call) :
    after lim (calls ++ [call]) = (after lim calls).step call := by
  simp [after]

/-- What holds at first and is kept by every call holds after any calls. -/
theorem after_induction {lim : Limits} {I : Session → Prop} (hstart : I (start lim))
    (hstep : ∀ s call, I s → I (s.step call)) (calls : List Call) : I (after lim calls) := by
  induction calls using List.reverseRecOn with
  | nil => exact hstart
  | append_singleton calls call ih =>
      rw [after_append_singleton]
      exact hstep _ _ ih

/-- Every call of a run is one that `P` admits at the session it is made in. -/
def Along (P : Session → Call → Prop) : Session → List Call → Prop
  | _, [] => True
  | s, call :: calls => P s call ∧ Along P (s.step call) calls

instance Along.decidable (P : Session → Call → Prop) [∀ s call, Decidable (P s call)] :
    ∀ s calls, Decidable (Along P s calls)
  | _, [] => .isTrue trivial
  | s, call :: calls =>
      have := Along.decidable P (s.step call) calls
      inferInstanceAs (Decidable (P s call ∧ Along P (s.step call) calls))

theorem along_append_singleton {P : Session → Call → Prop} {s : Session} {calls : List Call}
    {call : Call} :
    Along P s (calls ++ [call]) ↔ Along P s calls ∧ P (calls.foldl step s) call := by
  induction calls generalizing s with
  | nil => simp [Along]
  | cons c calls ih =>
      simp only [List.cons_append, Along, List.foldl_cons, ih]
      exact and_assoc.symm

theorem along_induction {lim : Limits} {P : Session → Call → Prop} {I : Session → Prop}
    (hstart : I (start lim)) (hstep : ∀ s call, P s call → I s → I (s.step call))
    {calls : List Call} (h : Along P (start lim) calls) : I (after lim calls) := by
  induction calls using List.reverseRecOn with
  | nil => exact hstart
  | append_singleton calls call ih =>
      obtain ⟨hbefore, hcall⟩ := along_append_singleton.mp h
      rw [after_append_singleton]
      exact hstep _ _ hcall (ih hbefore)

theorem step_parse_of_ok {s : Session} {ch : Byte} {p : MessageParser} {flags : Flags}
    (h : s.parser.parse ch = .ok (p, flags)) :
    s.step (.parse ch) =
      ⟨p, (if s.parser.isCompleted then [] else s.message) ++ [(ch, flags.isBodyChar)]⟩ := by
  simp [step, h]

theorem step_parse_of_error {s : Session} {ch : Byte} {thrown : Thrown}
    (h : s.parser.parse ch = .error thrown) :
    s.step (.parse ch) = { s with parser := thrown.parser } := by
  simp [step, h]

/-- Every reachable parser is clean and has the limits it was created with. -/
theorem clean_after (lim : Limits) (calls : List Call) :
    (after lim calls).parser.Clean ∧ (after lim calls).parser.limits = lim := by
  refine after_induction (I := fun s => s.parser.Clean ∧ s.parser.limits = lim)
    ⟨MessageParser.clean_create lim, rfl⟩ ?_ calls
  rintro s call ⟨hclean, hlim⟩
  cases call with
  | reset => exact ⟨MessageParser.clean_reset _, hlim⟩
  | parse ch =>
      rcases MessageParser.parse_cases hclean ch with
        ⟨code, hthrow, -⟩ | ⟨p, flags, hok, hp, hlimits, -⟩
      · rw [step_parse_of_error hthrow]
        exact ⟨hclean, hlim⟩
      · rw [step_parse_of_ok hok]
        exact ⟨hp, hlimits.trans hlim⟩

/-- A rejected byte leaves every field of a reachable parser as it was. -/
theorem rejected_byte_leaves_no_trace (lim : Limits) (calls : List Call) (ch : Byte)
    (thrown : Thrown) (h : (after lim calls).parser.parse ch = .error thrown) :
    thrown.parser = (after lim calls).parser ∧
      (after lim (calls ++ [.parse ch])) = after lim calls := by
  have huntouched : thrown.parser = (after lim calls).parser := by
    rcases MessageParser.parse_cases (clean_after lim calls).1 ch with
      ⟨code, hthrow, -⟩ | ⟨p, flags, hok, -⟩
    · rw [hthrow] at h
      injection h with h
      rw [← h]
    · simp [hok] at h
  refine ⟨huntouched, ?_⟩
  rw [after_append_singleton, step_parse_of_error h, huntouched]

/-- The byte that would store a second header where there is room for one. -/
theorem rejected_byte_leaves_no_trace_full : ∃ s thrown,
    after ⟨1, 1, 1, 1, 2, 1⟩ ((str "a b c\r\nX: 1\r\nY: 2\r\n").map .parse) = s ∧
      s.parser.headers = (∅ : Headers).insert (str "X", str "1") ∧
      s.parser.headerFieldName = str "Y" ∧ s.parser.headerFieldValue = str " 2" ∧
      s.parser.parse 0x5A = .error thrown ∧ thrown.exception.code = .tooManyHeaders ∧
      thrown.parser = s.parser ∧ s.step (.parse 0x5A) = s := by
  have hrule := rejected_byte_leaves_no_trace ⟨1, 1, 1, 1, 2, 1⟩
    ((str "a b c\r\nX: 1\r\nY: 2\r\n").map .parse) 0x5A
  rw [after_append_singleton] at hrule
  generalize hs : after ⟨1, 1, 1, 1, 2, 1⟩
    ((str "a b c\r\nX: 1\r\nY: 2\r\n").map .parse) = s at hrule
  have hcode : (s.parser.parse 0x5A).mapError (fun t => t.exception.code) =
      .error .tooManyHeaders := by
    rw [← hs]
    decide +kernel
  obtain ⟨thrown, hparse, hthrown⟩ := mapError_eq_error_iff.mp hcode
  obtain ⟨hparser, hsession⟩ := hrule thrown hparse
  refine ⟨s, thrown, rfl, ?_, ?_, ?_, hparse, hthrown, hparser, hsession⟩
  all_goals
    rw [← hs]
    decide +kernel

end Session

/-! ### Between messages -/

namespace MessageParser

theorem parse_eq_of_isCompleted {p q : MessageParser} (hp : p.isCompleted = true)
    (hq : q.isCompleted = true) (hlim : p.limits = q.limits) {ch : Byte}
    {r : MessageParser × Flags} (h : q.parse ch = .ok r) : p.parse ch = .ok r := by
  have hps : p.state = .parsingMessage := by simpa [isCompleted] using hp
  have hqs : q.state = .parsingMessage := by simpa [isCompleted] using hq
  have hreset : p.reset = q.reset := by simp [reset, hlim]
  obtain ⟨r, flags⟩ := r
  obtain ⟨q', hq', rfl, rfl⟩ := parse_ok_iff.mp h
  refine parse_ok_iff.mpr ⟨q', ?_, rfl, by simp [bodyExpected, hps, hqs]⟩
  simp only [parseState, hps, hqs, hreset] at hq' ⊢
  split_ifs at hq' ⊢
  · exact hq'
  · exact hq'
  · simp [throwing] at hq'

/-- A parser between messages reads on exactly as another one with its limits. -/
theorem run_eq_of_isCompleted {p q : MessageParser} (hp : p.isCompleted = true)
    (hq : q.isCompleted = true) (hlim : p.limits = q.limits) {t : Bytes}
    {rs : List (MessageParser × Flags)} (h : machine.run q t = .ok rs) :
    machine.run p t = .ok rs := by
  cases t with
  | nil => exact h
  | cons ch t =>
      obtain ⟨r, rs', hstep, hrest, rfl⟩ := (Transducer.run_cons_ok_iff _ _ _ _ _).mp h
      exact (Transducer.run_cons_ok_iff _ _ _ _ _).mpr
        ⟨r, rs', parse_eq_of_isCompleted hp hq hlim hstep, hrest, rfl⟩

theorem completed_eq_of_parse_ok {p p' : MessageParser} {flags : Flags} {ch : Byte}
    (h : p.parse ch = .ok (p', flags)) : flags.completed = p'.isCompleted := by
  obtain ⟨r, -, rfl, rfl⟩ := parse_ok_iff.mp h
  simp [isCompleted]

theorem limits_eq_of_parse_ok {p p' : MessageParser} {flags : Flags} {ch : Byte}
    (hp : p.Clean) (h : p.parse ch = .ok (p', flags)) : p'.limits = p.limits := by
  rcases parse_cases hp ch with ⟨code, hthrow, -⟩ | ⟨r, f, hok, -, hlim, -⟩
  · simp [hthrow, throwing] at h
  · obtain ⟨rfl, rfl⟩ : r = p' ∧ f = flags := by simpa [hok] using h
    exact hlim

/-- A parser that has just been reset, or has just completed a message, after
some calls. -/
inductive BetweenMessages (lim : Limits) : MessageParser → Prop
  | reset (calls : List Call) : BetweenMessages lim (Session.after lim calls).parser.reset
  | completed (calls : List Call) (ch : Byte) (p : MessageParser) (flags : Flags) :
      (Session.after lim calls).parser.parse ch = .ok (p, flags) → flags.completed = true →
        BetweenMessages lim p

theorem BetweenMessages.isCompleted {lim : Limits} {p : MessageParser}
    (h : BetweenMessages lim p) : p.isCompleted = true ∧ p.limits = lim := by
  cases h with
  | reset calls => exact ⟨rfl, (Session.clean_after lim calls).2⟩
  | completed calls ch p flags hparse hcompleted =>
      obtain ⟨hclean, hlim⟩ := Session.clean_after lim calls
      exact ⟨(completed_eq_of_parse_ok hparse).symm.trans hcompleted,
        (limits_eq_of_parse_ok hclean hparse).trans hlim⟩

theorem isCompleted_of_accepts {lim : Limits} {p u : MessageParser} {w v : Bytes}
    (hp : p.Clean ∧ p.limits = lim) (h : machine.Accepts p w u v) :
    u.isCompleted = true ∧ u.limits = lim := by
  refine ⟨?_, ((machine_simulates lim).accepts hp h).1.2⟩
  clear hp
  induction h with
  | last hstep hlast => exact (completed_eq_of_parse_ok hstep).symm.trans hlast
  | more _ _ _ ih => exact ih

/-- Messages that a new parser accepts are read one after the other by one
parser, each as the new parser reads it. -/
theorem run_flatten {lim : Limits} {p : MessageParser} (hp : p.isCompleted = true)
    (hlim : p.limits = lim) {ms : List (Bytes × List (MessageParser × Flags))}
    (hms : ∀ m ∈ ms, machine.run (create lim) m.1 = .ok m.2 ∧ machine.EndsAtLast m.2) :
    machine.run p (ms.map Prod.fst).flatten = .ok (ms.map Prod.snd).flatten := by
  induction ms generalizing p with
  | nil => rfl
  | cons m ms ih =>
      obtain ⟨hrun, hends⟩ := hms m (by simp)
      have hrun' := run_eq_of_isCompleted hp rfl (q := create lim) hlim hrun
      -- the message leaves the parser between messages again, as a new one would be left
      have hlast : Transducer.lastState p m.2 = Transducer.lastState (create lim) m.2 := by
        obtain ⟨init, r, heq, -, -⟩ := hends
        simp [heq]
      have haccepts := (Transducer.accepts_iff_run machine (create lim) _ m.1 _).mpr
        ⟨m.2, hrun, hends, rfl, rfl⟩
      obtain ⟨hdone, hlimits⟩ := isCompleted_of_accepts ⟨clean_create lim, rfl⟩ haccepts
      have hrest := ih (p := Transducer.lastState p m.2) (by rw [hlast]; exact hdone)
        (by rw [hlast]; exact hlimits) fun m' hm' => hms m' (List.mem_cons_of_mem _ hm')
      simp only [List.map_cons, List.flatten_cons]
      exact (Transducer.run_append_ok_iff _ _ _ _ _).mpr ⟨_, _, hrun', hrest, rfl⟩

/-- Between messages a used parser reads on exactly as a new one: it is in the
same state after every byte and answers every byte alike. So messages that a new
parser accepts one by one are reported one after the other from their
concatenation. -/
theorem used_reads_as_new (lim : Limits) (p : MessageParser) (hp : BetweenMessages lim p) :
    (∀ t rs, machine.run (create lim) t = .ok rs → machine.run p t = .ok rs) ∧
      ∀ ms : List (Bytes × List (MessageParser × Flags)),
        (∀ m ∈ ms, machine.run (create lim) m.1 = .ok m.2 ∧ machine.EndsAtLast m.2) →
          machine.run p (ms.map Prod.fst).flatten = .ok (ms.map Prod.snd).flatten := by
  obtain ⟨hdone, hlim⟩ := hp.isCompleted
  exact ⟨fun t rs => run_eq_of_isCompleted hdone rfl hlim, fun ms hms => run_flatten hdone hlim hms⟩

/-- Two messages after a chunked one, whose headers are still stored. -/
theorem used_reads_as_new_completed : ∃ p flags rs₁ rs₂,
    (Session.after ⟨1, 1, 1, 17, 8, 1⟩ ((str "a b c\r\nTransfer-Encoding: chunked\r\n\r\n" ++
      str "1\r\nx\r\n0\r\n\r").map .parse)).parser.parse LF = .ok (p, flags) ∧
    p.headers = (∅ : Headers).insert (str "Transfer-Encoding", str "chunked") ∧ p.line = 8 ∧
    machine.run (create ⟨1, 1, 1, 17, 8, 1⟩) (str "d e f\r\nX: 1\r\n\r\n") = .ok rs₁ ∧
    machine.run (create ⟨1, 1, 1, 17, 8, 1⟩) (str "g h i\r\nContent-Length: 1\r\n\r\nx") =
      .ok rs₂ ∧
    machine.run p (str "d e f\r\nX: 1\r\n\r\ng h i\r\nContent-Length: 1\r\n\r\nx") =
      .ok (rs₁ ++ rs₂) := by
  have hlast : ((Session.after ⟨1, 1, 1, 17, 8, 1⟩
      ((str "a b c\r\nTransfer-Encoding: chunked\r\n\r\n" ++
        str "1\r\nx\r\n0\r\n\r").map .parse)).parser.parse LF).map
          (fun x => (x.2.completed, x.1.headers, x.1.line)) =
      .ok (true, (∅ : Headers).insert (str "Transfer-Encoding", str "chunked"), 8) := by
    decide +kernel
  have hreads : ∀ s ∈ [str "d e f\r\nX: 1\r\n\r\n",
      str "g h i\r\nContent-Length: 1\r\n\r\nx"],
        (machine.run (create ⟨1, 1, 1, 17, 8, 1⟩) s).map
          (fun rs => decide (machine.EndsAtLast rs)) = .ok true := by
    decide +kernel
  obtain ⟨⟨p, flags⟩, hparse, hfields⟩ := map_eq_ok_iff.mp hlast
  obtain ⟨hcompleted, hstale⟩ := Prod.mk.inj hfields
  obtain ⟨hheaders, hline⟩ := Prod.mk.inj hstale
  obtain ⟨rs₁, hrun₁, hends₁⟩ := map_eq_ok_iff.mp (hreads _ List.mem_cons_self)
  obtain ⟨rs₂, hrun₂, hends₂⟩ := map_eq_ok_iff.mp
    (hreads (str "g h i\r\nContent-Length: 1\r\n\r\nx") (by decide))
  have hboth := (used_reads_as_new ⟨1, 1, 1, 17, 8, 1⟩ p
    (.completed _ LF p flags hparse hcompleted)).2
      [(str "d e f\r\nX: 1\r\n\r\n", rs₁),
        (str "g h i\r\nContent-Length: 1\r\n\r\nx", rs₂)] (by
    refine List.forall_mem_cons.mpr ⟨⟨hrun₁, of_decide_eq_true hends₁⟩, ?_⟩
    exact List.forall_mem_cons.mpr ⟨⟨hrun₂, of_decide_eq_true hends₂⟩, by simp⟩)
  refine ⟨p, flags, rs₁, rs₂, hparse, hheaders, hline, hrun₁, hrun₂, ?_⟩
  rw [show rs₁ ++ rs₂ = ([rs₁, rs₂] : List _).flatten by simp]
  exact hboth

end MessageParser

end Httpxx
