import Mathlib.Data.List.Basic
import Mathlib.Data.List.Induction
import Mathlib.Tactic.Common

/-!
Systems that take steps on events. `step s e` is the next state, or nothing where the
event cannot happen; a run takes one step after another. An invariant of runs may speak
of the events that have happened so far (`runSteps_induction`), and a run of one system is
one of another that takes its steps (`runSteps_map`).

A family consists of members that take steps each for itself, in any order, while new
members join. What has become of a member is a run of its own events alone, whatever
the others did in between (`runFamily_member`).
-/

namespace Httpxx.Library

variable {σ ε : Type}

/-- The state after a sequence of events, if all of them can happen. -/
def runSteps (step : σ → ε → Option σ) (s : σ) (es : List ε) : Option σ := es.foldlM step s

section Run

variable {step : σ → ε → Option σ} {s t : σ}

@[simp] theorem runSteps_nil : runSteps step s [] = some s := rfl

theorem runSteps_cons (e : ε) (es : List ε) :
    runSteps step s (e :: es) = (step s e).bind fun s => runSteps step s es := by
  rw [runSteps, List.foldlM_cons]
  rfl

theorem runSteps_append (es fs : List ε) :
    runSteps step s (es ++ fs) = (runSteps step s es).bind fun s => runSteps step s fs :=
  List.foldlM_append

theorem runSteps_append_of_eq {es : List ε} (h : runSteps step s es = some t) (fs : List ε) :
    runSteps step s (es ++ fs) = runSteps step t fs := by
  rw [runSteps_append, h]
  rfl

theorem runSteps_singleton (e : ε) : runSteps step s [e] = step s e := by
  rw [runSteps_cons]
  cases step s e <;> rfl

theorem runSteps_append_singleton_iff {es : List ε} {e : ε} :
    runSteps step s (es ++ [e]) = some t ↔
      ∃ u, runSteps step s es = some u ∧ step u e = some t := by
  rw [runSteps_append, Option.bind_eq_some_iff]
  simp only [runSteps_singleton]

/-- What holds at first and is kept by every step, of the events so far and the state,
holds after every run. -/
theorem runSteps_induction {I : List ε → σ → Prop} (hstart : I [] s)
    (hstep : ∀ es t e u, I es t → step t e = some u → I (es ++ [e]) u) {es : List ε}
    (h : runSteps step s es = some t) : I es t := by
  induction es using List.reverseRecOn generalizing t with
  | nil =>
      cases h
      exact hstart
  | append_singleton es e ih =>
      obtain ⟨u, hu, hlast⟩ := runSteps_append_singleton_iff.mp h
      exact hstep es u e t (ih hu) hlast

theorem runSteps_map {τ δ : Type} {step' : τ → δ → Option τ} (f : σ → τ) (g : ε → δ)
    (hstep : ∀ s e t, step s e = some t → step' (f s) (g e) = some (f t)) {es : List ε}
    (h : runSteps step s es = some t) : runSteps step' (f s) (es.map g) = some (f t) := by
  induction es generalizing s with
  | nil =>
      cases h
      rfl
  | cons e es ih =>
      rw [runSteps_cons, Option.bind_eq_some_iff] at h
      obtain ⟨u, hu, hrest⟩ := h
      rw [List.map_cons, runSteps_cons, hstep s e u hu, Option.bind_some]
      exact ih hrest

end Run

/-! ### Families -/

/-- A new member of a family, or an event of the member at some place. -/
inductive FamilyEvent (σ ε : Type)
  | joins (s : σ)
  | moves (i : ℕ) (e : ε)

/-- A step of a family: the members are in the order in which they joined. -/
def stepFamily (step : σ → ε → Option σ) (members : List σ) :
    FamilyEvent σ ε → Option (List σ)
  | .joins s => some (members ++ [s])
  | .moves i e => do
      let s ← members[i]?
      let t ← step s e
      some (members.set i t)

def FamilyEvent.joined? : FamilyEvent σ ε → Option σ
  | .joins s => some s
  | .moves _ _ => none

def FamilyEvent.own? (i : ℕ) : FamilyEvent σ ε → Option ε
  | .joins _ => none
  | .moves j e => if j = i then some e else none

section Family

variable {step : σ → ε → Option σ}

theorem stepFamily_moves_iff {members after : List σ} {i : ℕ} {e : ε} :
    stepFamily step members (.moves i e) = some after ↔
      ∃ s t, members[i]? = some s ∧ step s e = some t ∧ after = members.set i t := by
  simp only [stepFamily, bind, Option.bind_eq_some_iff, Option.some.injEq]
  constructor
  · rintro ⟨s, hs, t, ht, rfl⟩
    exact ⟨s, t, hs, ht, rfl⟩
  · rintro ⟨s, t, hs, ht, rfl⟩
    exact ⟨s, hs, t, ht, rfl⟩

/-- Every member has taken the steps of its own events, from the state it joined in, and
nothing else has happened to it. -/
structure Apart (step : σ → ε → Option σ) (es : List (FamilyEvent σ ε)) (members : List σ) :
    Prop where
  joined : (es.filterMap FamilyEvent.joined?).length = members.length
  own : ∀ i t, members[i]? = some t → ∃ s, (es.filterMap FamilyEvent.joined?)[i]? = some s ∧
    runSteps step s (es.filterMap (FamilyEvent.own? i)) = some t
  later : ∀ i, members.length ≤ i → es.filterMap (FamilyEvent.own? i) = []

theorem Apart.joins {es : List (FamilyEvent σ ε)} {members : List σ} (h : Apart step es members)
    (s : σ) : Apart step (es ++ [.joins s]) (members ++ [s]) := by
  have hjoined : (es ++ [FamilyEvent.joins s]).filterMap FamilyEvent.joined? =
      es.filterMap FamilyEvent.joined? ++ [s] := by
    rw [List.filterMap_append]
    rfl
  have hown : ∀ i, (es ++ [FamilyEvent.joins s]).filterMap (FamilyEvent.own? i) =
      es.filterMap (FamilyEvent.own? i) := fun i => by
    rw [List.filterMap_append]
    exact List.append_nil _
  refine ⟨?_, fun i t ht => ?_, fun i hi => ?_⟩
  · rw [hjoined, List.length_append, List.length_append, h.joined]
  · rw [hjoined, hown]
    rcases Nat.lt_or_ge i members.length with hi | hi
    · rw [List.getElem?_append_left hi] at ht
      rw [List.getElem?_append_left (h.joined ▸ hi)]
      exact h.own i t ht
    · rw [List.getElem?_append_right hi] at ht
      rw [List.getElem?_append_right (h.joined ▸ hi), h.joined, h.later i hi]
      exact ⟨t, ht, rfl⟩
  · rw [hown]
    refine h.later i ?_
    rw [List.length_append] at hi
    omega

theorem Apart.moves {es : List (FamilyEvent σ ε)} {members : List σ} (h : Apart step es members)
    {i : ℕ} {e : ε} {s t : σ} (hs : members[i]? = some s) (ht : step s e = some t) :
    Apart step (es ++ [.moves i e]) (members.set i t) := by
  have hjoined : (es ++ [FamilyEvent.moves i e]).filterMap FamilyEvent.joined? =
      es.filterMap FamilyEvent.joined? := by
    rw [List.filterMap_append]
    exact List.append_nil _
  have hown : ∀ j, (es ++ [FamilyEvent.moves i e]).filterMap (FamilyEvent.own? j) =
      es.filterMap (FamilyEvent.own? j) ++ if i = j then [e] else [] := fun j => by
    rw [List.filterMap_append]
    by_cases hij : i = j
    · simp [FamilyEvent.own?, hij]
    · simp [FamilyEvent.own?, hij]
  have hi : i < members.length := (List.getElem?_eq_some_iff.mp hs).1
  refine ⟨?_, fun j u hu => ?_, fun j hj => ?_⟩
  · rw [hjoined, List.length_set, h.joined]
  · rw [hjoined, hown]
    by_cases hij : i = j
    · subst hij
      obtain rfl : t = u := by simpa [List.getElem?_set, hi] using hu
      obtain ⟨s₀, hs₀, hrun⟩ := h.own i s hs
      refine ⟨s₀, hs₀, ?_⟩
      rw [if_pos rfl, runSteps_append_of_eq hrun, runSteps_singleton]
      exact ht
    · rw [List.getElem?_set_ne hij] at hu
      rw [if_neg hij, List.append_nil]
      exact h.own j u hu
  · rw [List.length_set] at hj
    have hij : i ≠ j := by omega
    rw [hown, if_neg hij, List.append_nil]
    exact h.later j hj

theorem apart_nil : Apart step ([] : List (FamilyEvent σ ε)) [] :=
  ⟨rfl, fun i t ht => by simp at ht, fun _ _ => rfl⟩

theorem Apart.next {es : List (FamilyEvent σ ε)} {members after : List σ}
    (h : Apart step es members) {e : FamilyEvent σ ε}
    (he : stepFamily step members e = some after) : Apart step (es ++ [e]) after := by
  cases e with
  | joins s =>
      cases he
      exact h.joins s
  | moves i e =>
      obtain ⟨s, t, hs, ht, rfl⟩ := stepFamily_moves_iff.mp he
      exact h.moves hs ht

/-- In every run of a family each member has run for itself. -/
theorem runFamily_member {es : List (FamilyEvent σ ε)} {members : List σ}
    (h : runSteps (stepFamily step) [] es = some members) : Apart step es members :=
  runSteps_induction (I := Apart step) apart_nil (fun _ _ _ _ h he => h.next he) h

end Family

end Httpxx.Library
