import Mathlib.Tactic.Common
import Mathlib.Data.List.Basic

/-!
Machines that read one symbol at a time. A machine either refuses a symbol or
moves on with an answer, and the answer says two things: whether the symbol
belongs to the payload of the word being read, and whether it ends the word.

Three judgments are built on a machine. `run` lists the states and answers
along a word that is read without refusal. `Accepts` reads exactly one word,
collecting its payload. `Silent` and `Refuses` describe single steps, and are
what the rules below take as premises: the rule for a state that scans a run of
symbols of one class (`accepts_scan_iff`), the rule for a counted payload
(`accepts_count_iff`), and the transfer of acceptance along a simulation.
-/

namespace Httpxx.Library

theorem bind_eq_ok_iff {ε α β : Type} {x : Except ε α} {f : α → Except ε β} {b : β} :
    x >>= f = .ok b ↔ ∃ a, x = .ok a ∧ f a = .ok b := by
  cases x with
  | error e => simp [bind, Except.bind]
  | ok a => simp [bind, Except.bind]

theorem map_eq_ok_iff {ε α β : Type} {x : Except ε α} {f : α → β} {b : β} :
    x.map f = .ok b ↔ ∃ a, x = .ok a ∧ f a = b := by
  cases x with
  | error e => simp [Except.map]
  | ok a => simp [Except.map]

theorem mapError_eq_error_iff {ε δ α : Type} {x : Except ε α} {f : ε → δ} {e : δ} :
    x.mapError f = .error e ↔ ∃ d, x = .error d ∧ f d = e := by
  cases x with
  | error d => simp [Except.mapError]
  | ok a => simp [Except.mapError]

/-- A machine that reads one symbol at a time and may refuse it. -/
structure Transducer (σ α β ε : Type) where
  /-- Read a symbol: refuse it, or move to a state with an answer. -/
  step : σ → α → Except ε (σ × β)
  /-- The answer says that the symbol is part of the payload. -/
  emit : β → Bool
  /-- The answer says that the symbol ends a word. -/
  last : β → Bool

namespace Transducer

variable {σ τ α β ε δ : Type}

/-- The state and the answer after each symbol, when no symbol is refused. -/
def run (M : Transducer σ α β ε) : σ → List α → Except ε (List (σ × β))
  | _, [] => .ok []
  | s, a :: w => do
      let r ← M.step s a
      let rs ← M.run r.1 w
      return r :: rs

def lastState (s : σ) (rs : List (σ × β)) : σ := (rs.getLast?.map Prod.fst).getD s

/-- The symbols of a word that are answered as payload. -/
def payload (M : Transducer σ α β ε) (w : List α) (rs : List (σ × β)) : List α :=
  ((w.zip rs).filter fun x => M.emit x.2.2).map Prod.fst

/-- The run ends a word with its last symbol, and with no earlier one. -/
def EndsAtLast (M : Transducer σ α β ε) (rs : List (σ × β)) : Prop :=
  ∃ init r, rs = init ++ [r] ∧ M.last r.2 = true ∧ ∀ x ∈ init, M.last x.2 = false

theorem endsAtLast_iff (M : Transducer σ α β ε) (rs : List (σ × β)) :
    M.EndsAtLast rs ↔
      (∃ r ∈ rs.getLast?, M.last r.2 = true) ∧ ∀ x ∈ rs.dropLast, M.last x.2 = false := by
  constructor
  · rintro ⟨init, r, rfl, hlast, hinit⟩
    exact ⟨⟨r, by simp, hlast⟩, by simpa using hinit⟩
  · rintro ⟨⟨r, hr, hlast⟩, hinit⟩
    exact ⟨rs.dropLast, r, (List.dropLast_append_getLast? r hr).symm, hlast, hinit⟩

instance (M : Transducer σ α β ε) (rs : List (σ × β)) : Decidable (M.EndsAtLast rs) :=
  decidable_of_iff _ (endsAtLast_iff M rs).symm

def emitted (M : Transducer σ α β ε) (a : α) (b : β) : List α :=
  if M.emit b then [a] else []

/-- From `s` the machine reads the word `w` as exactly one word, ends in `t`
and answers `v` as the payload. -/
inductive Accepts (M : Transducer σ α β ε) : σ → List α → σ → List α → Prop
  | last {s t : σ} {a : α} {b : β} :
      M.step s a = .ok (t, b) → M.last b = true → Accepts M s [a] t (M.emitted a b)
  | more {s t u : σ} {a : α} {b : β} {w v : List α} :
      M.step s a = .ok (t, b) → M.last b = false → Accepts M t w u v →
        Accepts M s (a :: w) u (M.emitted a b ++ v)

def Silent (M : Transducer σ α β ε) (s : σ) (a : α) (t : σ) : Prop :=
  ∃ b, M.step s a = .ok (t, b) ∧ M.last b = false ∧ M.emit b = false

def Refuses (M : Transducer σ α β ε) (s : σ) (a : α) : Prop :=
  ∃ e, M.step s a = .error e

/-! ### Runs -/

@[simp] theorem run_nil (M : Transducer σ α β ε) (s : σ) : M.run s [] = .ok [] := rfl

theorem run_cons_ok_iff (M : Transducer σ α β ε) (s : σ) (a : α) (w : List α)
    (rs : List (σ × β)) :
    M.run s (a :: w) = .ok rs ↔
      ∃ r rs', M.step s a = .ok r ∧ M.run r.1 w = .ok rs' ∧ rs = r :: rs' := by
  simp only [run, bind, Except.bind, pure, Except.pure]
  cases hstep : M.step s a with
  | error e => simp
  | ok r =>
      cases hrest : M.run r.1 w with
      | error e => simp [hrest]
      | ok rs' => simp [hrest, eq_comm]

@[simp] theorem lastState_nil (s : σ) : lastState s ([] : List (σ × β)) = s := rfl

@[simp] theorem lastState_cons (s : σ) (r : σ × β) (rs : List (σ × β)) :
    lastState s (r :: rs) = lastState r.1 rs := by
  cases rs with
  | nil => rfl
  | cons r' rs => simp [lastState, List.getLast?_cons]

@[simp] theorem lastState_append_singleton (s : σ) (rs : List (σ × β)) (r : σ × β) :
    lastState s (rs ++ [r]) = r.1 := by
  simp [lastState]

theorem run_length {M : Transducer σ α β ε} {s : σ} {w : List α} {rs : List (σ × β)}
    (h : M.run s w = .ok rs) : rs.length = w.length := by
  induction w generalizing s rs with
  | nil =>
      injection h with h
      subst h
      rfl
  | cons a w ih =>
      obtain ⟨r, rs', -, hrest, rfl⟩ := (run_cons_ok_iff M s a w rs).mp h
      simp [ih hrest]

/-- A run over a concatenation is a run over the first part followed by a run
over the second from where the first one stopped. -/
theorem run_append_ok_iff (M : Transducer σ α β ε) (s : σ) (w z : List α)
    (rs : List (σ × β)) :
    M.run s (w ++ z) = .ok rs ↔
      ∃ rs₁ rs₂, M.run s w = .ok rs₁ ∧ M.run (lastState s rs₁) z = .ok rs₂ ∧
        rs = rs₁ ++ rs₂ := by
  induction w generalizing s rs with
  | nil => simp [eq_comm]
  | cons a w ih =>
      rw [List.cons_append, run_cons_ok_iff]
      constructor
      · rintro ⟨r, rs', hstep, hrest, rfl⟩
        obtain ⟨rs₁, rs₂, h₁, h₂, rfl⟩ := (ih r.1 rs').mp hrest
        exact ⟨r :: rs₁, rs₂, (run_cons_ok_iff M s a w _).mpr ⟨r, rs₁, hstep, h₁, rfl⟩,
          by simpa using h₂, rfl⟩
      · rintro ⟨rs₁, rs₂, h₁, h₂, rfl⟩
        obtain ⟨r, rs', hstep, hrest, rfl⟩ := (run_cons_ok_iff M s a w rs₁).mp h₁
        exact ⟨r, rs' ++ rs₂, hstep,
          (ih r.1 _).mpr ⟨rs', rs₂, hrest, by simpa using h₂, rfl⟩, rfl⟩

@[simp] theorem payload_nil (M : Transducer σ α β ε) (rs : List (σ × β)) :
    M.payload [] rs = [] := by
  simp [payload]

theorem payload_cons (M : Transducer σ α β ε) (a : α) (w : List α) (r : σ × β)
    (rs : List (σ × β)) :
    M.payload (a :: w) (r :: rs) = M.emitted a r.2 ++ M.payload w rs := by
  cases h : M.emit r.2 <;> simp [payload, emitted, h]

theorem endsAtLast_singleton (M : Transducer σ α β ε) (r : σ × β) :
    M.EndsAtLast [r] ↔ M.last r.2 = true := by
  constructor
  · rintro ⟨init, r', heq, hlast, -⟩
    cases init with
    | nil =>
        obtain rfl : r = r' := by simpa using heq
        exact hlast
    | cons x init => simp at heq
  · intro h
    exact ⟨[], r, rfl, h, by simp⟩

theorem endsAtLast_cons (M : Transducer σ α β ε) (r : σ × β) (rs : List (σ × β))
    (hrs : rs ≠ []) :
    M.EndsAtLast (r :: rs) ↔ M.last r.2 = false ∧ M.EndsAtLast rs := by
  constructor
  · rintro ⟨init, r', heq, hlast, hinit⟩
    cases init with
    | nil => simp_all
    | cons x init =>
        obtain ⟨rfl, rfl⟩ : r = x ∧ rs = init ++ [r'] := by simpa using heq
        exact ⟨hinit r (by simp), init, r', rfl, hlast,
          fun y hy => hinit y (List.mem_cons_of_mem _ hy)⟩
  · rintro ⟨hr, init, r', rfl, hlast, hinit⟩
    refine ⟨r :: init, r', rfl, hlast, ?_⟩
    intro x hx
    rcases List.mem_cons.mp hx with rfl | hx
    · exact hr
    · exact hinit x hx

/-- Acceptance is a run whose last answer, and no earlier one, ends the word. -/
theorem accepts_iff_run (M : Transducer σ α β ε) (s u : σ) (w v : List α) :
    M.Accepts s w u v ↔
      ∃ rs, M.run s w = .ok rs ∧ M.EndsAtLast rs ∧ u = lastState s rs ∧
        v = M.payload w rs := by
  constructor
  · intro h
    induction h with
    | @last s t a b hstep hlast =>
        exact ⟨[(t, b)], by simp [run_cons_ok_iff, hstep],
          (endsAtLast_singleton M (t, b)).mpr hlast, rfl, by simp [payload_cons]⟩
    | @more s t u a b w v hstep hlast _ ih =>
        obtain ⟨rs, hrun, hends, hu, hv⟩ := ih
        have hne : rs ≠ [] := by
          rintro rfl
          obtain ⟨init, r, heq, -, -⟩ := hends
          simp at heq
        exact ⟨(t, b) :: rs, (run_cons_ok_iff M s a w _).mpr ⟨(t, b), rs, hstep, hrun, rfl⟩,
          (endsAtLast_cons M (t, b) rs hne).mpr ⟨hlast, hends⟩, by simpa using hu,
          by rw [payload_cons, hv]⟩
  · rintro ⟨rs, hrun, hends, rfl, rfl⟩
    induction w generalizing s rs with
    | nil =>
        obtain ⟨init, r, rfl, -, -⟩ := hends
        simp at hrun
    | cons a w ih =>
        obtain ⟨⟨t, b⟩, rs', hstep, hrest, rfl⟩ := (run_cons_ok_iff M s a w rs).mp hrun
        rw [lastState_cons, payload_cons]
        by_cases hrs : rs' = []
        · subst hrs
          have hw : w = [] := by simpa using (run_length hrest).symm
          subst hw
          simpa using Accepts.last hstep ((endsAtLast_singleton M (t, b)).mp hends)
        · obtain ⟨hlast, hends⟩ := (endsAtLast_cons M (t, b) rs' hrs).mp hends
          exact .more hstep hlast (ih t rs' hrest hends)

/-! ### One step of an acceptance -/

@[simp] theorem not_accepts_nil (M : Transducer σ α β ε) (s u : σ) (v : List α) :
    ¬ M.Accepts s [] u v := by
  intro h
  cases h

theorem Refuses.not_accepts {M : Transducer σ α β ε} {s : σ} {a : α} (h : M.Refuses s a)
    (w : List α) (u : σ) (v : List α) : ¬ M.Accepts s (a :: w) u v := by
  obtain ⟨e, he⟩ := h
  intro hacc
  cases hacc with
  | last hstep _ => simp [he] at hstep
  | more hstep _ _ => simp [he] at hstep

theorem accepts_cons_congr {M : Transducer σ α β ε} {s s' : σ} {a : α}
    (h : M.step s a = M.step s' a) (w : List α) (u : σ) (v : List α) :
    M.Accepts s (a :: w) u v ↔ M.Accepts s' (a :: w) u v := by
  constructor
  · intro hacc
    cases hacc with
    | last hstep hlast => exact .last (h ▸ hstep) hlast
    | more hstep hlast hrest => exact .more (h ▸ hstep) hlast hrest
  · intro hacc
    cases hacc with
    | last hstep hlast => exact .last (h ▸ hstep) hlast
    | more hstep hlast hrest => exact .more (h ▸ hstep) hlast hrest

theorem Silent.accepts_iff {M : Transducer σ α β ε} {s t : σ} {a : α} (h : M.Silent s a t)
    (w : List α) (u : σ) (v : List α) : M.Accepts s (a :: w) u v ↔ M.Accepts t w u v := by
  obtain ⟨b, hb, hlast, hemit⟩ := h
  have hnil : M.emitted a b = [] := by simp [emitted, hemit]
  constructor
  · intro hacc
    cases hacc with
    | last hstep hl => simp_all
    | more hstep _ hrest =>
        obtain ⟨rfl, rfl⟩ : t = _ ∧ b = _ := by simpa [hb] using hstep
        simpa [hnil] using hrest
  · intro hacc
    simpa [hnil] using Accepts.more hb hlast hacc

theorem accepts_cons_payload_iff {M : Transducer σ α β ε} {s t : σ} {a : α} {b : β}
    (hb : M.step s a = .ok (t, b)) (hlast : M.last b = false) (hemit : M.emit b = true)
    (w : List α) (u : σ) (v : List α) :
    M.Accepts s (a :: w) u v ↔ ∃ v', v = a :: v' ∧ M.Accepts t w u v' := by
  have hone : M.emitted a b = [a] := by simp [emitted, hemit]
  constructor
  · intro hacc
    cases hacc with
    | last hstep hl => simp_all
    | @more _ _ _ _ _ _ v' hstep _ hrest =>
        obtain ⟨rfl, rfl⟩ : t = _ ∧ b = _ := by simpa [hb] using hstep
        exact ⟨v', by rw [hone]; rfl, hrest⟩
  · rintro ⟨v', rfl, hacc⟩
    simpa [hone] using Accepts.more hb hlast hacc

theorem accepts_cons_last_iff {M : Transducer σ α β ε} {s t : σ} {a : α} {b : β}
    (hb : M.step s a = .ok (t, b)) (hlast : M.last b = true)
    (w : List α) (u : σ) (v : List α) :
    M.Accepts s (a :: w) u v ↔ w = [] ∧ u = t ∧ v = M.emitted a b := by
  constructor
  · intro hacc
    cases hacc with
    | last hstep _ =>
        obtain ⟨rfl, rfl⟩ : t = _ ∧ b = _ := by simpa [hb] using hstep
        exact ⟨rfl, rfl, rfl⟩
    | more hstep hl _ => simp_all
  · rintro ⟨rfl, rfl, rfl⟩
    exact .last hb hlast

/-- A state that admits one symbol only. -/
theorem accepts_expect_iff {M : Transducer σ α β ε} {s t : σ} {a : α} (hs : M.Silent s a t)
    (hother : ∀ b, b ≠ a → M.Refuses s b) (w : List α) (u : σ) (v : List α) :
    M.Accepts s w u v ↔ ∃ y, w = a :: y ∧ M.Accepts t y u v := by
  constructor
  · intro h
    cases w with
    | nil => exact absurd h (not_accepts_nil M s u v)
    | cons b w =>
        by_cases hb : b = a
        · subst hb
          exact ⟨w, rfl, (hs.accepts_iff w u v).mp h⟩
        · exact absurd h ((hother b hb).not_accepts w u v)
  · rintro ⟨y, rfl, h⟩
    exact (hs.accepts_iff y u v).mpr h

/-! ### Scanning a run of symbols -/

/-- **The scan rule.** The states `f acc` collect symbols of the class `C` while
there is `room`, and leave on a symbol that `E` admits. A word is accepted from
`f acc` exactly when it is a run of class symbols that fits, a leaving symbol,
and a word accepted from where that symbol leads. -/
theorem accepts_scan_iff (M : Transducer σ α β ε) (f : List α → σ) (g : List α → α → σ)
    (C : α → Prop) (room : List α → Prop) (E : List α → α → Prop)
    (hmore : ∀ acc a, C a → room acc → M.Silent (f acc) a (f (acc ++ [a])))
    (hfull : ∀ acc a, C a → ¬ room acc → M.Refuses (f acc) a)
    (hexit : ∀ acc a, E acc a → M.Silent (f acc) a (g acc a))
    (hbad : ∀ acc a, ¬ C a → ¬ E acc a → M.Refuses (f acc) a)
    (hdisj : ∀ acc a, E acc a → ¬ C a)
    (acc w : List α) (u : σ) (v : List α) :
    M.Accepts (f acc) w u v ↔
      ∃ x a y, w = x ++ a :: y ∧ (∀ c ∈ x, C c) ∧
        (∀ k < x.length, room (acc ++ x.take k)) ∧ E (acc ++ x) a ∧
        M.Accepts (g (acc ++ x) a) y u v := by
  induction w generalizing acc with
  | nil => simp
  | cons c w ih =>
      by_cases hc : C c
      · by_cases hroom : room acc
        · rw [(hmore acc c hc hroom).accepts_iff, ih]
          constructor
          · rintro ⟨x, a, y, rfl, hx, hfit, hE, hacc⟩
            refine ⟨c :: x, a, y, rfl, ?_, ?_, by simpa using hE, by simpa using hacc⟩
            · intro d hd
              rcases List.mem_cons.mp hd with rfl | hd
              · exact hc
              · exact hx d hd
            · intro k hk
              cases k with
              | zero => simpa using hroom
              | succ k => simpa using hfit k (by simpa using hk)
          · rintro ⟨x, a, y, heq, hx, hfit, hE, hacc⟩
            -- a leaving symbol is not of the class, so the run is not empty
            cases x with
            | nil =>
                obtain ⟨rfl, rfl⟩ : c = a ∧ w = y := by simpa using heq
                exact absurd hc (hdisj _ _ hE)
            | cons d x =>
                obtain ⟨rfl, rfl⟩ : c = d ∧ w = x ++ a :: y := by simpa using heq
                refine ⟨x, a, y, rfl, fun d hd => hx d (List.mem_cons_of_mem _ hd), ?_,
                  by simpa using hE, by simpa using hacc⟩
                intro k hk
                simpa using hfit (k + 1) (by simpa using hk)
        · refine iff_of_false ((hfull acc c hc hroom).not_accepts w u v) ?_
          rintro ⟨x, a, y, heq, hx, hfit, hE, -⟩
          cases x with
          | nil =>
              obtain ⟨rfl, rfl⟩ : c = a ∧ w = y := by simpa using heq
              exact hdisj _ _ hE hc
          | cons d x => exact hroom (by simpa using hfit 0 (by simp))
      -- outside the class the run is empty, and the symbol leaves or is refused
      · have hnil : ∀ x a y, c :: w = x ++ a :: y → (∀ d ∈ x, C d) →
            x = [] ∧ a = c ∧ y = w := by
          intro x a y heq hx
          cases x with
          | nil =>
              obtain ⟨rfl, rfl⟩ : c = a ∧ w = y := by simpa using heq
              exact ⟨rfl, rfl, rfl⟩
          | cons d x =>
              obtain ⟨rfl, -⟩ : c = d ∧ w = x ++ a :: y := by simpa using heq
              exact absurd (hx c (by simp)) hc
        by_cases hE : E acc c
        · rw [(hexit acc c hE).accepts_iff]
          constructor
          · intro hacc
            exact ⟨[], c, w, rfl, by simp, by simp, by simpa using hE, by simpa using hacc⟩
          · rintro ⟨x, a, y, heq, hx, -, -, hacc⟩
            obtain ⟨rfl, rfl, rfl⟩ := hnil x a y heq hx
            simpa using hacc
        · refine iff_of_false ((hbad acc c hc hE).not_accepts w u v) ?_
          rintro ⟨x, a, y, heq, hx, -, hE', -⟩
          obtain ⟨rfl, rfl, rfl⟩ := hnil x a y heq hx
          exact hE (by simpa using hE')

/-! ### Counted payload -/

/-- **The counting rule.** The states `f k` take any symbol as payload and count
it; the `n`-th one leads to `g` without ending the word. -/
theorem accepts_count_iff (M : Transducer σ α β ε) (f : ℕ → σ) (g : σ) (n : ℕ)
    (hmore : ∀ k a, k + 1 < n →
      ∃ b, M.step (f k) a = .ok (f (k + 1), b) ∧ M.last b = false ∧ M.emit b = true)
    (hdone : ∀ k a, k + 1 = n →
      ∃ b, M.step (f k) a = .ok (g, b) ∧ M.last b = false ∧ M.emit b = true)
    (k : ℕ) (hk : k < n) (w : List α) (u : σ) (v : List α) :
    M.Accepts (f k) w u v ↔
      ∃ x y v', w = x ++ y ∧ k + x.length = n ∧ v = x ++ v' ∧ M.Accepts g y u v' := by
  induction w generalizing k v with
  | nil =>
      refine iff_of_false (by simp) ?_
      rintro ⟨x, y, v', heq, hlen, -, hacc⟩
      obtain ⟨rfl, rfl⟩ : x = [] ∧ y = [] := by simpa using heq.symm
      simp at hacc
  | cons a w ih =>
      -- there is payload to come, so however the word is split it takes this symbol
      have hsplit : ∀ x y, a :: w = x ++ y → k + x.length = n →
          ∃ x', x = a :: x' ∧ w = x' ++ y := by
        intro x y heq hlen
        cases x with
        | nil =>
            simp at hlen
            omega
        | cons c x =>
            obtain ⟨rfl, rfl⟩ : a = c ∧ w = x ++ y := by simpa using heq
            exact ⟨x, rfl, rfl⟩
      rcases Nat.lt_or_ge (k + 1) n with hlt | hge
      · obtain ⟨b, hb, hlast, hemit⟩ := hmore k a hlt
        rw [accepts_cons_payload_iff hb hlast hemit]
        constructor
        · rintro ⟨v₁, rfl, hacc⟩
          obtain ⟨x, y, v', rfl, hlen, rfl, hg⟩ := (ih (k + 1) hlt v₁).mp hacc
          exact ⟨a :: x, y, v', rfl, by simp only [List.length_cons]; omega, rfl, hg⟩
        · rintro ⟨x, y, v', heq, hlen, rfl, hg⟩
          obtain ⟨x', rfl, rfl⟩ := hsplit x y heq hlen
          simp only [List.length_cons] at hlen
          exact ⟨x' ++ v', rfl, (ih (k + 1) hlt _).mpr ⟨x', y, v', rfl, by omega, rfl, hg⟩⟩
      · obtain ⟨b, hb, hlast, hemit⟩ := hdone k a (by omega)
        rw [accepts_cons_payload_iff hb hlast hemit]
        constructor
        · rintro ⟨v', rfl, hg⟩
          exact ⟨[a], w, v', rfl, by simp only [List.length_singleton]; omega, rfl, hg⟩
        · rintro ⟨x, y, v', heq, hlen, rfl, hg⟩
          obtain ⟨x', rfl, rfl⟩ := hsplit x y heq hlen
          simp only [List.length_cons] at hlen
          obtain rfl : x' = [] := List.eq_nil_of_length_eq_zero (by omega)
          exact ⟨v', rfl, hg⟩

/-- The counting rule for a payload whose `n`-th symbol ends the word. -/
theorem accepts_count_last_iff (M : Transducer σ α β ε) (f : ℕ → σ) (g : σ) (n : ℕ)
    (hmore : ∀ k a, k + 1 < n →
      ∃ b, M.step (f k) a = .ok (f (k + 1), b) ∧ M.last b = false ∧ M.emit b = true)
    (hdone : ∀ k a, k + 1 = n →
      ∃ b, M.step (f k) a = .ok (g, b) ∧ M.last b = true ∧ M.emit b = true)
    (k : ℕ) (hk : k < n) (w : List α) (u : σ) (v : List α) :
    M.Accepts (f k) w u v ↔ k + w.length = n ∧ u = g ∧ v = w := by
  induction w generalizing k v with
  | nil =>
      refine iff_of_false (by simp) ?_
      rintro ⟨hlen, -, -⟩
      simp at hlen
      omega
  | cons a w ih =>
      rcases Nat.lt_or_ge (k + 1) n with hlt | hge
      · obtain ⟨b, hb, hlast, hemit⟩ := hmore k a hlt
        rw [accepts_cons_payload_iff hb hlast hemit]
        constructor
        · rintro ⟨v', rfl, hacc⟩
          obtain ⟨hlen, rfl, rfl⟩ := (ih (k + 1) hlt v').mp hacc
          exact ⟨by simp only [List.length_cons]; omega, rfl, rfl⟩
        · rintro ⟨hlen, rfl, rfl⟩
          simp only [List.length_cons] at hlen
          exact ⟨w, rfl, (ih (k + 1) hlt w).mpr ⟨by omega, rfl, rfl⟩⟩
      · obtain ⟨b, hb, hlast, hemit⟩ := hdone k a (by omega)
        rw [accepts_cons_last_iff hb hlast]
        have hone : M.emitted a b = [a] := by simp [emitted, hemit]
        rw [hone]
        constructor
        · rintro ⟨rfl, rfl, rfl⟩
          exact ⟨by simp only [List.length_singleton]; omega, rfl, rfl⟩
        · rintro ⟨hlen, rfl, rfl⟩
          simp only [List.length_cons] at hlen
          obtain rfl : w = [] := List.eq_nil_of_length_eq_zero (by omega)
          exact ⟨rfl, rfl, rfl⟩

/-! ### Extension and simulation -/

theorem lastState_map (view : σ → τ) (s : σ) (rs : List (σ × β)) :
    lastState (view s) (rs.map fun r => (view r.1, r.2)) = view (lastState s rs) := by
  cases h : rs.getLast? <;> simp [lastState, h]

theorem payload_map (M : Transducer σ α β ε) (view : σ → σ) (w : List α) (rs : List (σ × β)) :
    M.payload w (rs.map fun r => (view r.1, r.2)) = M.payload w rs := by
  induction w generalizing rs with
  | nil => simp
  | cons a w ih =>
      cases rs with
      | nil => rfl
      | cons r rs => rw [List.map_cons, payload_cons, payload_cons, ih]

/-- What `M` reads from a state where `I` holds, `N` reads as well, with the same answer.
`N` may read more. -/
structure Extends (M : Transducer σ α β ε) (N : Transducer τ α β δ) (I : σ → Prop)
    (view : σ → τ) : Prop where
  step_ok : ∀ {s a t b}, I s → M.step s a = .ok (t, b) →
    I t ∧ N.step (view s) a = .ok (view t, b)
  emit_eq : M.emit = N.emit
  last_eq : M.last = N.last

namespace Extends

variable {M : Transducer σ α β ε} {N : Transducer τ α β δ} {I : σ → Prop} {view : σ → τ}

theorem run_ok (h : Extends M N I view) {s : σ} {w : List α} {rs : List (σ × β)} (hs : I s)
    (hrun : M.run s w = .ok rs) :
    (∀ r ∈ rs, I r.1) ∧ N.run (view s) w = .ok (rs.map fun r => (view r.1, r.2)) := by
  induction w generalizing s rs with
  | nil =>
      cases hrun
      exact ⟨by simp, rfl⟩
  | cons a w ih =>
      obtain ⟨⟨t, b⟩, rs', hstep, hrest, rfl⟩ := (run_cons_ok_iff _ _ _ _ _).mp hrun
      obtain ⟨ht, hstep'⟩ := h.step_ok hs hstep
      obtain ⟨hrs, hrest'⟩ := ih ht hrest
      refine ⟨List.forall_mem_cons.mpr ⟨ht, hrs⟩, ?_⟩
      exact (run_cons_ok_iff _ _ _ _ _).mpr ⟨_, _, hstep', hrest', rfl⟩

theorem accepts (h : Extends M N I view) {s u : σ} {w v : List α} (hs : I s)
    (hacc : M.Accepts s w u v) : I u ∧ N.Accepts (view s) w (view u) v := by
  have hemitted : ∀ a b, M.emitted a b = N.emitted a b := fun a b => by
    simp [emitted, h.emit_eq]
  induction hacc with
  | last hstep hlast =>
      obtain ⟨ht, hN⟩ := h.step_ok hs hstep
      rw [hemitted]
      exact ⟨ht, .last hN (h.last_eq ▸ hlast)⟩
  | more hstep hlast _ ih =>
      obtain ⟨ht, hN⟩ := h.step_ok hs hstep
      obtain ⟨hu, hrest⟩ := ih ht
      rw [hemitted]
      exact ⟨hu, .more hN (h.last_eq ▸ hlast) hrest⟩

end Extends

/-- `view` maps the states of `M` on which `I` holds to states of `N` that
answer every symbol alike; refusals are refusals. -/
structure Simulates (M : Transducer σ α β ε) (N : Transducer τ α β δ) (I : σ → Prop)
    (view : σ → τ) : Prop where
  step_ok : ∀ {s a t b}, I s → M.step s a = .ok (t, b) →
    I t ∧ N.step (view s) a = .ok (view t, b)
  step_error : ∀ {s a e}, I s → M.step s a = .error e → ∃ d, N.step (view s) a = .error d
  emit_eq : M.emit = N.emit
  last_eq : M.last = N.last

namespace Simulates

variable {M : Transducer σ α β ε} {N : Transducer τ α β δ} {I : σ → Prop} {view : σ → τ}

theorem toExtends (h : Simulates M N I view) : Extends M N I view :=
  ⟨h.step_ok, h.emit_eq, h.last_eq⟩

theorem accepts (h : Simulates M N I view) {s u : σ} {w v : List α} (hs : I s)
    (hacc : M.Accepts s w u v) : I u ∧ N.Accepts (view s) w (view u) v :=
  h.toExtends.accepts hs hacc

theorem step_of_view (h : Simulates M N I view) {s : σ} {a : α} {t' : τ} {b : β} (hs : I s)
    (hN : N.step (view s) a = .ok (t', b)) :
    ∃ t, M.step s a = .ok (t, b) ∧ I t ∧ view t = t' := by
  cases hM : M.step s a with
  | error e =>
      obtain ⟨d, hd⟩ := h.step_error hs hM
      simp [hd] at hN
  | ok r =>
      obtain ⟨ht, hN'⟩ := h.step_ok hs hM
      obtain ⟨rfl, rfl⟩ : view r.1 = t' ∧ r.2 = b := by simpa [hN'] using hN
      exact ⟨r.1, rfl, ht, rfl⟩

theorem accepts_of_view (h : Simulates M N I view) {s : σ} {u' : τ} {w v : List α} (hs : I s)
    (hacc : N.Accepts (view s) w u' v) : ∃ u, M.Accepts s w u v ∧ view u = u' := by
  have hemitted : ∀ a b, N.emitted a b = M.emitted a b := fun a b => by
    simp [emitted, h.emit_eq]
  generalize hs' : view s = s' at hacc
  induction hacc generalizing s with
  | last hstep hlast =>
      obtain ⟨t, hM, -, rfl⟩ := h.step_of_view hs (hs' ▸ hstep)
      rw [hemitted]
      exact ⟨t, .last hM (h.last_eq ▸ hlast), rfl⟩
  | more hstep hlast _ ih =>
      obtain ⟨t, hM, ht, rfl⟩ := h.step_of_view hs (hs' ▸ hstep)
      obtain ⟨u, hrest, rfl⟩ := ih ht rfl
      rw [hemitted]
      exact ⟨u, .more hM (h.last_eq ▸ hlast) hrest, rfl⟩

end Simulates

end Transducer

end Httpxx.Library
