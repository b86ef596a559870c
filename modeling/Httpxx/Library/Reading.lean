import Httpxx.Library.Transducer

/-!
Words that a machine reads on the way through a longer one.

`Reads M s w v t` says that from `s` the machine takes the symbols of `w` one by one,
none of which ends a word, answers `v` of them as payload, and is then in `t`. The
judgment is composed symbol by symbol and word by word (`Reads.append`); a state that
collects symbols reads a run of them (`reads_scan`), one that counts payload reads that
much (`reads_count`); and it is carried over along a simulation
(`Simulates.reads_of_view`). A part that is read can be taken off the front of a word,
whether the word is accepted (`Reads.accepts_iff`) or refused (`Reads.refusal_append`).
-/

namespace Httpxx.Library.Transducer

variable {σ τ α β ε δ : Type} {M : Transducer σ α β ε}

/-- From `s` the machine reads the symbols of `w`, none of which ends a word, with the
payload `v`, and ends in `t`. -/
inductive Reads (M : Transducer σ α β ε) : σ → List α → List α → σ → Prop
  | nil (s : σ) : Reads M s [] [] s
  | cons {s t u : σ} {a : α} {b : β} {w v : List α} :
      M.step s a = .ok (t, b) → M.last b = false → Reads M t w v u →
        Reads M s (a :: w) (M.emitted a b ++ v) u

theorem Silent.reads_cons {s t u : σ} {a : α} {w v : List α} (h : M.Silent s a t)
    (hrest : M.Reads t w v u) : M.Reads s (a :: w) v u := by
  obtain ⟨b, hb, hlast, hemit⟩ := h
  have hall := Reads.cons hb hlast hrest
  rwa [show M.emitted a b = [] by simp [emitted, hemit], List.nil_append] at hall

theorem Silent.reads {s t : σ} {a : α} (h : M.Silent s a t) : M.Reads s [a] [] t :=
  h.reads_cons (.nil t)

theorem Reads.append {s t u : σ} {w z v v' : List α} (h : M.Reads s w v t)
    (h' : M.Reads t z v' u) : M.Reads s (w ++ z) (v ++ v') u := by
  induction h with
  | nil s => exact h'
  | cons hstep hlast _ ih =>
      rw [List.append_assoc]
      exact .cons hstep hlast (ih h')

theorem Reads.append_silent {s t u : σ} {w z v : List α} (h : M.Reads s w [] t)
    (h' : M.Reads t z v u) : M.Reads s (w ++ z) v u := h.append h'

theorem Reads.accepts_iff {s t : σ} {w v : List α} (h : M.Reads s w v t) (z : List α) (u : σ)
    (v' : List α) : M.Accepts s (w ++ z) u v' ↔ ∃ v'', v' = v ++ v'' ∧ M.Accepts t z u v'' := by
  induction h generalizing v' with
  | nil s => simp
  | @cons s t r a b w v hstep hlast _ ih =>
      rw [List.cons_append]
      cases hemit : M.emit b with
      | false =>
          have hstep : M.Silent s a t := ⟨b, hstep, hlast, hemit⟩
          rw [hstep.accepts_iff, ih]
          simp [emitted, hemit]
      | true =>
          rw [accepts_cons_payload_iff hstep hlast hemit]
          constructor
          · rintro ⟨v₁, rfl, hacc⟩
            obtain ⟨v₂, rfl, hrest⟩ := (ih v₁).mp hacc
            exact ⟨v₂, by simp [emitted, hemit], hrest⟩
          · rintro ⟨v₂, rfl, hacc⟩
            exact ⟨v ++ v₂, by simp [emitted, hemit], (ih _).mpr ⟨v₂, rfl, hacc⟩⟩

theorem Reads.run {s t : σ} {w v : List α} (h : M.Reads s w v t) :
    ∃ rs, M.run s w = .ok rs ∧ lastState s rs = t ∧ (∀ r ∈ rs, M.last r.2 = false) ∧
      M.payload w rs = v := by
  induction h with
  | nil s => exact ⟨[], rfl, rfl, by simp, by simp⟩
  | @cons s t u a b w v hstep hlast _ ih =>
      obtain ⟨rs, hrun, hend, hall, hpayload⟩ := ih
      exact ⟨(t, b) :: rs, (run_cons_ok_iff M s a w _).mpr ⟨(t, b), rs, hstep, hrun, rfl⟩,
        by simpa using hend, List.forall_mem_cons.mpr ⟨hlast, hall⟩,
        by rw [payload_cons, hpayload]⟩

theorem Reads.run_step {s t : σ} {w v : List α} {a : α} {r : σ × β} (h : M.Reads s w v t)
    (hstep : M.step t a = .ok r) : ∃ rs, M.run s (w ++ [a]) = .ok (rs ++ [r]) := by
  obtain ⟨rs, hrun, rfl, -⟩ := h.run
  exact ⟨rs, (run_append_ok_iff M s w [a] _).mpr
    ⟨rs, [r], hrun, (run_cons_ok_iff M _ a [] _).mpr ⟨r, [], hstep, rfl, rfl⟩, rfl⟩⟩

theorem Reads.unique {s t u : σ} {w v v' : List α} (h : M.Reads s w v t)
    (h' : M.Reads s w v' u) : t = u ∧ v = v' := by
  obtain ⟨rs, hrun, rfl, -, rfl⟩ := h.run
  obtain ⟨rs', hrun', rfl, -, rfl⟩ := h'.run
  obtain rfl : rs = rs' := by simpa [hrun] using hrun'
  exact ⟨rfl, rfl⟩

/-- States that answer a symbol alike read the same words that begin with it. -/
theorem reads_cons_congr {s s' t : σ} {a : α} {w v : List α} (hstep : M.step s a = M.step s' a)
    (h : M.Reads s' (a :: w) v t) : M.Reads s (a :: w) v t := by
  cases h with
  | cons hb hlast hrest => exact .cons (hstep.trans hb) hlast hrest

/-! ### Runs of symbols -/

/-- The states `f acc` collect the symbols of a class while there is room. -/
theorem reads_scan {f : List α → σ} {C : α → Prop} {bound : ℕ}
    (hmore : ∀ acc a, C a → acc.length < bound → M.Silent (f acc) a (f (acc ++ [a])))
    (acc : List α) {w : List α} (hw : ∀ a ∈ w, C a) (hroom : acc.length + w.length ≤ bound) :
    M.Reads (f acc) w [] (f (acc ++ w)) := by
  induction w generalizing acc with
  | nil =>
      rw [List.append_nil]
      exact .nil _
  | cons a w ih =>
      obtain ⟨ha, hw⟩ := List.forall_mem_cons.mp hw
      rw [List.length_cons] at hroom
      have hrest := ih (acc ++ [a]) hw (by simp; omega)
      rw [List.append_assoc, List.singleton_append] at hrest
      exact (hmore acc a ha (by omega)).reads_cons hrest

theorem reads_skip {s : σ} {C : α → Prop} (hskip : ∀ a, C a → M.Silent s a s) {w : List α}
    (hw : ∀ a ∈ w, C a) : M.Reads s w [] s := by
  induction w with
  | nil => exact .nil s
  | cons a w ih =>
      obtain ⟨ha, hw⟩ := List.forall_mem_cons.mp hw
      exact (hskip a ha).reads_cons (ih hw)

/-- The states `f k` take any symbol as payload and count it; the `n`-th one leads to
`g`. -/
theorem reads_count {f : ℕ → σ} {g : σ} {n : ℕ}
    (hmore : ∀ k a, k + 1 < n →
      ∃ b, M.step (f k) a = .ok (f (k + 1), b) ∧ M.last b = false ∧ M.emit b = true)
    (hdone : ∀ k a, k + 1 = n →
      ∃ b, M.step (f k) a = .ok (g, b) ∧ M.last b = false ∧ M.emit b = true)
    (k : ℕ) {w : List α} (hne : w ≠ []) (hlength : k + w.length = n) : M.Reads (f k) w w g := by
  have hone : ∀ {a : α} {b : β}, M.emit b = true → M.emitted a b = [a] := fun hemit => by
    simp [emitted, hemit]
  induction w generalizing k with
  | nil => exact absurd rfl hne
  | cons a w ih =>
      rw [List.length_cons] at hlength
      cases w with
      | nil =>
          obtain ⟨b, hb, hlast, hemit⟩ := hdone k a (by simpa using hlength)
          have hall := Reads.cons hb hlast (.nil g)
          rwa [hone hemit] at hall
      | cons c w =>
          rw [List.length_cons] at hlength
          obtain ⟨b, hb, hlast, hemit⟩ := hmore k a (by omega)
          have hall := Reads.cons hb hlast
            (ih (k + 1) (by simp) (by rw [List.length_cons]; omega))
          rwa [hone hemit] at hall

/-! ### Where a word of its own ends -/

/-- How a machine fares on a word: it reads all of it, or it comes to the end of one of
its own words, or it comes to a symbol that it refuses. -/
inductive Meets (M : Transducer σ α β ε) (s : σ) (w : List α) : Prop
  | inside {v : List α} {t : σ} : M.Reads s w v t → Meets M s w
  | ended {x y v : List α} {u : σ} : w = x ++ y → M.Accepts s x u v → Meets M s w
  | refused {x y v : List α} {a : α} {t : σ} :
      w = x ++ a :: y → M.Reads s x v t → M.Refuses t a → Meets M s w

theorem meets (M : Transducer σ α β ε) (s : σ) (w : List α) : M.Meets s w := by
  induction w generalizing s with
  | nil => exact .inside (.nil s)
  | cons a w ih =>
      cases hstep : M.step s a with
      | error e => exact .refused (x := []) rfl (.nil s) ⟨e, hstep⟩
      | ok r =>
          obtain ⟨t, b⟩ := r
          cases hlast : M.last b with
          | true => exact .ended (x := [a]) rfl (.last hstep hlast)
          | false =>
              -- the symbol is read, and the machine fares on as from the next state
              cases ih t with
              | inside h => exact .inside (.cons hstep hlast h)
              | @ended x y _ _ hw h =>
                  exact .ended (x := a :: x) (congrArg (a :: ·) hw) (.more hstep hlast h)
              | @refused x y _ c _ hw h hrefuses =>
                  exact .refused (x := a :: x) (congrArg (a :: ·) hw) (.cons hstep hlast h) hrefuses

theorem Reads.not_accepts {s t u : σ} {x y v v' : List α} (h : M.Reads s (x ++ y) v t) :
    ¬ M.Accepts s x u v' := by
  intro hacc
  induction hacc generalizing v with
  | last hstep hlast =>
      cases h with
      | cons hstep' hlast' _ => simp_all
  | more hstep _ _ ih =>
      cases h with
      | cons hstep' _ hrest =>
          obtain ⟨rfl, -⟩ : _ ∧ _ := by simpa [hstep] using hstep'
          exact ih hrest

/-- A word of the machine begins with what was read of it. -/
theorem Reads.exists_rest {s t u : σ} {x y w rest v v' : List α} (h : M.Reads s x v t)
    (hacc : M.Accepts s w u v') (heq : x ++ y = w ++ rest) :
    ∃ z v'', w = x ++ z ∧ y = z ++ rest ∧ z ≠ [] ∧ M.Accepts t z u v'' := by
  rcases List.append_eq_append_iff.mp heq with ⟨z, rfl, rfl⟩ | ⟨z, rfl, -⟩
  · obtain ⟨v'', -, hz⟩ := (h.accepts_iff z u v').mp hacc
    refine ⟨z, v'', rfl, rfl, ?_, hz⟩
    rintro rfl
    exact not_accepts_nil _ _ _ _ hz
  · exact absurd hacc h.not_accepts

/-- A symbol that is refused is in no word of the machine. -/
theorem Reads.not_accepts_of_refuses {s t u : σ} {x y w rest v v' : List α} {a : α}
    (h : M.Reads s x v t) (ha : M.Refuses t a) (heq : x ++ a :: y = w ++ rest) :
    ¬ M.Accepts s w u v' := by
  intro hacc
  obtain ⟨z, v'', rfl, hz, hne, hrest⟩ := h.exists_rest hacc heq
  cases z with
  | nil => exact hne rfl
  | cons b z =>
      obtain ⟨rfl, -⟩ := List.cons.inj hz
      exact ha.not_accepts z u v'' hrest

/-- A list begins with one word of the machine at most. -/
theorem Accepts.unique {s u u' : σ} {w w' rest rest' v v' : List α} (h : M.Accepts s w u v)
    (h' : M.Accepts s w' u' v') (heq : w ++ rest = w' ++ rest') : w = w' ∧ u = u' ∧ v = v' := by
  induction h generalizing w' v' with
  | last hstep hlast =>
      cases h' with
      | last hstep' _ =>
          obtain ⟨rfl, -⟩ := List.cons.inj heq
          simp_all
      | more hstep' hlast' _ =>
          obtain ⟨rfl, -⟩ := List.cons.inj heq
          simp_all
  | more hstep hlast _ ih =>
      cases h' with
      | last hstep' hlast' =>
          obtain ⟨rfl, -⟩ := List.cons.inj heq
          simp_all
      | more hstep' _ hrest' =>
          obtain ⟨rfl, hrest⟩ := List.cons.inj heq
          obtain ⟨rfl, rfl⟩ : _ ∧ _ := by simpa [hstep] using hstep'
          obtain ⟨rfl, rfl, rfl⟩ := ih hrest' hrest
          exact ⟨rfl, rfl, rfl⟩

theorem Accepts.exists_reads {s u : σ} {x z v : List α} (h : M.Accepts s (x ++ z) u v)
    (hz : z ≠ []) : ∃ v' t v'', M.Reads s x v' t ∧ M.Accepts t z u v'' := by
  cases M.meets s x with
  | @inside v' t hread =>
      obtain ⟨v'', -, hrest⟩ := (hread.accepts_iff z u v).mp h
      exact ⟨v', t, v'', hread, hrest⟩
  | @ended x' y _ _ hx hacc =>
      have hsame : x ++ z ++ [] = x' ++ (y ++ z) := by simp [hx]
      obtain ⟨heq, -, -⟩ := h.unique hacc hsame
      rw [hx, List.append_assoc] at heq
      simp [hz] at heq
  | @refused x' y _ a _ hx hread hrefuses =>
      have hsame : x' ++ a :: (y ++ z) = x ++ z ++ [] := by simp [hx]
      exact absurd h (hread.not_accepts_of_refuses hrefuses hsame)

/-! ### Dead ends -/

/-- Some word is accepted from the state. A state that is not live is a dead end: the
machine may read on from there for long, and refuses in the end or never ends a word. -/
def Live (M : Transducer σ α β ε) (s : σ) : Prop := ∃ w u v, M.Accepts s w u v

theorem Live.of_step {s t : σ} {a : α} {b : β} (hstep : M.step s a = .ok (t, b))
    (h : M.last b = true ∨ M.Live t) : M.Live s := by
  cases hlast : M.last b with
  | true => exact ⟨[a], t, _, .last hstep hlast⟩
  | false =>
      obtain ⟨w, u, v, hacc⟩ := h.resolve_left (by simp [hlast])
      exact ⟨a :: w, u, _, .more hstep hlast hacc⟩

/-- **The rule for dead ends.** A property that a state has when one symbol ends a word
from there, or leads to a state that has it, is one of every live state. -/
theorem Live.induction {L : σ → Prop}
    (hstep : ∀ {s t a b}, M.step s a = .ok (t, b) → (M.last b = true ∨ L t) → L s) {s : σ}
    (h : M.Live s) : L s := by
  obtain ⟨w, u, v, hacc⟩ := h
  induction hacc with
  | last h hlast => exact hstep h (.inl hlast)
  | more h _ _ ih => exact hstep h (.inr ih)

/-! ### Refusals -/

/-- What a run along a word is refused with, if it is. -/
def refusal (M : Transducer σ α β ε) (s : σ) (w : List α) : Option ε :=
  match M.run s w with
  | .ok _ => none
  | .error e => some e

theorem refusal_eq_none_iff {s : σ} {w : List α} :
    M.refusal s w = none ↔ ∃ rs, M.run s w = .ok rs := by
  rw [refusal]
  cases M.run s w <;> simp

theorem refusal_cons (s : σ) (a : α) (w : List α) :
    M.refusal s (a :: w) = match M.step s a with
      | .ok r => M.refusal r.1 w
      | .error e => some e := by
  simp only [refusal, Transducer.run, bind, Except.bind, pure, Except.pure]
  cases M.step s a with
  | error e => rfl
  | ok r =>
      simp only
      cases M.run r.1 w <;> rfl

theorem Reads.refusal_append {s t : σ} {w v : List α} (h : M.Reads s w v t) (z : List α) :
    M.refusal s (w ++ z) = M.refusal t z := by
  induction h with
  | nil s => rfl
  | cons hstep _ _ ih =>
      rw [List.cons_append, refusal_cons, hstep]
      exact ih

theorem Reads.refusal_eq_none {s t : σ} {w v : List α} (h : M.Reads s w v t) :
    M.refusal s w = none := by
  obtain ⟨rs, hrun, -⟩ := h.run
  exact refusal_eq_none_iff.mpr ⟨rs, hrun⟩

/-! ### Simulation -/

namespace Simulates

variable {N : Transducer τ α β δ} {I : σ → Prop} {view : σ → τ}

theorem reads_of_view (h : Simulates M N I view) {s : σ} {w v : List α} {t' : τ} (hs : I s)
    (hN : N.Reads (view s) w v t') : ∃ t, M.Reads s w v t ∧ I t ∧ view t = t' := by
  have hemitted : ∀ a b, N.emitted a b = M.emitted a b := fun a b => by
    simp [emitted, h.emit_eq]
  generalize hs' : view s = s' at hN
  induction hN generalizing s with
  | nil _ => exact ⟨s, .nil s, hs, hs'⟩
  | cons hstep hlast _ ih =>
      obtain ⟨t, hM, ht, rfl⟩ := h.step_of_view hs (hs' ▸ hstep)
      obtain ⟨u, hrest, hu, rfl⟩ := ih ht rfl
      rw [hemitted]
      exact ⟨u, .cons hM (h.last_eq ▸ hlast) hrest, hu, rfl⟩

theorem live_iff (h : Simulates M N I view) {s : σ} (hs : I s) :
    M.Live s ↔ N.Live (view s) := by
  constructor
  · rintro ⟨w, u, v, hacc⟩
    exact ⟨w, view u, v, (h.accepts hs hacc).2⟩
  · rintro ⟨w, u, v, hacc⟩
    obtain ⟨t, ht, -⟩ := h.accepts_of_view hs hacc
    exact ⟨w, t, v, ht⟩

end Simulates

end Httpxx.Library.Transducer
