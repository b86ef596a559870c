import Httpxx.Grammar.Message

/-!
The machine over phases reads a first line exactly when it is one of the grammar.
The three tokens are read alike, after white space that is skipped: `Field` says
what two phases that read one of them do with one byte, and `accepts_field_iff`
what they read together.
-/

namespace Httpxx.Grammar

open Library Phase

variable {lim : Limits}

/-- A token and the white space before it. The phase `s` skips white space until a
visible byte begins the token; the phases `f t` collect characters of the class
`C` up to a limit and leave on a byte that `E` admits. -/
structure Field (lim : Limits) (s : Phase) (f g : Bytes → Phase) (C E : Byte → Prop)
    (bound : ℕ) : Prop where
  skip : ∀ ch, isSpaceOrTab ch = true → (recogniser lim).Silent s ch s
  start : ∀ ch, Visible ch → (recogniser lim).Silent s ch (f [ch])
  reject : ∀ ch, ¬ isSpaceOrTab ch = true → ¬ Visible ch → (recogniser lim).Refuses s ch
  more : ∀ t ch, C ch → t.length < bound → (recogniser lim).Silent (f t) ch (f (t ++ [ch]))
  full : ∀ t ch, C ch → ¬ t.length < bound → (recogniser lim).Refuses (f t) ch
  exit : ∀ t ch, E ch → (recogniser lim).Silent (f t) ch (g t)
  bad : ∀ t ch, ¬ C ch → ¬ E ch → (recogniser lim).Refuses (f t) ch
  disjoint : ∀ ch, E ch → ¬ C ch
  visible : ∀ ch, Visible ch → C ch

/-- The bytes after the first one find room exactly when the token fits. -/
theorem room_iff (a : Byte) (x : Bytes) (bound : ℕ) :
    (∀ k < x.length, ([a] ++ x.take k).length < bound) ↔ ([a] ++ x).length ≤ max 1 bound := by
  simp only [List.length_append, List.length_singleton, List.length_take]
  constructor
  · intro h
    rcases Nat.eq_zero_or_pos x.length with hx | hx
    · omega
    · have := h (x.length - 1) (by omega)
      omega
  · intro h k hk
    omega

/-- **The rule for a token and the white space before it.** -/
theorem accepts_field_iff {s : Phase} {f g : Bytes → Phase} {C E : Byte → Prop} {bound : ℕ}
    (h : Field lim s f g C E bound) (w : Bytes) (u : Phase) (v : Bytes) :
    (recogniser lim).Accepts s w u v ↔
      ∃ gap t b y, w = gap ++ t ++ b :: y ∧ (∀ ch ∈ gap, isSpaceOrTab ch = true) ∧ t ≠ [] ∧
        TokenSafe C bound t ∧ (∀ ch ∈ t.head?, Visible ch) ∧ E b ∧
          (recogniser lim).Accepts (g t) y u v := by
  have hgap := Transducer.accepts_scan_iff (recogniser lim) (fun _ => s) (fun _ ch => f [ch])
    (fun ch => isSpaceOrTab ch = true) (fun _ => True) (fun _ ch => Visible ch)
    (fun _ ch hch _ => h.skip ch hch) (fun _ _ _ hno => absurd trivial hno)
    (fun _ ch hch => h.start ch hch) (fun _ ch hsp hch => h.reject ch hsp hch)
    (fun _ ch hch hsp => by simp [(visible_iff ch).mp hch] at hsp) [] w u v
  have htoken := fun a z => Transducer.accepts_scan_iff (recogniser lim) f (fun t _ => g t)
    C (fun t => t.length < bound) (fun _ ch => E ch)
    h.more h.full h.exit h.bad (fun _ => h.disjoint) [a] z u v
  rw [hgap]
  constructor
  · rintro ⟨gap, a, z, rfl, hspaces, -, ha, hrest⟩
    obtain ⟨x, b, y, rfl, hx, hroom, hb, hacc⟩ := (htoken a z).mp hrest
    refine ⟨gap, [a] ++ x, b, y, by simp, hspaces, by simp, ⟨?_, (room_iff a x bound).mp hroom⟩,
      by simpa using ha, hb, hacc⟩
    intro ch hch
    rcases List.mem_cons.mp hch with rfl | hch
    · exact h.visible _ ha
    · exact hx ch hch
  · rintro ⟨gap, t, b, y, rfl, hspaces, hne, ⟨hchars, hlength⟩, hhead, hb, hacc⟩
    obtain ⟨a, x, rfl⟩ := List.exists_cons_of_ne_nil hne
    exact ⟨gap, a, x ++ b :: y, by simp, hspaces, by simp, hhead a rfl,
      (htoken a _).mpr ⟨x, b, y, rfl, fun ch hch => hchars ch (List.mem_cons_of_mem _ hch),
        (room_iff a x bound).mpr hlength, hb, hacc⟩⟩

theorem not_visible_of_isSpaceOrTab {ch : Byte} (h : isSpaceOrTab ch = true) : ¬ Visible ch := by
  intro hch
  simp [(visible_iff ch).mp hch] at h

theorem firstToken_field : Field lim .leadingSP .firstToken .firstTokenSP Visible
    (fun ch => isSpaceOrTab ch = true) lim.maxFirstTokenLength where
  skip ch hsp := silent_of_next (by simp [next, hsp]) rfl rfl
  start ch hch := silent_of_next (by simp [next, (visible_iff ch).mp hch]) rfl rfl
  reject ch hsp hch := by
    rw [visible_iff] at hch
    exact refuses_of_next .invalidFirstToken (by simp_all [next])
  more t ch hch hroom :=
    silent_of_next (by simp [next, (visible_iff ch).mp hch, Nat.not_le.mpr hroom]) rfl rfl
  full t ch hch hroom := refuses_of_next .firstTokenIsTooLong
    (by simp [next, (visible_iff ch).mp hch, Nat.not_lt.mp hroom])
  exit t ch hsp := silent_of_next (by simp [next, hsp]) rfl rfl
  bad t ch hch hsp := by
    rw [visible_iff] at hch
    exact refuses_of_next .invalidFirstToken (by simp_all [next])
  disjoint _ := not_visible_of_isSpaceOrTab
  visible _ := id

theorem secondToken_field (t₁ : Bytes) : Field lim (.firstTokenSP t₁) (.secondToken t₁)
    (.secondTokenSP t₁) Visible (fun ch => isSpaceOrTab ch = true)
    lim.maxSecondTokenLength where
  skip ch hsp := silent_of_next (by simp [next, hsp]) rfl rfl
  start ch hch := silent_of_next (by simp [next, (visible_iff ch).mp hch]) rfl rfl
  reject ch hsp hch := by
    rw [visible_iff] at hch
    exact refuses_of_next .invalidSecondToken (by simp_all [next])
  more t ch hch hroom :=
    silent_of_next (by simp [next, (visible_iff ch).mp hch, Nat.not_le.mpr hroom]) rfl rfl
  full t ch hch hroom := refuses_of_next .secondTokenIsTooLong
    (by simp [next, (visible_iff ch).mp hch, Nat.not_lt.mp hroom])
  exit t ch hsp := silent_of_next (by simp [next, hsp]) rfl rfl
  bad t ch hch hsp := by
    rw [visible_iff] at hch
    exact refuses_of_next .invalidSecondToken (by simp_all [next])
  disjoint _ := not_visible_of_isSpaceOrTab
  visible _ := id

theorem thirdToken_field (t₁ t₂ : Bytes) : Field lim (.secondTokenSP t₁ t₂) (.thirdToken t₁ t₂)
    (fun t₃ => .firstLineLF ⟨t₁, t₂, t₃, ∅⟩) Printable (fun ch => ch = CR)
    lim.maxThirdTokenLength where
  skip ch hsp := silent_of_next (by simp [next, hsp]) rfl rfl
  start ch hch := silent_of_next (by simp [next, (visible_iff ch).mp hch]) rfl rfl
  reject ch hsp hch := by
    rw [visible_iff] at hch
    exact refuses_of_next .invalidThirdToken (by simp_all [next])
  more t ch hch hroom := by
    have hcr : isCarriageReturn ch = false := by simpa [isCarriageReturn] using hch.ne_CR
    rw [printable_iff] at hch
    exact silent_of_next (by simp [next, hcr, hch, Nat.not_le.mpr hroom]) rfl rfl
  full t ch hch hroom := by
    have hcr : isCarriageReturn ch = false := by simpa [isCarriageReturn] using hch.ne_CR
    rw [printable_iff] at hch
    exact refuses_of_next .thirdTokenIsTooLong
      (by simp [next, hcr, hch, Nat.not_lt.mp hroom])
  exit t ch hcr := silent_of_next (by simp [next, hcr]) rfl rfl
  bad t ch hch hcr := by
    have hcr : isCarriageReturn ch = false := by simpa [isCarriageReturn] using hcr
    rw [printable_iff] at hch
    exact refuses_of_next .invalidThirdToken (by simp_all [next])
  disjoint ch hcr hch := hch.ne_CR hcr
  visible _ := Visible.printable

theorem accepts_message_iff (m : Shown) (w : Bytes) (u : Phase) (v : Bytes) :
    (recogniser lim).Accepts (.message m) w u v ↔ (recogniser lim).Accepts .leadingSP w u v := by
  cases w with
  | nil => simp
  | cons ch w =>
      exact Transducer.accepts_cons_congr (by simp [recogniser, step, next, bodyExpected]) w u v

theorem accepts_firstLineLF_iff (m : Shown) (w : Bytes) (u : Phase) (v : Bytes) :
    (recogniser lim).Accepts (.firstLineLF m) w u v ↔
      ∃ y, w = LF :: y ∧ (recogniser lim).Accepts (.header false m) y u v :=
  Transducer.accepts_expect_iff (silent_of_next (by simp [next]) rfl rfl)
    (fun ch hch => refuses_of_next .invalidFirstLineLF (by simp [next, isLineFeed, hch])) w u v

/-- **A first line.** Between messages the machine accepts a word exactly when it
begins with a first line and the rest is accepted as header section and body. -/
theorem accepts_firstLine_iff (m : Shown) (w : Bytes) (u : Phase) (v : Bytes) :
    (recogniser lim).Accepts (.message m) w u v ↔
      ∃ (l : FirstLine lim) (y : Bytes), w = l.text ++ y ∧
        (recogniser lim).Accepts (.header false l.shown) y u v := by
  rw [accepts_message_iff, accepts_field_iff firstToken_field]
  constructor
  · rintro ⟨lead, t₁, b₁, w, rfl, hlead, hne₁, hsafe₁, -, hb₁, h₁⟩
    obtain ⟨gap₁, t₂, b₂, w, rfl, hgap₁, hne₂, hsafe₂, -, hb₂, h₂⟩ :=
      (accepts_field_iff (secondToken_field t₁) w u v).mp h₁
    obtain ⟨gap₂, t₃, b₃, w, rfl, hgap₂, hne₃, hsafe₃, hhead, rfl, h₃⟩ :=
      (accepts_field_iff (thirdToken_field t₁ t₂) w u v).mp h₂
    obtain ⟨y, rfl, h⟩ := (accepts_firstLineLF_iff _ w u v).mp h₃
    refine ⟨⟨lead, t₁, b₁ :: gap₁, t₂, b₂ :: gap₂, t₃, hlead, hne₁, hsafe₁, by simp,
      List.forall_mem_cons.mpr ⟨hb₁, hgap₁⟩, hne₂, hsafe₂, by simp,
      List.forall_mem_cons.mpr ⟨hb₂, hgap₂⟩, hne₃, hsafe₃, fun ch hch =>
        ((visible_iff_printable_ne_SP ch).mp (hhead ch hch)).2⟩, y, ?_, h⟩
    simp [FirstLine.text]
  · rintro ⟨l, y, rfl, h⟩
    obtain ⟨b₁, gap₁, hgap₁⟩ := List.exists_cons_of_ne_nil l.gap₁_ne
    obtain ⟨b₂, gap₂, hgap₂⟩ := List.exists_cons_of_ne_nil l.gap₂_ne
    have hspace₁ := l.gap₁_space
    have hspace₂ := l.gap₂_space
    rw [hgap₁, List.forall_mem_cons] at hspace₁
    rw [hgap₂, List.forall_mem_cons] at hspace₂
    have hvisible : ∀ {t : Bytes}, (∀ ch ∈ t, Visible ch) → ∀ ch ∈ t.head?, Visible ch :=
      fun ht ch hch => ht ch (List.mem_of_mem_head? hch)
    refine ⟨l.leading, l.firstToken, b₁, gap₁ ++ l.secondToken ++ b₂ ::
      (gap₂ ++ l.thirdToken ++ CR :: LF :: y), by simp [FirstLine.text, hgap₁, hgap₂],
      l.leading_space, l.firstToken_ne, l.firstToken_safe, hvisible l.firstToken_safe.chars,
      hspace₁.1, ?_⟩
    refine (accepts_field_iff (secondToken_field _) _ u v).mpr ⟨gap₁, l.secondToken, b₂, _, rfl,
      hspace₁.2, l.secondToken_ne, l.secondToken_safe, hvisible l.secondToken_safe.chars,
      hspace₂.1, ?_⟩
    refine (accepts_field_iff (thirdToken_field _ _) _ u v).mpr ⟨gap₂, l.thirdToken, CR, _, rfl,
      hspace₂.2, l.thirdToken_ne, l.thirdToken_safe, fun ch hch => ?_, rfl, ?_⟩
    · exact (visible_iff_printable_ne_SP ch).mpr
        ⟨l.thirdToken_safe.chars ch (List.mem_of_mem_head? hch), l.thirdToken_head ch hch⟩
    · exact (accepts_firstLineLF_iff _ _ u v).mpr ⟨y, rfl, h⟩

end Httpxx.Grammar
