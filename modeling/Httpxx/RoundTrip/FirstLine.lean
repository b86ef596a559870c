import Httpxx.Grammar.Reading
import Httpxx.RoundTrip.Written

/-!
Composing a first line, then parsing it. The first two tokens always come back. The
third one shares the space before it with the state that skips white space: spaces at
its start are lost in that state, and a token with nothing else in it leaves the state
no way on. So exactly the non-empty third tokens that do not begin with a space come
back.
-/

namespace Httpxx

open Library

variable {lim : Limits} {c : MessageComposer}

/-- The tokens that the parser describes: bytes `0x21..0x7E`, at least one, in the first
and the second, and characters other than controls in the third. -/
structure MessageComposer.Described (c : MessageComposer) : Prop where
  firstToken_ne : c.firstToken ≠ []
  firstToken_visible : ∀ ch ∈ c.firstToken, Visible ch
  secondToken_ne : c.secondToken ≠ []
  secondToken_visible : ∀ ch ∈ c.secondToken, Visible ch
  thirdToken_printable : ∀ ch ∈ c.thirdToken, Printable ch

instance (c : MessageComposer) : Decidable c.Described :=
  decidable_of_iff (c.firstToken ≠ [] ∧ (∀ ch ∈ c.firstToken, Visible ch) ∧
      c.secondToken ≠ [] ∧ (∀ ch ∈ c.secondToken, Visible ch) ∧
      ∀ ch ∈ c.thirdToken, Printable ch)
    ⟨fun ⟨h₁, h₂, h₃, h₄, h₅⟩ => ⟨h₁, h₂, h₃, h₄, h₅⟩, fun ⟨h₁, h₂, h₃, h₄, h₅⟩ =>
      ⟨h₁, h₂, h₃, h₄, h₅⟩⟩

def MessageComposer.composedFirstLine (c : MessageComposer) : Bytes :=
  (composeFirstLine .fresh c.firstToken c.secondToken c.thirdToken).contents

def MessageParser.AfterFirstLine (p : MessageParser) (c : MessageComposer) : Prop :=
  p.state = .parsingHeader ∧ p.firstToken = c.firstToken ∧ p.secondToken = c.secondToken ∧
    p.thirdToken = c.thirdToken

instance (p : MessageParser) (c : MessageComposer) : Decidable (p.AfterFirstLine c) :=
  inferInstanceAs (Decidable (_ ∧ _ ∧ _ ∧ _))

/-- A new parser takes the composed first line without an exception, and is then after
a first line with the three tokens. -/
def MessageComposer.FirstLineReadBack (lim : Limits) (c : MessageComposer) : Prop :=
  ∃ rs, MessageParser.machine.run (.create lim) c.composedFirstLine = .ok rs ∧
    (Transducer.lastState (.create lim) rs).AfterFirstLine c

instance (lim : Limits) (c : MessageComposer) : Decidable (c.FirstLineReadBack lim) :=
  match h : MessageParser.machine.run (.create lim) c.composedFirstLine with
  | .error _ => isFalse (by simp [MessageComposer.FirstLineReadBack, h])
  | .ok rs =>
      decidable_of_iff ((Transducer.lastState (.create lim) rs).AfterFirstLine c)
        (by simp [MessageComposer.FirstLineReadBack, h])

namespace MessageParser

/-- The phase of the first header says what the parser shows. -/
theorem afterFirstLine_iff {p : MessageParser} {t₁ t₂ t₃ : Bytes}
    (h : p.view = .header false ⟨t₁, t₂, t₃, ∅⟩) (c : MessageComposer) :
    p.AfterFirstLine c ↔ t₁ = c.firstToken ∧ t₂ = c.secondToken ∧ t₃ = c.thirdToken := by
  have hstate : p.state = .parsingHeader ∧ p.shown = ⟨t₁, t₂, t₃, ∅⟩ := by
    cases hstate : p.state <;> simp [view, hstate] at h
    exact ⟨rfl, h⟩
  obtain ⟨hstate, hshown⟩ := hstate
  have htokens := Shown.ext_iff.mp hshown
  obtain ⟨rfl, rfl, rfl, -⟩ : p.firstToken = t₁ ∧ p.secondToken = t₂ ∧ p.thirdToken = t₃ ∧ _ :=
    htokens
  exact and_iff_right hstate

end MessageParser

namespace MessageComposer

theorem exists_gap (t : Bytes) :
    ∃ gap rest, t = gap ++ rest ∧ (∀ ch ∈ gap, ch = SP) ∧ ∀ ch ∈ rest.head?, ch ≠ SP := by
  refine ⟨t.takeWhile (· == SP), t.dropWhile (· == SP), List.takeWhile_append_dropWhile.symm,
    fun ch hch => ?_, fun ch hch => ?_⟩
  · simpa using List.mem_takeWhile_imp hch
  · have hfalse := List.head?_dropWhile_not (· == SP) t
    rw [hch] at hfalse
    simpa using hfalse

theorem composedFirstLine_eq (c : MessageComposer) : c.composedFirstLine = c.firstLine := by
  rw [composedFirstLine, composeFirstLine_eq rfl]
  rfl

theorem reads_two_written (hc : c.Described) (hroom : lim.RoomFor c []) :
    (Phase.recogniser lim).Reads Phase.initial
      (c.firstToken ++ SP :: (c.secondToken ++ [SP])) []
      (.secondTokenSP c.firstToken c.secondToken) := by
  have hspace : isSpaceOrTab SP = true := rfl
  have hreads := Grammar.reads_two_tokens (Shown.mk [] [] [] ∅) (List.forall_mem_nil _)
    hc.firstToken_ne ⟨hc.firstToken_visible, hroom.firstToken⟩ hspace (List.forall_mem_nil _)
    hc.secondToken_ne ⟨hc.secondToken_visible, hroom.secondToken⟩ hspace
  simpa [Phase.initial] using hreads

/-- What the parser makes of a composed line. When the third token is all spaces the CR
after it is refused; otherwise the parser shows the token without the spaces at its
start. -/
theorem run_composedFirstLine (hc : c.Described) (hroom : lim.RoomFor c []) {gap rest : Bytes}
    (hthird : c.thirdToken = gap ++ rest) (hgap : ∀ ch ∈ gap, ch = SP)
    (hhead : ∀ ch ∈ rest.head?, ch ≠ SP) :
    (rest = [] →
      (MessageParser.create lim).refusal c.composedFirstLine = some .invalidThirdToken) ∧
    (rest ≠ [] → ∃ rs, MessageParser.machine.run (.create lim) c.composedFirstLine = .ok rs ∧
      (Transducer.lastState (.create lim) rs).view =
        .header false ⟨c.firstToken, c.secondToken, rest, ∅⟩) := by
  have hspaces : ∀ ch ∈ gap, isSpaceOrTab ch = true := fun ch hch =>
    (isSpaceOrTab_iff ch).mpr (.inl (hgap ch hch))
  have htokens := reads_two_written hc hroom
  have htext : c.composedFirstLine =
      c.firstToken ++ SP :: (c.secondToken ++ [SP]) ++ (gap ++ rest ++ [CR, LF]) := by
    rw [composedFirstLine_eq, firstLine, hthird]
    simp
  refine ⟨?_, fun hne => ?_⟩
  · rintro rfl
    have hskip : (Phase.recogniser lim).Reads (.secondTokenSP c.firstToken c.secondToken) gap []
        (.secondTokenSP c.firstToken c.secondToken) :=
      Transducer.reads_skip (Grammar.thirdToken_field c.firstToken c.secondToken).skip hspaces
    have hrefused : Phase.next lim (.secondTokenSP c.firstToken c.secondToken) CR =
        .error .invalidThirdToken := rfl
    have htext' : c.composedFirstLine =
        c.firstToken ++ SP :: (c.secondToken ++ [SP]) ++ gap ++ CR :: [LF] := by
      rw [htext]
      simp
    rw [htext', MessageParser.refusal_create, (htokens.append_silent hskip).refusal_append]
    exact Grammar.refusal_of_next hrefused [LF]
  · have hsafe : TokenSafe Printable lim.maxThirdTokenLength rest := by
      have hall := hc.thirdToken_printable
      have hlength := hroom.thirdToken
      rw [hthird] at hall hlength
      rw [List.length_append] at hlength
      exact ⟨(List.forall_mem_append.mp hall).2, by omega⟩
    have hvisible : ∀ ch ∈ rest.head?, Visible ch := fun ch hch =>
      (visible_iff_printable_ne_SP ch).mpr
        ⟨hsafe.chars ch (List.mem_of_mem_head? hch), hhead ch hch⟩
    have hthird := Grammar.reads_third_token c.firstToken c.secondToken hspaces hne hsafe hvisible
    obtain ⟨rs, hrun, -, -, hview⟩ := MessageParser.run_of_reads (MessageParser.clean_create lim)
      (htokens.append_silent hthird)
    exact ⟨rs, by rw [htext, hrun], hview⟩

/-- **Which first lines come back.** Of the tokens that the parser describes, within its
limits, a new parser reads back the line that is composed of them if and only if the
third token is not empty and does not begin with a space. -/
theorem firstLineReadBack_iff (lim : Limits) (c : MessageComposer) (hc : c.Described)
    (hroom : lim.RoomFor c []) :
    c.FirstLineReadBack lim ↔ ∃ ch ∈ c.thirdToken.head?, ch ≠ SP := by
  obtain ⟨gap, rest, hthird, hgap, hhead⟩ := exists_gap c.thirdToken
  obtain ⟨hrefused, hread⟩ := run_composedFirstLine hc hroom hthird hgap hhead
  cases rest with
  | nil =>
      -- nothing but spaces
      refine iff_of_false ?_ ?_
      · rintro ⟨rs, hrun, -⟩
        cases (hrefused rfl).symm.trans (MessageParser.refusal_eq_none_iff.mpr ⟨rs, hrun⟩)
      · rintro ⟨ch, hch, hne⟩
        rw [hthird, List.append_nil] at hch
        exact hne (hgap ch (List.mem_of_mem_head? hch))
  | cons a x =>
      obtain ⟨rs, hrun, hview⟩ := hread (List.cons_ne_nil a x)
      have hback : c.FirstLineReadBack lim ↔ a :: x = c.thirdToken := by
        simp [FirstLineReadBack, hrun, MessageParser.afterFirstLine_iff hview]
      rw [hback, hthird]
      cases gap with
      | nil => simpa using hhead
      | cons ch gap =>
          refine iff_of_false ?_ ?_
          · intro heq
            have hlength := congrArg List.length heq
            simp only [List.length_append, List.length_cons] at hlength
            omega
          · simpa using hgap ch

theorem firstLineReadBack_not_found :
    FirstLineReadBack ⟨8, 3, 9, 1, 1, 1⟩ ⟨str "HTTP/1.1", str "404", str "Not Found"⟩ :=
  (firstLineReadBack_iff ⟨8, 3, 9, 1, 1, 1⟩ ⟨str "HTTP/1.1", str "404", str "Not Found"⟩
    (by decide) ⟨by decide, by decide, by decide, by decide, by decide, by decide⟩).mpr
    (by decide)

/-- The empty reason phrase, and one that begins with a space, within the limits. -/
theorem firstLine_not_readBack :
    (Described ⟨str "HTTP/1.1", str "204", []⟩ ∧
        Limits.RoomFor ⟨8, 3, 3, 1, 1, 1⟩ ⟨str "HTTP/1.1", str "204", []⟩ [] ∧
        ¬ FirstLineReadBack ⟨8, 3, 3, 1, 1, 1⟩ ⟨str "HTTP/1.1", str "204", []⟩) ∧
      Described ⟨str "HTTP/1.1", str "204", str " OK"⟩ ∧
        Limits.RoomFor ⟨8, 3, 3, 1, 1, 1⟩ ⟨str "HTTP/1.1", str "204", str " OK"⟩ [] ∧
        ¬ FirstLineReadBack ⟨8, 3, 3, 1, 1, 1⟩ ⟨str "HTTP/1.1", str "204", str " OK"⟩ := by
  refine ⟨⟨by decide, ?_, by decide +kernel⟩, by decide, ?_, by decide +kernel⟩
  · exact ⟨by decide, by decide, by decide, by decide, by decide, by decide⟩
  · exact ⟨by decide, by decide, by decide, by decide, by decide, by decide⟩

end MessageComposer

end Httpxx
