import Httpxx.Grammar.HeaderSection
import Httpxx.Parser.Session

/-!
What a parser has read so far of a message, up to the end of its head. In every
reachable state before the body the bytes accepted of the message are a first line
and header lines, the last one perhaps unfinished, and the parser has stored what
they say. `Reading.lean` follows a given head forwards; here any run is followed, so
that a statement about every accepted head can be made about every run that reaches
the end of a header section.
-/

namespace Httpxx

open Library Grammar

variable {lim : Limits}

namespace Grammar

def Spaces (w : Bytes) : Prop := ∀ ch ∈ w, isSpaceOrTab ch = true

theorem spaces_nil : Spaces [] := by simp [Spaces]

theorem Spaces.append_singleton {w : Bytes} {ch : Byte} (h : Spaces w)
    (hch : isSpaceOrTab ch = true) : Spaces (w ++ [ch]) :=
  forall_mem_append_singleton h hch

/-- The bytes `w` are a first line and whole header lines, which mean `m`. -/
def LinesRead (lim : Limits) (m : Shown) (w : Bytes) : Prop :=
  ∃ (l : FirstLine lim) (hs : List (HeaderLine lim)),
    w = l.text ++ hs.flatMap HeaderLine.text ∧ m = l.shown.addHeaders hs

theorem LinesRead.addLine {m : Shown} {w : Bytes} (hw : LinesRead lim m w) (h : HeaderLine lim) :
    LinesRead lim (m.addHeader h.name h.unfolded) (w ++ h.text) := by
  obtain ⟨l, hs, rfl, rfl⟩ := hw
  refine ⟨l, hs ++ [h], by simp, ?_⟩
  simp [Shown.addHeaders, Shown.addHeader, HeaderLine.entry, h.name_safe.trim_eq]

end Grammar

namespace Phase

/-- What the bytes `w` read of a message are in a phase of its head. -/
def HasRead (lim : Limits) : Phase → Bytes → Prop
  | leadingSP, w => Spaces w
  | firstToken t₁, w => t₁ ≠ [] ∧ ∃ lead, Spaces lead ∧ w = lead ++ t₁
  | firstTokenSP t₁, w => t₁ ≠ [] ∧
      ∃ lead gap₁, Spaces lead ∧ (Spaces gap₁ ∧ gap₁ ≠ []) ∧ w = lead ++ t₁ ++ gap₁
  | secondToken t₁ t₂, w => (t₁ ≠ [] ∧ t₂ ≠ []) ∧
      ∃ lead gap₁, Spaces lead ∧ (Spaces gap₁ ∧ gap₁ ≠ []) ∧ w = lead ++ t₁ ++ gap₁ ++ t₂
  | secondTokenSP t₁ t₂, w => (t₁ ≠ [] ∧ t₂ ≠ []) ∧
      ∃ lead gap₁ gap₂, Spaces lead ∧ (Spaces gap₁ ∧ gap₁ ≠ []) ∧ (Spaces gap₂ ∧ gap₂ ≠ []) ∧
        w = lead ++ t₁ ++ gap₁ ++ t₂ ++ gap₂
  | thirdToken t₁ t₂ t₃, w => (t₁ ≠ [] ∧ t₂ ≠ []) ∧
      ∃ lead gap₁ gap₂, Spaces lead ∧ (Spaces gap₁ ∧ gap₁ ≠ []) ∧ (Spaces gap₂ ∧ gap₂ ≠ []) ∧
        w = lead ++ t₁ ++ gap₁ ++ t₂ ++ gap₂ ++ t₃
  | firstLineLF m, w => ∃ l : FirstLine lim, w ++ [LF] = l.text ∧ m = l.shown
  | header false m, w => LinesRead lim m w
  | headerName false m name, w => ∃ y, LinesRead lim m y ∧ w = y ++ name
  | headerValue false m name value, w => ∃ y, ∃ items : List ValueItem, LinesRead lim m y ∧
      value = items.map ValueItem.unfolded ∧
        w = y ++ name ++ colon :: items.flatMap ValueItem.text
  | headerValueLF false m name value, w => ∃ y, ∃ items : List ValueItem, LinesRead lim m y ∧
      value = items.map ValueItem.unfolded ∧
        w = y ++ name ++ colon :: items.flatMap ValueItem.text ++ [CR]
  | headerValueLWS false m name value, w => ∃ y, ∃ items : List ValueItem, LinesRead lim m y ∧
      value = items.map ValueItem.unfolded ∧
        w = y ++ name ++ colon :: items.flatMap ValueItem.text ++ [CR, LF]
  | endOfHeader false m, w => ∃ y, LinesRead lim m y ∧ w = y ++ [CR]
  | _, _ => True

theorem hasRead_of_message {m : Shown} {q : Phase} {ch : Byte} (h : Moves lim (message m) ch q) :
    q.HasRead lim [ch] := by
  cases h with
  | leading hch => exact spaces_nil.append_singleton hch
  | first hch => exact ⟨by simp, [], spaces_nil, rfl⟩

/-- **Every step within a head reads one more byte of it.** -/
theorem HasRead.next {q q' : Phase} {ch : Byte} {w : Bytes} (hq : q.HasRead lim w)
    (hsafe : q.Safe lim) (hwithin : q.isCompleted = false) (h : Moves lim q ch q') :
    q'.HasRead lim (w ++ [ch]) := by
  induction h with
  | leading | first => cases hwithin
  | leadingMore hch => exact hq.append_singleton hch
  | firstAfterSP => exact ⟨by simp, w, hq, rfl⟩
  | firstMore =>
      obtain ⟨-, lead, hlead, rfl⟩ := hq
      exact ⟨by simp, lead, hlead, by simp⟩
  | @firstEnd t₁ ch hch =>
      obtain ⟨hne, lead, hlead, rfl⟩ := hq
      exact ⟨hne, lead, [ch], hlead, ⟨spaces_nil.append_singleton hch, by simp⟩, rfl⟩
  | firstSP hch =>
      obtain ⟨hne, lead, gap₁, hlead, ⟨hgap₁, -⟩, rfl⟩ := hq
      exact ⟨hne, lead, _, hlead, ⟨hgap₁.append_singleton hch, by simp⟩, by simp⟩
  | second =>
      obtain ⟨hne, lead, gap₁, hlead, hgap₁, rfl⟩ := hq
      exact ⟨⟨hne, by simp⟩, lead, gap₁, hlead, hgap₁, by simp⟩
  | secondMore =>
      obtain ⟨⟨hne, -⟩, lead, gap₁, hlead, hgap₁, rfl⟩ := hq
      exact ⟨⟨hne, by simp⟩, lead, gap₁, hlead, hgap₁, by simp⟩
  | @secondEnd t₁ t₂ ch hch =>
      obtain ⟨hne, lead, gap₁, hlead, hgap₁, rfl⟩ := hq
      exact ⟨hne, lead, gap₁, [ch], hlead, hgap₁,
        ⟨spaces_nil.append_singleton hch, by simp⟩, by simp⟩
  | secondSP hch =>
      obtain ⟨hne, lead, gap₁, gap₂, hlead, hgap₁, ⟨hgap₂, -⟩, rfl⟩ := hq
      exact ⟨hne, lead, gap₁, _, hlead, hgap₁, ⟨hgap₂.append_singleton hch, by simp⟩, by simp⟩
  | third =>
      obtain ⟨hne, lead, gap₁, gap₂, hlead, hgap₁, hgap₂, rfl⟩ := hq
      exact ⟨hne, lead, gap₁, gap₂, hlead, hgap₁, hgap₂, by simp⟩
  | thirdMore =>
      obtain ⟨hne, lead, gap₁, gap₂, hlead, hgap₁, hgap₂, rfl⟩ := hq
      exact ⟨hne, lead, gap₁, gap₂, hlead, hgap₁, hgap₂, by simp⟩
  | @thirdEnd t₁ t₂ t₃ =>
      obtain ⟨⟨hne₁, hne₂⟩, lead, gap₁, gap₂, hlead, hgap₁, hgap₂, rfl⟩ := hq
      have hshown := hsafe.shown
      exact ⟨⟨lead, t₁, gap₁, t₂, gap₂, t₃, hlead, hne₁, hshown.firstToken, hgap₁.2, hgap₁.1, hne₂,
        hshown.secondToken, hgap₂.2, hgap₂.1, hsafe.reading, hshown.thirdToken,
        hshown.thirdToken_head⟩, by simp [FirstLine.text], rfl⟩
  | firstLine =>
      obtain ⟨l, hl, rfl⟩ := hq
      exact ⟨l, [], by simpa using hl, rfl⟩
  | @headersEnd isTrailer =>
      cases isTrailer with
      | true => trivial
      | false => exact ⟨w, hq, rfl⟩
  | @name isTrailer =>
      cases isTrailer with
      | true => trivial
      | false => exact ⟨w, hq, rfl⟩
  | @nameMore isTrailer =>
      cases isTrailer with
      | true => trivial
      | false =>
          obtain ⟨y, hy, rfl⟩ := hq
          exact ⟨y, hy, by simp⟩
  | @nameEnd isTrailer =>
      cases isTrailer with
      | true => trivial
      | false =>
          obtain ⟨y, hy, rfl⟩ := hq
          exact ⟨y, [], hy, rfl, by simp⟩
  | @valueMore isTrailer m name value ch hch =>
      cases isTrailer with
      | true => trivial
      | false =>
          obtain ⟨y, items, hy, rfl, rfl⟩ := hq
          exact ⟨y, items ++ [.char ch hch], hy, by simp [ValueItem.unfolded],
            by simp [ValueItem.text]⟩
  | @valueCR isTrailer =>
      cases isTrailer with
      | true => trivial
      | false =>
          obtain ⟨y, items, hy, rfl, rfl⟩ := hq
          exact ⟨y, items, hy, rfl, by simp⟩
  | @valueLF isTrailer =>
      cases isTrailer with
      | true => trivial
      | false =>
          obtain ⟨y, items, hy, rfl, rfl⟩ := hq
          exact ⟨y, items, hy, rfl, by simp⟩
  | @fold isTrailer m name value ch hch =>
      cases isTrailer with
      | true => trivial
      | false =>
          obtain ⟨y, items, hy, rfl, rfl⟩ := hq
          exact ⟨y, items ++ [.fold ch hch], hy, by simp [ValueItem.unfolded],
            by simp [ValueItem.text]⟩
  | @store isTrailer m name value ch q hroom hnext ih =>
      have hkept : (header isTrailer (m.addHeader name value)).Safe lim :=
        ⟨hsafe.shown.addHeader hsafe.reading.1 hsafe.reading.2 hroom, trivial⟩
      refine ih ?_ hkept rfl
      cases isTrailer with
      | true => trivial
      | false =>
          obtain ⟨y, items, hy, rfl, rfl⟩ := hq
          have hlength : items.length ≤ lim.maxHeaderValueLength := by
            simpa using hsafe.reading.2.length
          have hline := hy.addLine ⟨name, items, hsafe.reading.1, hlength⟩
          simpa [HasRead, HeaderLine.text, HeaderLine.unfolded] using hline
  | _ => trivial

end Phase

namespace Session

theorem hasRead_after (lim : Limits) (calls : List Call) :
    (after lim calls).parser.view.HasRead lim ((after lim calls).message.map Prod.fst) := by
  refine (message_induction (J := fun q msg => q.HasRead lim (msg.map Prod.fst))
    (fun _ _ => trivial) (fun hmoves => Phase.hasRead_of_message hmoves) ?_ calls).2
  intro q q' ch msg hread hsafe hwithin hmoves
  rw [List.map_append]
  exact hread.next hsafe hwithin hmoves

/-- **Every accepted head is a first line and header lines.** Whenever a parser waits
for the final LF of a header section, the bytes it has read of the message are a first
line, header lines, not too many of them, and a CR; and it shows what they mean. -/
theorem head_after {calls : List Call}
    (h : (after lim calls).parser.state = .parsingEndOfHeader) :
    ∃ (l : FirstLine lim) (hs : List (HeaderLine lim)),
      (after lim calls).message.map Prod.fst = l.text ++ hs.flatMap HeaderLine.text ++ [CR] ∧
      hs.length ≤ lim.maxHeadersAmount ∧
      (after lim calls).parser.shown = l.shown.addHeaders hs := by
  have hread := hasRead_after lim calls
  have hsize := (safe_after lim calls).shown.headers_size
  simp only [MessageParser.view, h] at hread
  obtain ⟨y, ⟨l, hs, rfl, hshown⟩, hw⟩ := hread
  refine ⟨l, hs, hw, ?_, hshown⟩
  rw [hshown] at hsize
  simpa [Shown.addHeaders, FirstLine.shown] using hsize

end Session

end Httpxx
