import Httpxx.Grammar.HeaderSection
import Httpxx.Library.Reading

/-!
The parts of a message, read one after the other. `accepts_iff_text` says which whole
messages are accepted; the results here follow the parser along a first line, header
lines and chunks whatever comes after them, and so also where the message is refused
later.
-/

namespace Httpxx.Grammar

open Library Phase

variable {lim : Limits}

/-! ### The first line -/

theorem reads_field {s : Phase} {f g : Bytes → Phase} {C E : Byte → Prop} {bound : ℕ}
    (h : Field lim s f g C E bound) {gap t : Bytes} (hgap : ∀ ch ∈ gap, isSpaceOrTab ch = true)
    (hne : t ≠ []) (ht : TokenSafe C bound t) (hhead : ∀ ch ∈ t.head?, Visible ch) {b : Byte}
    (hb : E b) : (recogniser lim).Reads s (gap ++ t ++ [b]) [] (g t) := by
  obtain ⟨a, x, rfl⟩ := List.exists_cons_of_ne_nil hne
  have hskip : (recogniser lim).Reads s gap [] s := Transducer.reads_skip h.skip hgap
  have hstart : (recogniser lim).Reads s [a] [] (f [a]) := (h.start a (hhead a rfl)).reads
  have hrest : (recogniser lim).Reads (f [a]) x [] (f ([a] ++ x)) := by
    cases x with
    | nil => exact .nil _
    | cons c x =>
        refine Transducer.reads_scan h.more [a] (List.forall_mem_cons.mp ht.chars).2 ?_
        have hlength := ht.length
        simp only [List.length_cons, List.length_nil] at hlength ⊢
        omega
  have hall := (hskip.append (hstart.append hrest)).append (h.exit _ b hb).reads
  simpa using hall

theorem visible_head {t : Bytes} (h : ∀ ch ∈ t, Visible ch) : ∀ ch ∈ t.head?, Visible ch :=
  fun ch hch => h ch (List.mem_of_mem_head? hch)

theorem step_message (m : Shown) (ch : Byte) :
    (recogniser lim).step (.message m) ch = (recogniser lim).step .leadingSP ch := by
  simp [recogniser, step, next, bodyExpected]

/-- The first line up to the gap before the third token. -/
theorem reads_two_tokens (m : Shown) {lead t₁ gap t₂ : Bytes} {b₁ b₂ : Byte}
    (hlead : ∀ ch ∈ lead, isSpaceOrTab ch = true) (hne₁ : t₁ ≠ [])
    (ht₁ : TokenSafe Visible lim.maxFirstTokenLength t₁) (hb₁ : isSpaceOrTab b₁ = true)
    (hgap : ∀ ch ∈ gap, isSpaceOrTab ch = true) (hne₂ : t₂ ≠ [])
    (ht₂ : TokenSafe Visible lim.maxSecondTokenLength t₂) (hb₂ : isSpaceOrTab b₂ = true) :
    (recogniser lim).Reads (.message m) (lead ++ t₁ ++ [b₁] ++ (gap ++ t₂ ++ [b₂])) []
      (.secondTokenSP t₁ t₂) := by
  have hall := (reads_field firstToken_field hlead hne₁ ht₁ (visible_head ht₁.chars) hb₁).append
    (reads_field (secondToken_field t₁) hgap hne₂ ht₂ (visible_head ht₂.chars) hb₂)
  cases hw : lead ++ t₁ ++ [b₁] ++ (gap ++ t₂ ++ [b₂]) with
  | nil => simp at hw
  | cons ch w =>
      rw [hw] at hall
      exact Transducer.reads_cons_congr (step_message m ch) hall

theorem reads_third_token (t₁ t₂ : Bytes) {gap t₃ : Bytes}
    (hgap : ∀ ch ∈ gap, isSpaceOrTab ch = true)
    (hne : t₃ ≠ []) (ht₃ : TokenSafe Printable lim.maxThirdTokenLength t₃)
    (hhead : ∀ ch ∈ t₃.head?, Visible ch) :
    (recogniser lim).Reads (.secondTokenSP t₁ t₂) (gap ++ t₃ ++ [CR, LF]) []
      (.header false ⟨t₁, t₂, t₃, ∅⟩) := by
  have htoken := reads_field (thirdToken_field t₁ t₂) hgap hne ht₃ hhead (b := CR) rfl
  have hline : (recogniser lim).Silent (.firstLineLF ⟨t₁, t₂, t₃, ∅⟩) LF
      (.header false ⟨t₁, t₂, t₃, ∅⟩) := silent_of_next (by simp [next]) rfl rfl
  have hall := htoken.append hline.reads
  simpa using hall

/-- **A first line is read.** -/
theorem reads_firstLine (m : Shown) (l : FirstLine lim) :
    (recogniser lim).Reads (.message m) l.text [] (.header false l.shown) := by
  obtain ⟨b₁, gap₁, hgap₁⟩ := List.exists_cons_of_ne_nil l.gap₁_ne
  obtain ⟨b₂, gap₂, hgap₂⟩ := List.exists_cons_of_ne_nil l.gap₂_ne
  have hspace₁ := l.gap₁_space
  have hspace₂ := l.gap₂_space
  rw [hgap₁, List.forall_mem_cons] at hspace₁
  rw [hgap₂, List.forall_mem_cons] at hspace₂
  have htokens := reads_two_tokens m l.leading_space l.firstToken_ne l.firstToken_safe hspace₁.1
    hspace₁.2 l.secondToken_ne l.secondToken_safe hspace₂.1
  have hthird := reads_third_token l.firstToken l.secondToken hspace₂.2
    l.thirdToken_ne l.thirdToken_safe fun ch hch => (visible_iff_printable_ne_SP ch).mpr
      ⟨l.thirdToken_safe.chars ch (List.mem_of_mem_head? hch), l.thirdToken_head ch hch⟩
  have htext : l.text = l.leading ++ l.firstToken ++ [b₁] ++ (gap₁ ++ l.secondToken ++ [b₂]) ++
      (gap₂ ++ l.thirdToken ++ [CR, LF]) := by
    simp [FirstLine.text, hgap₁, hgap₂]
  rw [htext]
  exact htokens.append hthird

/-! ### Header lines -/

theorem reads_name (isTrailer : Bool) (m : Shown) {name : Bytes} (h : NameSafe lim name) :
    (recogniser lim).Reads (.header isTrailer m) (name ++ [colon]) []
      (.headerValue isTrailer m name []) := by
  obtain ⟨a, x, rfl⟩ := List.exists_cons_of_ne_nil h.ne_nil
  obtain ⟨ha, hx⟩ := List.forall_mem_cons.mp h.chars
  have hnotcr : ∀ {ch : Byte}, isToken ch = true → isCarriageReturn ch = false := fun hch => by
    simpa [isCarriageReturn] using ne_CR_of_isToken hch
  have hfirst : (recogniser lim).Silent (.header isTrailer m) a (.headerName isTrailer m [a]) :=
    silent_of_next (by simp [next, beginHeader, hnotcr ha, ne_colon_of_isToken ha, ha]) rfl rfl
  have hmore : ∀ (acc : Bytes) (ch : Byte), isToken ch = true →
      acc.length < lim.maxHeaderNameLength → (recogniser lim).Silent
        (.headerName isTrailer m acc) ch (.headerName isTrailer m (acc ++ [ch])) :=
    fun acc ch hch hroom =>
      silent_of_next (by simp [next, hnotcr hch, ne_colon_of_isToken hch, hch, hroom]) rfl rfl
  have hrest : (recogniser lim).Reads (.headerName isTrailer m [a]) x []
      (.headerName isTrailer m ([a] ++ x)) := by
    cases x with
    | nil => exact .nil _
    | cons c x =>
        refine Transducer.reads_scan hmore [a] hx ?_
        have hlength := h.length
        simp only [List.length_cons, List.length_nil] at hlength ⊢
        omega
  have hcolon : (recogniser lim).Silent (.headerName isTrailer m ([a] ++ x)) colon
      (.headerValue isTrailer m ([a] ++ x) []) := silent_of_next (by simp [next]) rfl rfl
  have hall := (hfirst.reads.append hrest).append hcolon.reads
  simpa using hall

theorem reads_items (isTrailer : Bool) (m : Shown) (name : Bytes) (items : List ValueItem)
    (value : Bytes) (hroom : value.length + items.length ≤ lim.maxHeaderValueLength) :
    (recogniser lim).Reads (.headerValue isTrailer m name value) (items.flatMap ValueItem.text) []
      (.headerValue isTrailer m name (value ++ items.map ValueItem.unfolded)) := by
  induction items generalizing value with
  | nil =>
      rw [List.map_nil, List.append_nil]
      exact .nil _
  | cons i items ih =>
      rw [List.length_cons] at hroom
      have hnext := ih (value ++ [i.unfolded]) (by simp; omega)
      rw [List.append_assoc, List.singleton_append] at hnext
      have hfits : value.length < lim.maxHeaderValueLength := by omega
      rw [List.flatMap_cons, List.map_cons]
      refine Transducer.Reads.append_silent ?_ hnext
      cases i with
      | char ch hch =>
          have hcr : isCarriageReturn ch = false := by
            rw [← Bool.not_eq_true, isCarriageReturn_iff]
            rintro rfl
            cases hch
          exact (silent_of_next (by simp [next, hcr, hch, hfits, ValueItem.unfolded]) rfl
            rfl).reads
      | fold ws hws =>
          have hcr : (recogniser lim).Silent (.headerValue isTrailer m name value) CR
              (.headerValueLF isTrailer m name value) := silent_of_next (by simp [next]) rfl rfl
          have hlf : (recogniser lim).Silent (.headerValueLF isTrailer m name value) LF
              (.headerValueLWS isTrailer m name value) := silent_of_next (by simp [next]) rfl rfl
          have hsp : (recogniser lim).Silent (.headerValueLWS isTrailer m name value) ws
              (.headerValue isTrailer m name (value ++ [SP])) :=
            silent_of_next (by simp [next, hws, hfits]) rfl rfl
          exact hcr.reads_cons (hlf.reads_cons hsp.reads)

/-- **A header line is read**; whether it is over is seen at the next byte. -/
theorem reads_line (isTrailer : Bool) (m : Shown) (h : HeaderLine lim) :
    (recogniser lim).Reads (.header isTrailer m) h.text []
      (.headerValueLWS isTrailer m h.name h.unfolded) := by
  have hname := reads_name isTrailer m h.name_safe
  have hvalue := reads_items isTrailer m h.name h.value []
    (by simpa using h.value_length)
  have hcr : (recogniser lim).Silent (.headerValue isTrailer m h.name h.unfolded) CR
      (.headerValueLF isTrailer m h.name h.unfolded) := silent_of_next (by simp [next]) rfl rfl
  have hlf : (recogniser lim).Silent (.headerValueLF isTrailer m h.name h.unfolded) LF
      (.headerValueLWS isTrailer m h.name h.unfolded) := silent_of_next (by simp [next]) rfl rfl
  have hall := (hname.append hvalue).append (hcr.reads_cons hlf.reads)
  simpa [HeaderLine.text] using hall

/-- After a line, a byte that does not continue its value is read as the first byte of
the next one. -/
theorem step_headerValueLWS (isTrailer : Bool) {m : Shown} (name value : Bytes) {ch : Byte}
    (hsp : isSpaceOrTab ch = false) (hroom : m.headers.size < lim.maxHeadersAmount) :
    (recogniser lim).step (.headerValueLWS isTrailer m name value) ch =
      (recogniser lim).step (.header isTrailer (m.addHeader name value)) ch := by
  simp [recogniser, step, next, bodyExpected, hsp, Nat.not_le.mpr hroom]

theorem isSpaceOrTab_head {h : HeaderLine lim} {ch : Byte} {w : Bytes} (hw : h.text = ch :: w) :
    isSpaceOrTab ch = false := by
  obtain ⟨c, x, hname⟩ := List.exists_cons_of_ne_nil h.name_safe.ne_nil
  obtain ⟨rfl, -⟩ : c = ch ∧ _ := by simpa [HeaderLine.text, hname] using hw
  exact isSpaceOrTab_of_isToken (h.name_safe.chars c (by simp [hname]))

/-- **Header lines are read**, up to a byte that does not continue the last of them and
is read on from there. -/
theorem reads_lines (isTrailer : Bool) {m : Shown} {hs : List (HeaderLine lim)}
    (hamount : m.headers.size + hs.length ≤ lim.maxHeadersAmount) {ch : Byte}
    (hsp : isSpaceOrTab ch = false) {w v : Bytes} {q : Phase}
    (h : (recogniser lim).Reads (.header isTrailer (m.addHeaders hs)) (ch :: w) v q) :
    (recogniser lim).Reads (.header isTrailer m) (hs.flatMap HeaderLine.text ++ ch :: w) v q := by
  induction hs generalizing m with
  | nil => exact h
  | cons line hs ih =>
      rw [List.length_cons] at hamount
      rw [addHeaders_cons] at h
      have hrest := ih (by rw [size_addHeader]; omega) h
      rw [List.flatMap_cons, List.append_assoc]
      refine (reads_line isTrailer m line).append_silent ?_
      -- the next byte is the first of another line, or `ch`
      cases hs with
      | nil => exact Transducer.reads_cons_congr (step_headerValueLWS _ _ _ hsp (by omega)) hrest
      | cons line' hs =>
          obtain ⟨c, x, htext⟩ := List.exists_cons_of_ne_nil
            (List.ne_nil_of_length_pos line'.length_text_pos)
          rw [List.flatMap_cons, htext] at hrest ⊢
          exact Transducer.reads_cons_congr
            (step_headerValueLWS _ _ _ (isSpaceOrTab_head htext) (by omega)) hrest

/-- **A header section is read**, up to the CR of the empty line that ends it. -/
theorem reads_headers (isTrailer : Bool) {m : Shown} {hs : List (HeaderLine lim)}
    (hamount : m.headers.size + hs.length ≤ lim.maxHeadersAmount) :
    (recogniser lim).Reads (.header isTrailer m) (hs.flatMap HeaderLine.text ++ [CR]) []
      (.endOfHeader isTrailer (m.addHeaders hs)) :=
  reads_lines isTrailer hamount rfl (silent_of_next (by simp [next, beginHeader]) rfl rfl).reads

theorem reads_head (last : Shown) (l : FirstLine lim) {hs : List (HeaderLine lim)}
    (hamount : hs.length ≤ lim.maxHeadersAmount) :
    (Phase.recogniser lim).Reads (.message last) (l.text ++ hs.flatMap HeaderLine.text ++ [CR]) []
      (.endOfHeader false (l.shown.addHeaders hs)) := by
  rw [List.append_assoc]
  exact (reads_firstLine last l).append
    (reads_headers false (by simpa [FirstLine.shown] using hamount))

/-! ### Chunks -/

theorem reads_size (m : Shown) (l : SizeLine) :
    (recogniser lim).Reads (.chunkSize m []) (l.digits ++ l.extension ++ [CR]) []
      (.chunkSizeLF m l.size.toNat) := by
  have hdigits : (recogniser lim).Reads (.chunkSize m []) l.digits [] (.chunkSize m l.digits) :=
    Transducer.reads_scan (f := Phase.chunkSize m) (C := fun ch => isHexDigit ch = true)
      (fun acc ch hch _ => silent_of_next (by simp [next, hch]) rfl rfl) []
      l.digits_hex (le_refl _)
  have hempty : l.digits.isEmpty = false := by simpa using l.digits_ne
  have hextension : ∀ w : Bytes, (∀ ch ∈ w, ch ≠ CR) → (recogniser lim).Reads
      (.chunkExtension m l.size.toNat) (w ++ [CR]) [] (.chunkSizeLF m l.size.toNat) := by
    intro w hw
    have hskip : (recogniser lim).Reads (.chunkExtension m l.size.toNat) w []
        (.chunkExtension m l.size.toNat) := by
      refine Transducer.reads_skip (fun ch hch => silent_of_next ?_ rfl rfl) hw
      simp [next, isCarriageReturn, hch]
    exact hskip.append (silent_of_next (by simp [next]) rfl rfl).reads
  rw [List.append_assoc]
  refine hdigits.append_silent ?_
  cases hext : l.extension with
  | nil => exact (silent_of_next (by simp [next, hempty, l.reads]) rfl rfl).reads
  | cons ch w =>
      have hhead : isHexDigit ch = false := l.extension_head ch (by simp [hext])
      have hline := l.extension_line
      rw [hext, List.forall_mem_cons] at hline
      have hcr : isCarriageReturn ch = false := by simpa [isCarriageReturn] using hline.1
      have hstep : (recogniser lim).Silent (.chunkSize m l.digits) ch
          (.chunkExtension m l.size.toNat) :=
        silent_of_next (by simp [next, hhead, hempty, l.reads, hcr]) rfl rfl
      exact hstep.reads_cons (hextension w hline.2)

/-- A chunk, with the line break after its data, is read with its data as payload. -/
theorem reads_chunk (m : Shown) (c : Chunk) :
    (recogniser lim).Reads (.chunkSize m []) c.text c.data (.chunkSize m []) := by
  have hpos : 0 < c.size.toNat := by
    rw [← c.data_length]
    exact List.length_pos_iff.mpr c.data_ne
  have hlf : (recogniser lim).Silent (.chunkSizeLF m c.size.toNat) LF
      (.chunk m c.size.toNat 0) := silent_of_next (by simp [next, hpos]) rfl rfl
  have hdata : (recogniser lim).Reads (.chunk m c.size.toNat 0) c.data c.data (.chunkCR m) :=
    Transducer.reads_count (f := Phase.chunk m c.size.toNat) (n := c.size.toNat)
      (fun k ch hk => ⟨⟨true, false⟩, by simp [recogniser, step, next, Nat.not_le.mpr hk,
        Except.map, bodyExpected, isCompleted], rfl, rfl⟩)
      (fun k ch hk => ⟨⟨true, false⟩, by simp [recogniser, step, next, hk, Except.map,
        bodyExpected, isCompleted], rfl, rfl⟩) 0 c.data_ne (by simpa using c.data_length)
  have hcr : (recogniser lim).Silent (.chunkCR m) CR (.chunkLF m) :=
    silent_of_next (by simp [next]) rfl rfl
  have hend : (recogniser lim).Silent (.chunkLF m) LF (.chunkSize m []) :=
    silent_of_next (by simp [next]) rfl rfl
  have hall := ((reads_size m c.toSizeLine).append_silent (hlf.reads_cons hdata)).append
    (hcr.reads_cons hend.reads)
  simpa [Chunk.text, SizeLine.text] using hall

theorem reads_chunks (m : Shown) (chunks : List Chunk) :
    (recogniser lim).Reads (.chunkSize m []) (chunks.flatMap Chunk.text)
      (chunks.flatMap Chunk.data) (.chunkSize m []) := by
  induction chunks with
  | nil => exact .nil _
  | cons c chunks ih => exact (reads_chunk m c).append ih

theorem reads_last (m : Shown) {last : SizeLine} (h : last.size.toNat = 0) :
    (recogniser lim).Reads (.chunkSize m []) last.text [] (.header true m) := by
  have hlf : (recogniser lim).Silent (.chunkSizeLF m last.size.toNat) LF (.header true m) :=
    silent_of_next (by simp [next, h]) rfl rfl
  have hall := (reads_size m last).append hlf.reads
  simpa [SizeLine.text] using hall

theorem refusal_of_next {q : Phase} {ch : Byte} {code : Code} (h : q.next lim ch = .error code)
    (z : Bytes) : (recogniser lim).refusal q (ch :: z) = some code := by
  rw [Transducer.refusal_cons]
  simp [recogniser, step, h, Except.map]

end Httpxx.Grammar

/-! ### The parser -/

namespace Httpxx.MessageParser

open Library

variable {p : MessageParser} {w v : Bytes} {q : Phase}

theorem run_of_reads (hp : p.Clean) (h : (Phase.recogniser p.limits).Reads p.view w v q) :
    ∃ rs, machine.run p w = .ok rs ∧ (Transducer.lastState p rs).Clean ∧
      (Transducer.lastState p rs).limits = p.limits ∧ (Transducer.lastState p rs).view = q := by
  obtain ⟨t, hreads, ⟨hclean, hlimits⟩, hview⟩ :=
    (machine_simulates p.limits).reads_of_view ⟨hp, rfl⟩ h
  obtain ⟨rs, hrun, rfl, -⟩ := hreads.run
  exact ⟨rs, hrun, hclean, hlimits, hview⟩

/-- The code of the exception that ends a run of the parser along a string, if any
does. -/
def refusal (p : MessageParser) (w : Bytes) : Option Code :=
  (machine.refusal p w).map fun thrown => thrown.exception.code

/-- The parser throws where the machine over phases refuses. -/
theorem refusal_eq (hp : p.Clean) (w : Bytes) :
    p.refusal w = (Phase.recogniser p.limits).refusal p.view w := by
  induction w generalizing p with
  | nil => rfl
  | cons ch w ih =>
      rw [refusal, Transducer.refusal_cons, Transducer.refusal_cons]
      rcases parse_cases hp ch with ⟨code, hthrow, hcode⟩ | ⟨p', flags, hok, hp', hlimits, hview⟩
      · rw [show machine.step p ch = _ from hthrow,
          show (Phase.recogniser p.limits).step p.view ch = _ from hcode]
        rfl
      · rw [show machine.step p ch = _ from hok,
          show (Phase.recogniser p.limits).step p.view ch = _ from hview, ← hlimits]
        exact ih hp'

theorem refusal_create (lim : Limits) (w : Bytes) :
    (create lim).refusal w = (Phase.recogniser lim).refusal Phase.initial w :=
  refusal_eq (clean_create lim) w

theorem refusal_eq_none_iff : p.refusal w = none ↔ ∃ rs, machine.run p w = .ok rs := by
  rw [refusal, Option.map_eq_none_iff, Transducer.refusal_eq_none_iff]

end Httpxx.MessageParser
