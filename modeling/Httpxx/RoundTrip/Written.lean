import Httpxx.Grammar.Acceptance
import Httpxx.MessageComposer
import Httpxx.Numbers

/-!
What the composer writes, as derivations of the grammar. A header goes out as a line
whose value begins with the separating space, which the parser trims off again; the
lines of a multimap are stored as that multimap; and the headers that frame a message
are exactly those the composer has made.
-/

namespace Httpxx

open Library

/-- A header that can be written and read back: the name is a token, and the value has
no control characters and no space at either end. -/
structure Writable (e : Bytes × Bytes) : Prop where
  name_ne : e.1 ≠ []
  name_token : ∀ ch ∈ e.1, isToken ch = true
  value_noControl : ∀ ch ∈ e.2, isControl ch = false
  value_head : ∀ ch ∈ e.2.head?, ch ≠ SP
  value_last : ∀ ch ∈ e.2.getLast?, ch ≠ SP

instance (e : Bytes × Bytes) : Decidable (Writable e) :=
  decidable_of_iff (e.1 ≠ [] ∧ (∀ ch ∈ e.1, isToken ch = true) ∧
      (∀ ch ∈ e.2, isControl ch = false) ∧ (∀ ch ∈ e.2.head?, ch ≠ SP) ∧
      ∀ ch ∈ e.2.getLast?, ch ≠ SP)
    ⟨fun ⟨h₁, h₂, h₃, h₄, h₅⟩ => ⟨h₁, h₂, h₃, h₄, h₅⟩, fun ⟨h₁, h₂, h₃, h₄, h₅⟩ =>
      ⟨h₁, h₂, h₃, h₄, h₅⟩⟩

structure MessageComposer.Valid (c : MessageComposer) : Prop where
  firstToken_ne : c.firstToken ≠ []
  firstToken_visible : ∀ ch ∈ c.firstToken, Visible ch
  secondToken_ne : c.secondToken ≠ []
  secondToken_visible : ∀ ch ∈ c.secondToken, Visible ch
  thirdToken_ne : c.thirdToken ≠ []
  thirdToken_printable : ∀ ch ∈ c.thirdToken, Printable ch
  thirdToken_head : ∀ ch ∈ c.thirdToken.head?, ch ≠ SP

/-- The limits have room for these tokens and header lines; a value takes one byte more
for the separating space. -/
structure Limits.RoomFor (lim : Limits) (c : MessageComposer) (sent : List (Bytes × Bytes)) :
    Prop where
  firstToken : c.firstToken.length ≤ max 1 lim.maxFirstTokenLength
  secondToken : c.secondToken.length ≤ max 1 lim.maxSecondTokenLength
  thirdToken : c.thirdToken.length ≤ max 1 lim.maxThirdTokenLength
  name : ∀ e ∈ sent, e.1.length ≤ max 1 lim.maxHeaderNameLength
  value : ∀ e ∈ sent, e.2.length + 1 ≤ lim.maxHeaderValueLength
  amount : sent.length ≤ lim.maxHeadersAmount

/-- Of the characters that are trimmed, only the space is no control character. -/
theorem eq_SP_of_mem_charsToTrim {ch : Byte} (h : ch ∈ charsToTrim)
    (hcontrol : isControl ch = false) : ch = SP := by
  have hspace : ch = SP ∨ ch = HT ∨ ch = CR ∨ ch = LF := by simpa [charsToTrim] using h
  rcases hspace with rfl | rfl | rfl | rfl
  · rfl
  all_goals exact absurd hcontrol (by decide)

theorem Writable.trimmed {e : Bytes × Bytes} (h : Writable e) : Trimmed e.2 where
  left ch hch hmem := h.value_head ch hch
    (eq_SP_of_mem_charsToTrim hmem (h.value_noControl ch (List.mem_of_mem_head? hch)))
  right ch hch hmem := h.value_last ch hch
    (eq_SP_of_mem_charsToTrim hmem (h.value_noControl ch (List.mem_of_getLast? hch)))

namespace MessageComposer

/-! ### The headers that are written -/

theorem sameName_trans {a b c : Bytes} (hab : sameName a b = true) (hbc : sameName b c = true) :
    sameName a c = true :=
  (sameName_iff a c).mpr (((sameName_iff a b).mp hab).trans ((sameName_iff b c).mp hbc))

theorem framesMessage_of_sameName {a b : Bytes} (hab : sameName a b = true)
    (ha : framesMessage a = true) : framesMessage b = true := by
  have hba : sameName b a = true := by rwa [sameName, equivalent_comm]
  rw [framesMessage, Bool.or_eq_true] at ha ⊢
  exact ha.imp (sameName_trans hba) (sameName_trans hba)

/-- Of the headers that frame the message none is left; of every other one the values
are kept, in their order. -/
theorem equalRange_unframed (headers : Headers) (name : Bytes) :
    (unframed headers).equalRange name =
      if framesMessage name then [] else headers.equalRange name := by
  rw [Multimap.equalRange_eq_filter, Multimap.equalRange_eq_filter, unframed,
    Multimap.entries_filter, List.filter_filter]
  -- what is filtered out depends on the name up to its spelling only
  have hframes : ∀ e : Bytes × Bytes, sameName e.1 name = true →
      framesMessage e.1 = framesMessage name := by
    intro e hsame
    have hsame' : sameName name e.1 = true := by rwa [sameName, equivalent_comm]
    rw [Bool.eq_iff_iff]
    exact ⟨framesMessage_of_sameName hsame, framesMessage_of_sameName hsame'⟩
  split
  · rename_i h
    refine List.filter_eq_nil_iff.mpr fun e _ he => ?_
    obtain ⟨hsame, hkept⟩ := Bool.and_eq_true_iff.mp he
    simp [hframes e hsame, h] at hkept
  · rename_i h
    refine List.filter_congr fun e _ => ?_
    cases hsame : equivalent CaseInsensitiveComparator e.1 name with
    | false => rfl
    | true => simp [hframes e hsame, h]

/-- A header that frames the message and is made anew is the only one. -/
theorem equalRange_insert_unframed {e : Bytes × Bytes} (h : framesMessage e.1 = true)
    (headers : Headers) (name : Bytes) :
    Multimap.equalRange ((unframed headers).insert e) name =
      if sameName e.1 name then [e]
      else if framesMessage name then [] else headers.equalRange name := by
  rw [Multimap.equalRange_insert, equalRange_unframed]
  cases hsame : sameName e.1 name with
  | true =>
      rw [sameName] at hsame
      simp [hsame, framesMessage_of_sameName hsame h]
  | false =>
      rw [sameName] at hsame
      simp [hsame]

theorem mem_identityHeaders {headers : Headers} {n : ℕ} {e : Bytes × Bytes} :
    e ∈ (identityHeaders headers n).entries ↔
      n ≠ 0 ∧ e = (ContentLengthHeader, OStream.decimal n) ∨ e ∈ (unframed headers).entries := by
  rw [identityHeaders]
  split
  · simp [*]
  · rw [Multimap.mem_insert]
    simp [*]

theorem length_identityHeaders (headers : Headers) (n : ℕ) :
    (identityHeaders headers n).entries.length =
      (unframed headers).entries.length + if n = 0 then 0 else 1 := by
  rw [identityHeaders]
  split
  · rfl
  · exact Multimap.size_insert _ _

theorem equalRange_identityHeaders_contentLength (headers : Headers) (n : ℕ) :
    (identityHeaders headers n).equalRange (str "Content-Length") =
      if n = 0 then [] else [(ContentLengthHeader, OStream.decimal n)] := by
  have hsame : sameName ContentLengthHeader (str "Content-Length") = true := by decide
  rw [identityHeaders]
  split
  · exact (equalRange_unframed headers _).trans (if_pos (by decide))
  · exact (equalRange_insert_unframed rfl headers _).trans (if_pos hsame)

theorem equalRange_identityHeaders_transferEncoding (headers : Headers) (n : ℕ) :
    (identityHeaders headers n).equalRange (str "Transfer-Encoding") = [] := by
  have hother : ¬ sameName ContentLengthHeader (str "Transfer-Encoding") = true := by decide
  have hframes : framesMessage (str "Transfer-Encoding") = true := by decide
  rw [identityHeaders]
  split
  · exact (equalRange_unframed headers _).trans (if_pos hframes)
  · rw [equalRange_insert_unframed rfl, if_neg hother, if_pos hframes]

theorem equalRange_chunkedHeaders (headers : Headers) (name : Bytes) :
    (chunkedHeaders headers).equalRange name =
      if sameName TransferEncodingHeader name then [(TransferEncodingHeader, str "chunked")]
      else if framesMessage name then [] else headers.equalRange name :=
  equalRange_insert_unframed rfl headers name

theorem unframed_writable {headers : Headers}
    (h : ∀ e ∈ headers.entries, framesMessage e.1 = false → Writable e) :
    ∀ e ∈ (unframed headers).entries, Writable e := by
  intro e he
  obtain ⟨hmem, hkept⟩ := List.mem_filter.mp he
  exact h e hmem (by simpa using hkept)

end MessageComposer

variable {lim : Limits}

theorem HeaderSafe.writable {e : Bytes × Bytes} (h : HeaderSafe lim e) : Writable e where
  name_ne := h.name.ne_nil
  name_token := h.name.chars
  value_noControl := h.value.noControl
  value_head ch hch := by
    rintro rfl
    exact h.trimmed.1 SP hch (by decide)
  value_last ch hch := by
    rintro rfl
    exact h.trimmed.2 SP hch (by decide)

namespace Grammar

/-! ### Lines -/

/-- The value of a header line as it is written. -/
def writtenValue (value : Bytes) (h : ∀ ch ∈ value, isControl ch = false) : List ValueItem :=
  .char SP rfl :: value.pmap ValueItem.char h

theorem text_pmap_char (value : Bytes) (h : ∀ ch ∈ value, isControl ch = false) :
    (value.pmap ValueItem.char h).flatMap ValueItem.text = value := by
  induction value with
  | nil => rfl
  | cons ch value ih =>
      rw [List.pmap_cons, List.flatMap_cons, ih]
      rfl

theorem unfolded_pmap_char (value : Bytes) (h : ∀ ch ∈ value, isControl ch = false) :
    (value.pmap ValueItem.char h).map ValueItem.unfolded = value := by
  induction value with
  | nil => rfl
  | cons ch value ih =>
      rw [List.pmap_cons, List.map_cons, ih]
      rfl

def HeaderLine.written {e : Bytes × Bytes} (h : Writable e)
    (hname : e.1.length ≤ max 1 lim.maxHeaderNameLength)
    (hvalue : e.2.length + 1 ≤ lim.maxHeaderValueLength) : HeaderLine lim where
  name := e.1
  value := writtenValue e.2 h.value_noControl
  name_safe := ⟨⟨h.name_token, hname⟩, h.name_ne⟩
  value_length := by simpa [writtenValue] using hvalue

section Written

variable {e : Bytes × Bytes} (h : Writable e)
  (hname : e.1.length ≤ max 1 lim.maxHeaderNameLength)
  (hvalue : e.2.length + 1 ≤ lim.maxHeaderValueLength)

theorem HeaderLine.text_written :
    (HeaderLine.written h hname hvalue).text = MessageComposer.headerLine e := by
  rw [HeaderLine.text, MessageComposer.headerLine]
  show e.1 ++ colon :: (SP :: (e.2.pmap ValueItem.char _).flatMap ValueItem.text) ++ [CR, LF] = _
  rw [text_pmap_char]

theorem HeaderLine.entry_written : (HeaderLine.written h hname hvalue).entry = e := by
  have hvalue' : (HeaderLine.written h hname hvalue).unfolded = [SP] ++ e.2 ++ [] := by
    show SP :: (e.2.pmap ValueItem.char _).map ValueItem.unfolded = _
    rw [unfolded_pmap_char]
    simp
  rw [HeaderLine.entry, hvalue', trim_append (by decide) (by simp) h.trimmed]
  rfl

end Written

/-- The lines that are written for headers within the limits. -/
theorem exists_headerLines {es : List (Bytes × Bytes)} (h : ∀ e ∈ es, Writable e)
    (hname : ∀ e ∈ es, e.1.length ≤ max 1 lim.maxHeaderNameLength)
    (hvalue : ∀ e ∈ es, e.2.length + 1 ≤ lim.maxHeaderValueLength) :
    ∃ lines : List (HeaderLine lim), lines.map HeaderLine.entry = es ∧
      lines.flatMap HeaderLine.text = es.flatMap MessageComposer.headerLine := by
  induction es with
  | nil => exact ⟨[], rfl, rfl⟩
  | cons e es ih =>
      obtain ⟨he, hes⟩ := List.forall_mem_cons.mp h
      obtain ⟨hname_e, hname_es⟩ := List.forall_mem_cons.mp hname
      obtain ⟨hvalue_e, hvalue_es⟩ := List.forall_mem_cons.mp hvalue
      obtain ⟨lines, hentries, htext⟩ := ih hes hname_es hvalue_es
      refine ⟨.written he hname_e hvalue_e :: lines, ?_, ?_⟩
      · rw [List.map_cons, HeaderLine.entry_written, hentries]
      · rw [List.flatMap_cons, HeaderLine.text_written, htext, List.flatMap_cons]

theorem length_of_entries {lines : List (HeaderLine lim)} {es : List (Bytes × Bytes)}
    (h : lines.map HeaderLine.entry = es) : lines.length = es.length := by
  rw [← h, List.length_map]

theorem stored_of_entries {lines : List (HeaderLine lim)} {headers : Headers}
    (h : lines.map HeaderLine.entry = headers.entries) : stored lines = headers := by
  rw [stored, h, Multimap.insertAll_entries]

def FirstLine.written {c : MessageComposer} {sent : List (Bytes × Bytes)} (hc : c.Valid)
    (hroom : lim.RoomFor c sent) : FirstLine lim where
  leading := []
  firstToken := c.firstToken
  gap₁ := [SP]
  secondToken := c.secondToken
  gap₂ := [SP]
  thirdToken := c.thirdToken
  leading_space := by simp
  firstToken_ne := hc.firstToken_ne
  firstToken_safe := ⟨hc.firstToken_visible, hroom.firstToken⟩
  gap₁_ne := by simp
  gap₁_space := by decide
  secondToken_ne := hc.secondToken_ne
  secondToken_safe := ⟨hc.secondToken_visible, hroom.secondToken⟩
  gap₂_ne := by simp
  gap₂_space := by decide
  thirdToken_ne := hc.thirdToken_ne
  thirdToken_safe := ⟨hc.thirdToken_printable, hroom.thirdToken⟩
  thirdToken_head := hc.thirdToken_head

theorem FirstLine.text_written {c : MessageComposer} {sent : List (Bytes × Bytes)} (hc : c.Valid)
    (hroom : lim.RoomFor c sent) : (FirstLine.written hc hroom).text = c.firstLine := by
  simp [FirstLine.text, FirstLine.written, MessageComposer.firstLine]

/-- A message of written lines, which may be stored as other headers than were written,
and of a body that they announce. -/
theorem exists_message {c : MessageComposer} {sent : List (Bytes × Bytes)}
    {headers kept : Headers} {lines : List (HeaderLine lim)} (hc : c.Valid)
    (hroom : lim.RoomFor c sent) (hkept : lines.map HeaderLine.entry = kept.entries)
    (hlines : lines.flatMap HeaderLine.text = headers.entries.flatMap MessageComposer.headerLine)
    (body : Body lim lines) (hamount : lines.length + body.trailers.length ≤ lim.maxHeadersAmount) :
    ∃ m : Message lim, m.text = c.head headers ++ body.text ∧
      m.shown = ⟨c.firstToken, c.secondToken, c.thirdToken,
        kept.insertAll (body.trailers.map HeaderLine.entry)⟩ ∧
      m.body.data = body.data := by
  refine ⟨⟨.written hc hroom, lines, body, hamount⟩, ?_, ?_, rfl⟩
  · rw [Message.text, FirstLine.text_written, hlines, MessageComposer.head]
  · rw [← stored_of_entries hkept, Message.shown, List.map_append, Multimap.insertAll_append]
    rfl

end Grammar

end Httpxx
