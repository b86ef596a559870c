import Httpxx.RoundTrip.Written

/-!
Parsing undoes identity composition, and composing a parsed message again keeps it.
Both come down to one derivation: the envelope for given headers followed by the
payload is the text of a message that means the composer's tokens, the headers as they
are sent, and the payload. The hypotheses of that derivation are the caller's in the
first case; in the second they are what the grammar says of every message.
-/

namespace Httpxx

open Library

variable {lim : Limits}

namespace MessageComposer

theorem writable_contentLength (n : ℕ) : Writable (ContentLengthHeader, OStream.decimal n) := by
  have hdigit : ∀ ch ∈ OStream.decimal n, isControl ch = false ∧ ch ≠ SP := by
    intro ch hch
    have hch : isHexDigit ch = true := isHexDigit_of_isDigit ((spells_decimal n).chars ch hch)
    refine ⟨?_, ?_⟩
    · unfold isHexDigit isDigit at hch
      unfold isControl
      grind
    · rintro rfl
      exact absurd hch (by decide)
  exact {
    name_ne := show ContentLengthHeader ≠ [] by decide
    name_token := show ∀ ch ∈ ContentLengthHeader, isToken ch = true by decide
    value_noControl := fun ch hch => (hdigit ch hch).1
    value_head := fun ch hch => (hdigit ch (List.mem_of_mem_head? hch)).2
    value_last := fun ch hch => (hdigit ch (List.mem_of_getLast? hch)).2 }

theorem writable_identityHeaders {headers : Headers}
    (h : ∀ e ∈ (unframed headers).entries, Writable e) (n : ℕ) :
    ∀ e ∈ (identityHeaders headers n).entries, Writable e := by
  intro e he
  rcases mem_identityHeaders.mp he with ⟨-, rfl⟩ | he
  · exact writable_contentLength n
  · exact h e he

end MessageComposer

namespace Grammar

open MessageComposer

/-- After the header lines of an envelope the payload is the body they announce. -/
theorem exists_identityBody {lines : List (HeaderLine lim)} {headers : Headers} {payload : Bytes}
    (hstored : stored lines = identityHeaders headers payload.length)
    (hlength : payload.length < 2 ^ 32) :
    ∃ body : Body lim lines, body.text = payload ∧ body.data = payload ∧ body.trailers = [] := by
  have hchunked : ¬ AsksChunked lines := by
    rw [← haveValue_stored_iff, hstored, Headers.haveValue,
      equalRange_identityHeaders_transferEncoding]
    simp
  have hannounced := contentLength?_eq lines
  rw [hstored, Headers.haveHeader, Headers.value, equalRange_identityHeaders_contentLength]
    at hannounced
  rcases Nat.eq_zero_or_pos payload.length with hzero | hpos
  · obtain rfl := List.eq_nil_of_length_eq_zero hzero
    exact ⟨.empty hchunked hannounced, rfl, rfl, rfl⟩
  · rw [if_neg hpos.ne'] at hannounced
    have hsize : payload.length = payload.length.toUInt32.toNat :=
      (UInt32.toNat_ofNat_of_lt' hlength).symm
    exact ⟨.identity _ _ payload hchunked hannounced (toUnsignedInt_decimal hlength) hsize,
      rfl, rfl, rfl⟩

/-- Lines written for an envelope, and its payload, are a message. They may be stored as
other headers than were given. -/
theorem exists_identityMessage_of_lines {c : MessageComposer} {headers kept : Headers}
    {payload : Bytes} {lines : List (HeaderLine lim)} (hc : c.Valid)
    (hlength : payload.length < 2 ^ 32)
    (hroom : lim.RoomFor c (identityHeaders headers payload.length).entries)
    (hlines : lines.flatMap HeaderLine.text =
      (identityHeaders headers payload.length).entries.flatMap headerLine)
    (hkept : lines.map HeaderLine.entry = (identityHeaders kept payload.length).entries)
    (hamount : lines.length ≤ lim.maxHeadersAmount) :
    ∃ m : Message lim, m.text = c.head (identityHeaders headers payload.length) ++ payload ∧
      m.shown = ⟨c.firstToken, c.secondToken, c.thirdToken, identityHeaders kept payload.length⟩ ∧
      m.body.data = payload := by
  obtain ⟨body, htext, hdata, htrailers⟩ := exists_identityBody (stored_of_entries hkept) hlength
  have hmessage := exists_message hc hroom hkept hlines body (by simpa [htrailers] using hamount)
  rwa [htext, hdata, htrailers] at hmessage

theorem exists_identityMessage {c : MessageComposer} {headers : Headers} {payload : Bytes}
    (hc : c.Valid) (hheaders : ∀ e ∈ (unframed headers).entries, Writable e)
    (hlength : payload.length < 2 ^ 32)
    (hroom : lim.RoomFor c (identityHeaders headers payload.length).entries) :
    ∃ m : Message lim, m.text = c.head (identityHeaders headers payload.length) ++ payload ∧
      m.shown = ⟨c.firstToken, c.secondToken, c.thirdToken,
        identityHeaders headers payload.length⟩ ∧
      m.body.data = payload := by
  obtain ⟨lines, hentries, hlines⟩ := exists_headerLines
    (writable_identityHeaders hheaders payload.length) hroom.name hroom.value
  have hamount : lines.length ≤ lim.maxHeadersAmount := by
    rw [length_of_entries hentries]
    exact hroom.amount
  exact exists_identityMessage_of_lines hc hlength hroom hlines hentries hamount

end Grammar

/-! ### Composing, then parsing -/

namespace MessageComposer

theorem contents_composeEnvelope (c : MessageComposer) (headers : Headers) (n : ℕ) :
    (c.composeEnvelope .fresh headers n).contents = c.head (identityHeaders headers n) := by
  rw [composeEnvelope_eq rfl]
  rfl

/-- **Parsing undoes identity composition.** An envelope followed by its payload is
accepted by every new parser with room for it, which then shows the three tokens and
the given headers with those that frame the message made anew, and has flagged the
payload. Nothing is asked of the given headers that frame a message. -/
theorem accepted_composeEnvelope (lim : Limits) (c : MessageComposer) (headers : Headers)
    (payload : Bytes) (hc : c.Valid)
    (hheaders : ∀ e ∈ headers.entries, framesMessage e.1 = false → Writable e)
    (hlength : payload.length < 2 ^ 32)
    (hroom : lim.RoomFor c (identityHeaders headers payload.length).entries) :
    MessageParser.Accepted lim
      ((c.composeEnvelope .fresh headers payload.length).contents ++ payload)
      ⟨c.firstToken, c.secondToken, c.thirdToken, identityHeaders headers payload.length⟩
      payload := by
  obtain ⟨m, htext, hshown, hdata⟩ :=
    Grammar.exists_identityMessage hc (unframed_writable hheaders) hlength hroom
  have hacc := MessageParser.accepted_text m
  rwa [htext, hshown, hdata, ← contents_composeEnvelope] at hacc

/-- A greeting whose given `content-length` is wrong. -/
theorem accepted_composeEnvelope_greeting :
    MessageParser.Accepted ⟨8, 8, 8, 16, 16, 2⟩
      ((composeEnvelope ⟨str "HTTP/1.1", str "200", str "OK"⟩ .fresh
        ((∅ : Headers).insertAll [(str "content-length", str "7"), (str "X", str "a: b")])
        2).contents ++ str "hi")
      ⟨str "HTTP/1.1", str "200", str "OK", (∅ : Headers).insertAll
        [(str "X", str "a: b"), (str "Content-Length", str "2")]⟩
      (str "hi") := by
  have h := accepted_composeEnvelope ⟨8, 8, 8, 16, 16, 2⟩ ⟨str "HTTP/1.1", str "200", str "OK"⟩
    ((∅ : Headers).insertAll [(str "content-length", str "7"), (str "X", str "a: b")]) (str "hi")
    ⟨by decide, by decide, by decide, by decide, by decide, by decide, by decide⟩ (by decide)
    (by decide) ⟨by decide, by decide, by decide, by decide, by decide, by decide⟩
  exact h

end MessageComposer

/-! ### Parsing, then composing again -/

def Shown.composer (m : Shown) : MessageComposer := ⟨m.firstToken, m.secondToken, m.thirdToken⟩

/-- The limits of a parser for the composed message: room for the separating space and
for a `Content-Length` of ten digits. -/
def Limits.forComposed (lim : Limits) : Limits :=
  { lim with maxHeaderValueLength := max lim.maxHeaderValueLength 10 + 1 }

namespace MessageComposer

theorem length_le_of_framesMessage {name : Bytes} (h : framesMessage name = true) :
    ContentLengthHeader.length ≤ name.length := by
  have hfolded : ∀ header, sameName name header = true →
      (foldedCase header).length ≤ name.length := by
    intro header hsame
    rw [← (sameName_iff _ _).mp hsame, foldedCase, List.length_map]
    exact (List.takeWhile_sublist _).length_le
  rw [framesMessage, Bool.or_eq_true] at h
  rcases h with hsame | hsame
  · exact hfolded _ hsame
  · exact (show ContentLengthHeader.length ≤ (foldedCase TransferEncodingHeader).length by
      decide).trans (hfolded _ hsame)

theorem length_decimal_le {n : ℕ} (h : n < 2 ^ 32) : (OStream.decimal n).length ≤ 10 := by
  rw [OStream.decimal, List.length_map]
  exact digitsOf_length_le (by decide) (by decide) (h.trans (by decide))

theorem length_unframed_lt {headers : Headers}
    (h : ∃ e ∈ headers.entries, framesMessage e.1 = true) :
    (unframed headers).entries.length < headers.entries.length := by
  obtain ⟨e, he, hframes⟩ := h
  exact List.length_filter_lt_length_iff_exists.mpr ⟨e, he, by simp [hframes]⟩

end MessageComposer

open MessageComposer

/-- What a parser has taken fits again once it is composed. -/
theorem Shown.Safe.roomFor {m : Shown} (h : m.Safe lim) {n : ℕ} (hn : n < 2 ^ 32)
    (hframed : n ≠ 0 → ∃ e ∈ m.headers.entries, framesMessage e.1 = true) :
    lim.forComposed.RoomFor m.composer (identityHeaders m.headers n).entries := by
  have hkept : ∀ e ∈ (unframed m.headers).entries, HeaderSafe lim e := fun e he =>
    h.headers e (List.mem_of_mem_filter he)
  refine ⟨h.firstToken.length, h.secondToken.length, h.thirdToken.length, ?_, ?_, ?_⟩
  · intro e he
    rcases mem_identityHeaders.mp he with ⟨hne, rfl⟩ | he
    -- the name written anew is not longer than one that was taken
    · obtain ⟨framing, hmem, hframes⟩ := hframed hne
      exact (length_le_of_framesMessage hframes).trans (h.headers framing hmem).name.length
    · exact (hkept e he).name.length
  · intro e he
    have hvalue : e.2.length ≤ max lim.maxHeaderValueLength 10 := by
      rcases mem_identityHeaders.mp he with ⟨-, rfl⟩ | he
      · exact (length_decimal_le hn).trans (le_max_right _ _)
      · exact (hkept e he).value.length.trans (le_max_left _ _)
    exact Nat.succ_le_succ hvalue
  · have hsize : m.headers.entries.length ≤ lim.maxHeadersAmount := h.headers_size
    rw [length_identityHeaders]
    show _ ≤ lim.maxHeadersAmount
    split
    · exact (List.length_filter_le _ _).trans hsize
    · rename_i hne
      -- one header is added, but at least one was erased
      exact (length_unframed_lt (hframed hne)).trans_le hsize

namespace Grammar

theorem Message.composer_valid (m : Message lim) : m.shown.composer.Valid where
  firstToken_ne := m.firstLine.firstToken_ne
  firstToken_visible := m.firstLine.firstToken_safe.chars
  secondToken_ne := m.firstLine.secondToken_ne
  secondToken_visible := m.firstLine.secondToken_safe.chars
  thirdToken_ne := m.firstLine.thirdToken_ne
  thirdToken_printable := m.firstLine.thirdToken_safe.chars
  thirdToken_head := m.firstLine.thirdToken_head

/-- A body with any bytes in it was announced by a header. -/
theorem Message.exists_framing (m : Message lim) (h : m.body.data ≠ []) :
    ∃ e ∈ m.shown.headers.entries, framesMessage e.1 = true := by
  have hline : ∃ l ∈ m.headers, framesMessage l.name = true := by
    cases hbody : m.body with
    | empty => simp [hbody, Body.data] at h
    | identity value n data _ hlength =>
        obtain ⟨l, hl, -⟩ := Option.map_eq_some_iff.mp hlength
        obtain ⟨hmem, hsame⟩ := List.mem_filter.mp (List.mem_of_mem_head? hl)
        refine ⟨l, hmem, ?_⟩
        rw [framesMessage, show sameName l.name ContentLengthHeader = true from hsame]
        rfl
    | chunked hchunked =>
        obtain ⟨l, hmem, hsame, -⟩ := hchunked
        refine ⟨l, hmem, ?_⟩
        rw [framesMessage, show sameName l.name TransferEncodingHeader = true from hsame]
        exact Bool.or_true _
  obtain ⟨l, hmem, hframes⟩ := hline
  refine ⟨l.entry, ?_, hframes⟩
  exact Multimap.mem_insertAll.mpr
    (.inl (List.mem_map_of_mem (List.mem_append_left _ hmem)))

end Grammar

namespace MessageParser

/-- **Composing a parsed message again keeps it.** Whatever was accepted, in whatever
spelling, its tokens, headers and body composed with their length are accepted again by
a parser with room for the separating space, and mean the same tokens, the same body and
the same headers with those that frame the message made anew. -/
theorem accepted_recomposed (lim : Limits) (s : Bytes) (m : Shown) (body : Bytes)
    (h : Accepted lim s m body) (hlength : body.length < 2 ^ 32) :
    Accepted lim.forComposed
      ((m.composer.composeEnvelope .fresh m.headers body.length).contents ++ body)
      ⟨m.firstToken, m.secondToken, m.thirdToken, identityHeaders m.headers body.length⟩
      body := by
  obtain ⟨msg, -, rfl, rfl⟩ := exists_message_of_accepted h
  have hroom := msg.shown_safe.roomFor hlength fun hne =>
    msg.exists_framing (List.length_pos_iff.mp (Nat.pos_of_ne_zero hne))
  have hheaders : ∀ e ∈ (unframed msg.shown.headers).entries, Writable e := fun e he =>
    (msg.shown_safe.headers e (List.mem_of_mem_filter he)).writable
  obtain ⟨again, htext, hshown, hdata⟩ :=
    Grammar.exists_identityMessage msg.composer_valid hheaders hlength hroom
  have hacc := accepted_text again
  rwa [htext, hshown, hdata, ← contents_composeEnvelope] at hacc

/-- A chunked message with an extension, a folded trailer and no white space to spare. -/
theorem accepted_recomposed_chunked :
    Accepted ⟨1, 1, 1, 17, 13, 2⟩
      ((composeEnvelope ⟨str "A", str "B", str "C"⟩ .fresh ((∅ : Headers).insertAll
        [(str "Transfer-Encoding", str "chunked"), (str "X", str "a b")]) 2).contents ++ str "hi")
      ⟨str "A", str "B", str "C",
        (∅ : Headers).insertAll [(str "X", str "a b"), (str "Content-Length", str "2")]⟩
      (str "hi") := by
  have hacc : Accepted ⟨1, 1, 1, 17, 12, 2⟩
      (str "A B C\r\nTransfer-Encoding:chunked\r\n\r\n2;x\r\nhi\r\n0\r\nX:a\r\n\tb\r\n\r\n")
      ⟨str "A", str "B", str "C", (∅ : Headers).insertAll
        [(str "Transfer-Encoding", str "chunked"), (str "X", str "a b")]⟩ (str "hi") := by
    decide +kernel
  exact accepted_recomposed _ _ _ _ hacc (by decide)

end MessageParser

end Httpxx
