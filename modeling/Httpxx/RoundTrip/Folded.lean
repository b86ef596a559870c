import Httpxx.RoundTrip.Chunked
import Httpxx.RoundTrip.HeaderLimits
import Httpxx.RoundTrip.Identity

/-!
Values over several lines. A caller who wants one inserts linear white space, which is
spaces and tabs, perhaps after a line break. The parser takes a tab as white space in
one state only, right after the line break; in the value itself it takes spaces and
refuses a tab as it refuses every control character. So the values that come back are
those whose tabs all begin a continuation line, in the header section and in the
trailer section alike.
-/

namespace Httpxx

open Library Grammar

variable {lim : Limits}

/-! ### Linear white space -/

/-- Linear white space: `[CR LF] 1*(SP | HT)`. -/
structure Lws where
  lineBreak : Bool
  first : Byte
  more : Bytes
  first_space : isSpaceOrTab first = true
  more_space : ∀ ch ∈ more, isSpaceOrTab ch = true

namespace Lws

def text (l : Lws) : Bytes := (if l.lineBreak then [CR, LF] else []) ++ l.first :: l.more

def read (l : Lws) : Bytes := List.replicate (l.more.length + 1) SP

/-- A tab stands right after the line break only. -/
def Readable (l : Lws) : Prop :=
  (l.lineBreak = false → l.first = SP) ∧ ∀ ch ∈ l.more, ch = SP

instance : DecidablePred Readable := fun _ => inferInstanceAs (Decidable (_ ∧ _))

theorem exists_items {l : Lws} (h : l.Readable) :
    ∃ items : List ValueItem, items.flatMap ValueItem.text = l.text ∧
      items.map ValueItem.unfolded = l.read := by
  have hmore : ∀ ch ∈ l.more, isControl ch = false := fun ch hch => by
    rw [h.2 ch hch]
    rfl
  have hspaces : l.more = List.replicate l.more.length SP := List.eq_replicate_of_mem h.2
  cases hbreak : l.lineBreak with
  | true =>
      refine ⟨.fold l.first l.first_space :: l.more.pmap .char hmore, ?_, ?_⟩
      · rw [List.flatMap_cons, text_pmap_char, text, hbreak]
        rfl
      · rw [List.map_cons, unfolded_pmap_char, read, List.replicate_succ, ← hspaces]
        rfl
  | false =>
      refine ⟨.char SP rfl :: l.more.pmap .char hmore, ?_, ?_⟩
      · rw [List.flatMap_cons, text_pmap_char, text, hbreak, h.1 hbreak]
        rfl
      · rw [List.map_cons, unfolded_pmap_char, read, List.replicate_succ, ← hspaces]
        rfl

theorem eq_HT {ch : Byte} (h : isSpaceOrTab ch = true) (hne : ch ≠ SP) : ch = HT :=
  ((isSpaceOrTab_iff ch).mp h).resolve_left hne

theorem exists_tab {l : Lws} (h : ¬ l.Readable) :
    ∃ (items : List ValueItem) (w : Bytes),
      l.text = items.flatMap ValueItem.text ++ HT :: w := by
  by_cases hfirst : l.lineBreak = false → l.first = SP
  · have hmore : ∃ ch ∈ l.more, ch ≠ SP := by
      by_contra hall
      push Not at hall
      exact h ⟨hfirst, hall⟩
    obtain ⟨before, ch, after, hmore, hne, hbefore⟩ := exists_first hmore
    have hspace := l.more_space
    rw [hmore, List.forall_mem_append, List.forall_mem_cons] at hspace
    obtain rfl := eq_HT hspace.2.1 hne
    obtain ⟨items, htext, -⟩ := exists_items
      (l := ⟨l.lineBreak, l.first, before, l.first_space, hspace.1⟩)
      ⟨hfirst, fun ch hch => not_not.mp (hbefore ch hch)⟩
    refine ⟨items, after, ?_⟩
    rw [htext, text, text, hmore]
    simp
  · obtain ⟨hbreak, hne⟩ := Classical.not_imp.mp hfirst
    refine ⟨[], l.more, ?_⟩
    rw [text, hbreak, ← eq_HT l.first_space hne]
    rfl

end Lws

/-! ### Values -/

/-- Pieces of text with linear white space between them. -/
structure FoldedValue where
  first : Bytes
  rest : List (Lws × Bytes)
  first_text : ∀ ch ∈ first, isControl ch = false
  rest_text : ∀ x ∈ rest, ∀ ch ∈ x.2, isControl ch = false

namespace FoldedValue

def text (v : FoldedValue) : Bytes := v.first ++ v.rest.flatMap fun x => x.1.text ++ x.2

def read (v : FoldedValue) : Bytes := v.first ++ v.rest.flatMap fun x => x.1.read ++ x.2

def stored (v : FoldedValue) : Bytes := trim v.read

/-- Every tab is right after a line break. -/
def Readable (v : FoldedValue) : Prop := ∀ x ∈ v.rest, x.1.Readable

instance : DecidablePred Readable := fun v =>
  List.decidableBAll (fun x : Lws × Bytes => x.1.Readable) v.rest

def plain (t : Bytes) (h : ∀ ch ∈ t, isControl ch = false) : FoldedValue := ⟨t, [], h, by simp⟩

theorem exists_rest_items {rest : List (Lws × Bytes)}
    (htext : ∀ x ∈ rest, ∀ ch ∈ x.2, isControl ch = false) (h : ∀ x ∈ rest, x.1.Readable) :
    ∃ items : List ValueItem,
      items.flatMap ValueItem.text = (rest.flatMap fun x => x.1.text ++ x.2) ∧
      items.map ValueItem.unfolded = rest.flatMap fun x => x.1.read ++ x.2 := by
  induction rest with
  | nil => exact ⟨[], rfl, rfl⟩
  | cons x rest ih =>
      obtain ⟨hx, hrest⟩ := List.forall_mem_cons.mp h
      obtain ⟨hpiece, htext⟩ := List.forall_mem_cons.mp htext
      obtain ⟨items, hitems, hunfolded⟩ := ih htext hrest
      obtain ⟨space, hspace, hread⟩ := Lws.exists_items hx
      refine ⟨space ++ x.2.pmap .char hpiece ++ items, ?_, ?_⟩
      · rw [List.flatMap_append, List.flatMap_append, hspace, text_pmap_char, hitems,
          List.flatMap_cons]
      · rw [List.map_append, List.map_append, hread, unfolded_pmap_char, hunfolded,
          List.flatMap_cons]

theorem exists_items {v : FoldedValue} (h : v.Readable) :
    ∃ items : List ValueItem, items.flatMap ValueItem.text = v.text ∧
      items.map ValueItem.unfolded = v.read := by
  obtain ⟨items, htext, hread⟩ := exists_rest_items v.rest_text h
  refine ⟨v.first.pmap .char v.first_text ++ items, ?_, ?_⟩
  · rw [List.flatMap_append, text_pmap_char, htext, text]
  · rw [List.map_append, unfolded_pmap_char, hread, read]

theorem exists_tab {v : FoldedValue} (h : ¬ v.Readable) :
    ∃ (items : List ValueItem) (w : Bytes),
      v.text = items.flatMap ValueItem.text ++ HT :: w := by
  obtain ⟨before, x, after, hrest, hx, hbefore⟩ :=
    exists_first (P := fun x : Lws × Bytes => ¬ x.1.Readable) (l := v.rest)
      (by simpa [Readable] using h)
  have hpieces : ∀ y ∈ before, ∀ ch ∈ y.2, isControl ch = false := fun y hy =>
    v.rest_text y (by simp [hrest, hy])
  obtain ⟨items, htext, -⟩ := exists_items (v := ⟨v.first, before, v.first_text, hpieces⟩)
    fun y hy => not_not.mp (hbefore y hy)
  obtain ⟨space, w, hspace⟩ := Lws.exists_tab hx
  refine ⟨items ++ space, w ++ x.2 ++ after.flatMap fun x => x.1.text ++ x.2, ?_⟩
  rw [List.flatMap_append, htext, text, text, hrest, List.flatMap_append, List.flatMap_cons, hspace]
  simp

end FoldedValue

/-! ### Headers with such values -/

abbrev FoldedHeaders := Multimap Bytes FoldedValue CaseInsensitiveComparator

namespace FoldedHeaders

/-- The headers as they are given to the composer. -/
def written (fields : FoldedHeaders) : Headers := fields.mapValues FoldedValue.text

/-- The headers as they are to be read back. -/
def readBack (fields : FoldedHeaders) : Headers := fields.mapValues FoldedValue.stored

end FoldedHeaders

theorem FoldedValue.length_read_le (v : FoldedValue) : v.read.length ≤ v.text.length := by
  have hrest : ∀ rest : List (Lws × Bytes), (rest.flatMap fun x => x.1.read ++ x.2).length ≤
      (rest.flatMap fun x => x.1.text ++ x.2).length := by
    intro rest
    induction rest with
    | nil => exact le_refl _
    | cons x rest ih =>
        have hspace : x.1.read.length ≤ x.1.text.length := by
          simp [Lws.read, Lws.text]
        simp only [List.flatMap_cons, List.length_append] at ih ⊢
        omega
  rw [read, text, List.length_append, List.length_append]
  exact Nat.add_le_add_left (hrest v.rest) _

theorem length_items_le (items : List ValueItem) :
    items.length ≤ (items.flatMap ValueItem.text).length := by
  induction items with
  | nil => exact le_refl _
  | cons i items ih =>
      have hpos : 1 ≤ i.text.length := by
        cases i <;> simp [ValueItem.text]
      rw [List.flatMap_cons, List.length_append, List.length_cons]
      omega

section Lines

open MessageComposer

variable {es : List (Bytes × FoldedValue)}

/-- The lines that are written for values that can be read. -/
theorem exists_foldedLines (hname : ∀ e ∈ es, NameSafe lim e.1)
    (hvalue : ∀ e ∈ es, e.2.text.length + 1 ≤ lim.maxHeaderValueLength)
    (h : ∀ e ∈ es, e.2.Readable) :
    ∃ lines : List (HeaderLine lim),
      lines.flatMap HeaderLine.text =
        (es.map (Prod.map id FoldedValue.text)).flatMap headerLine ∧
      lines.map HeaderLine.entry = es.map (Prod.map id FoldedValue.stored) := by
  induction es with
  | nil => exact ⟨[], rfl, rfl⟩
  | cons e es ih =>
      obtain ⟨hname_e, hname_es⟩ := List.forall_mem_cons.mp hname
      obtain ⟨hvalue_e, hvalue_es⟩ := List.forall_mem_cons.mp hvalue
      obtain ⟨he, hes⟩ := List.forall_mem_cons.mp h
      obtain ⟨lines, htext, hentries⟩ := ih hname_es hvalue_es hes
      obtain ⟨items, hitems, hread⟩ := FoldedValue.exists_items he
      have hlength : items.length = e.2.read.length := by
        rw [← hread, List.length_map]
      have hfits : (ValueItem.char SP rfl :: items).length ≤ lim.maxHeaderValueLength := by
        have hle := e.2.length_read_le
        rw [List.length_cons]
        omega
      let line : HeaderLine lim := ⟨e.1, .char SP rfl :: items, hname_e, hfits⟩
      have hline : line.text = headerLine (Prod.map id FoldedValue.text e) := by
        show e.1 ++ colon :: (SP :: items.flatMap ValueItem.text) ++ [CR, LF] = _
        rw [hitems]
        rfl
      have hentry : line.entry = Prod.map id FoldedValue.stored e := by
        show (e.1, trim ([SP] ++ items.map ValueItem.unfolded)) = _
        rw [hread, trim_append_left (by decide)]
        rfl
      refine ⟨line :: lines, ?_, ?_⟩
      · rw [List.flatMap_cons, hline, htext, List.map_cons, List.flatMap_cons]
      · rw [List.map_cons, hentry, hentries, List.map_cons]

theorem exists_writtenLines {fields : FoldedHeaders}
    (hname : ∀ e ∈ fields.entries, NameSafe lim e.1)
    (hvalue : ∀ e ∈ fields.entries, e.2.text.length + 1 ≤ lim.maxHeaderValueLength)
    (h : ∀ e ∈ fields.entries, e.2.Readable) :
    ∃ lines : List (HeaderLine lim),
      lines.flatMap HeaderLine.text = fields.written.entries.flatMap headerLine ∧
      lines.map HeaderLine.entry = fields.readBack.entries ∧
      lines.length = fields.entries.length := by
  obtain ⟨lines, htext, hentries⟩ := exists_foldedLines hname hvalue h
  refine ⟨lines, htext, hentries, ?_⟩
  rw [length_of_entries hentries, List.length_map]

/-- A tab elsewhere is refused, after the lines of the headers before it. -/
theorem refusal_of_tab (isTrailer : Bool) {m : Shown} (hname : ∀ e ∈ es, NameSafe lim e.1)
    (hvalue : ∀ e ∈ es, e.2.text.length + 1 ≤ lim.maxHeaderValueLength)
    (hamount : m.headers.size + es.length ≤ lim.maxHeadersAmount)
    (h : ∃ e ∈ es, ¬ e.2.Readable) (rest : Bytes) :
    (Phase.recogniser lim).refusal (.header isTrailer m)
        ((es.map (Prod.map id FoldedValue.text)).flatMap headerLine ++ rest) =
      some .invalidHeaderValue := by
  obtain ⟨before, e, after, rfl, htab, hbefore⟩ := exists_first h
  rw [List.forall_mem_append, List.forall_mem_cons] at hname hvalue
  obtain ⟨lines, hlines, hentries⟩ := exists_foldedLines hname.1 hvalue.1
    fun b hb => not_not.mp (hbefore b hb)
  have hroom : m.headers.size + lines.length ≤ lim.maxHeadersAmount := by
    have hlength := length_of_entries hentries
    rw [List.length_map] at hlength
    rw [List.length_append] at hamount
    omega
  obtain ⟨items, w, hitems⟩ := FoldedValue.exists_tab htab
  let read : List ValueItem := .char SP rfl :: items
  have htext : SP :: e.2.text = read.flatMap ValueItem.text ++ HT :: w := by
    rw [hitems]
    rfl
  have hfits : read.length ≤ lim.maxHeaderValueLength := by
    have hle := length_items_le read
    have hlength := congrArg List.length htext
    have hvalue_e := hvalue.2.1
    simp only [List.length_cons, List.length_append] at hlength
    omega
  have hrefused : Phase.next lim (.headerValue isTrailer (m.addHeaders lines) e.1
      (read.map ValueItem.unfolded)) HT = .error .invalidHeaderValue := rfl
  have hrefusal := refusal_in_line isTrailer (e := (e.1, e.2.text)) hroom hname.2.1 htext hfits
    hrefused ((after.map (Prod.map id FoldedValue.text)).flatMap headerLine ++ rest)
  rw [hlines] at hrefusal
  simpa [List.flatMap_append, Prod.map] using hrefusal

end Lines

/-! ### Messages with such headers -/

namespace MessageComposer

theorem unframed_mapValues (fields : FoldedHeaders) (g : FoldedValue → Bytes) :
    unframed (fields.mapValues g) = (fields.filter fun e => !framesMessage e.1).mapValues g :=
  fields.filter_mapValues g fun name => !framesMessage name

def ownHeader (e : Bytes × Bytes) (h : Writable e) : Bytes × FoldedValue :=
  (e.1, .plain e.2 h.value_noControl)

section Own

variable {e : Bytes × Bytes} (h : Writable e)

theorem text_ownHeader : (ownHeader e h).2.text = e.2 := List.append_nil _

theorem stored_ownHeader : (ownHeader e h).2.stored = e.2 := by
  have hread : (ownHeader e h).2.read = e.2 := List.append_nil _
  rw [FoldedValue.stored, hread, trim_of_trimmed h.trimmed]

theorem readable_ownHeader : (ownHeader e h).2.Readable := by
  intro x hx
  cases hx

end Own

def ownLength (payloadLen : ℕ) : Option (Bytes × FoldedValue) :=
  if payloadLen = 0 then none else some (ownHeader _ (writable_contentLength payloadLen))

def ownCoding : Option (Bytes × FoldedValue) :=
  some (ownHeader (TransferEncodingHeader, str "chunked") (by decide))

/-- The fields that go out, with the composer's own one. -/
def sentFields (fields : FoldedHeaders) (own : Option (Bytes × FoldedValue)) : FoldedHeaders :=
  let kept := fields.filter fun e => !framesMessage e.1
  own.elim kept kept.insert

theorem mem_sentFields {fields : FoldedHeaders} {own : Option (Bytes × FoldedValue)}
    {e : Bytes × FoldedValue} : e ∈ (sentFields fields own).entries ↔
      e ∈ own ∨ (e ∈ fields.entries ∧ framesMessage e.1 = false) := by
  cases own with
  | none => simp [sentFields]
  | some o =>
      show e ∈ (Multimap.insert _ o).entries ↔ _
      rw [Multimap.mem_insert, Option.mem_some_iff, eq_comm]
      simp

theorem identityHeaders_mapValues (fields : FoldedHeaders) (n : ℕ) {g : FoldedValue → Bytes}
    (hg : ∀ e h, g (ownHeader e h).2 = e.2) :
    identityHeaders (fields.mapValues g) n = (sentFields fields (ownLength n)).mapValues g := by
  rw [identityHeaders, unframed_mapValues, sentFields, ownLength]
  split
  · rfl
  · rw [Option.elim_some, ← Multimap.insert_mapValues, hg]
    rfl

theorem chunkedHeaders_mapValues (fields : FoldedHeaders) {g : FoldedValue → Bytes}
    (hg : ∀ e h, g (ownHeader e h).2 = e.2) :
    chunkedHeaders (fields.mapValues g) = (sentFields fields ownCoding).mapValues g := by
  rw [chunkedHeaders, unframed_mapValues, sentFields, ownCoding, Option.elim_some,
    ← Multimap.insert_mapValues, hg]
  rfl

def TokenName (name : Bytes) : Prop := name ≠ [] ∧ ∀ ch ∈ name, isToken ch = true

instance : DecidablePred TokenName := fun _ => inferInstanceAs (Decidable (_ ∧ _))

section Sent

variable {fields : FoldedHeaders} {own : Option (Bytes × FoldedValue)}

/-- Of the fields that go out all can be read, when those of the caller can. -/
theorem readable_sentFields (hown : ∀ e ∈ own, e.2.Readable) :
    (∀ e ∈ (sentFields fields own).entries, e.2.Readable) ↔
      ∀ e ∈ fields.entries, framesMessage e.1 = false → e.2.Readable := by
  simp only [mem_sentFields]
  constructor
  · intro h e he hkept
    exact h e (.inr ⟨he, hkept⟩)
  · rintro h e (he | ⟨he, hkept⟩)
    · exact hown e he
    · exact h e he hkept

theorem tokenName_sentFields (hown : ∀ e ∈ own, TokenName e.1)
    (h : ∀ e ∈ fields.entries, framesMessage e.1 = false → TokenName e.1) :
    ∀ e ∈ (sentFields fields own).entries, TokenName e.1 := by
  intro e he
  rcases mem_sentFields.mp he with he | ⟨he, hkept⟩
  · exact hown e he
  · exact h e he hkept

end Sent

theorem ownLength_spec (n : ℕ) : ∀ e ∈ ownLength n, e.2.Readable ∧ TokenName e.1 := by
  intro e he
  rw [ownLength] at he
  split at he
  · cases he
  · obtain rfl := Option.some.inj he
    exact ⟨readable_ownHeader _, (writable_contentLength n).name_ne,
      (writable_contentLength n).name_token⟩

theorem ownCoding_spec : ∀ e ∈ ownCoding, e.2.Readable ∧ TokenName e.1 := by
  intro e he
  obtain rfl := Option.some.inj he
  exact ⟨readable_ownHeader _, show TokenName TransferEncodingHeader by decide⟩

theorem fits_of_room {fields : FoldedHeaders} (hnames : ∀ e ∈ fields.entries, TokenName e.1)
    (hname : ∀ e ∈ fields.written.entries, e.1.length ≤ max 1 lim.maxHeaderNameLength)
    (hvalue : ∀ e ∈ fields.written.entries, e.2.length + 1 ≤ lim.maxHeaderValueLength) :
    (∀ e ∈ fields.entries, NameSafe lim e.1) ∧
      ∀ e ∈ fields.entries, e.2.text.length + 1 ≤ lim.maxHeaderValueLength := by
  have hmem : ∀ e ∈ fields.entries, (e.1, e.2.text) ∈ fields.written.entries := fun e he =>
    List.mem_map_of_mem he
  exact ⟨fun e he => ⟨⟨(hnames e he).2, hname _ (hmem e he)⟩, (hnames e he).1⟩,
    fun e he => hvalue _ (hmem e he)⟩

end MessageComposer

theorem MessageParser.not_accepted_of_refusal {s body : Bytes} {m : Shown} (code : Code)
    (h : (create lim).refusal s = some code) : ¬ Accepted lim s m body := by
  rintro ⟨rs, hrun, -⟩
  cases h.symm.trans (refusal_eq_none_iff.mpr ⟨rs, hrun⟩)

namespace MessageComposer

variable {c : MessageComposer} {sent : List (Bytes × Bytes)}

theorem refusal_firstLine (hc : c.Valid) (hroom : lim.RoomFor c sent) (rest : Bytes) :
    (MessageParser.create lim).refusal (c.firstLine ++ rest) =
      (Phase.recogniser lim).refusal
        (.header false ⟨c.firstToken, c.secondToken, c.thirdToken, ∅⟩) rest := by
  have hread := reads_firstLine (Shown.mk [] [] [] ∅) (FirstLine.written hc hroom)
  rw [FirstLine.text_written] at hread
  rw [MessageParser.refusal_create, Phase.initial, hread.refusal_append]
  rfl

theorem accepted_folded_identity (fields : FoldedHeaders) (payload : Bytes) (hc : c.Valid)
    (hnames : ∀ e ∈ fields.entries, framesMessage e.1 = false → TokenName e.1)
    (hlength : payload.length < 2 ^ 32)
    (hroom : lim.RoomFor c (identityHeaders fields.written payload.length).entries) :
    MessageParser.Accepted lim
        ((c.composeEnvelope .fresh fields.written payload.length).contents ++ payload)
        ⟨c.firstToken, c.secondToken, c.thirdToken,
          identityHeaders fields.readBack payload.length⟩ payload ↔
      ∀ e ∈ fields.entries, framesMessage e.1 = false → e.2.Readable := by
  have hown := ownLength_spec payload.length
  rw [← readable_sentFields fun e he => (hown e he).1]
  have hsent : identityHeaders fields.written payload.length =
      (sentFields fields (ownLength payload.length)).written :=
    identityHeaders_mapValues fields _ fun e h => text_ownHeader h
  have hback : identityHeaders fields.readBack payload.length =
      (sentFields fields (ownLength payload.length)).readBack :=
    identityHeaders_mapValues fields _ fun e h => stored_ownHeader h
  have hwritten := hroom
  rw [hsent] at hwritten
  obtain ⟨hsafe, hvalue⟩ := fits_of_room
    (tokenName_sentFields (fun e he => (hown e he).2) hnames) hwritten.name hwritten.value
  have hamount : (sentFields fields (ownLength payload.length)).entries.length ≤
      lim.maxHeadersAmount := by
    rw [← List.length_map (Prod.map id FoldedValue.text)]
    exact hwritten.amount
  rw [contents_composeEnvelope]
  by_cases hread : ∀ e ∈ (sentFields fields (ownLength payload.length)).entries, e.2.Readable
  · refine iff_of_true ?_ hread
    obtain ⟨lines, hlines, hentries, hlines_length⟩ := exists_writtenLines hsafe hvalue hread
    rw [← hsent] at hlines
    rw [← hback] at hentries
    obtain ⟨m, htext, hshown, hdata⟩ := exists_identityMessage_of_lines hc hlength hroom hlines
      hentries (by rw [hlines_length]; exact hamount)
    have hacc := MessageParser.accepted_text m
    rwa [htext, hshown, hdata] at hacc
  · have htab : ∃ e ∈ (sentFields fields (ownLength payload.length)).entries, ¬ e.2.Readable := by
      simpa using hread
    refine iff_of_false (MessageParser.not_accepted_of_refusal .invalidHeaderValue ?_) hread
    rw [hsent, head, List.append_assoc, List.append_assoc, refusal_firstLine hc hroom]
    exact refusal_of_tab false hsafe hvalue (by simpa using hamount) htab _

/-- The head and the chunks of a chunked message are read up to its trailers. -/
theorem reads_chunked_head {lines : List (HeaderLine lim)} {kept : Headers}
    {pieces : List Bytes} (m : Shown) (hm : m.headers = ∅)
    (hlines : lines.map HeaderLine.entry = (chunkedHeaders kept).entries)
    (hpieces : ∀ s ∈ pieces, s ≠ [] ∧ s.length < 2 ^ 32)
    (hamount : lines.length ≤ lim.maxHeadersAmount) :
    (Phase.recogniser lim).Reads (.header false m)
      (lines.flatMap HeaderLine.text ++ [CR] ++ (LF ::
        (pieces.flatMap (fun s => chunkText s ++ [CR, LF]) ++ str "0\r\n"))) pieces.flatten
      (.header true (m.addHeaders lines)) := by
  obtain ⟨chunks, hdata, htext⟩ := exists_chunks hpieces
  have hstored : (m.addHeaders lines).headers = chunkedHeaders kept := by
    rw [Shown.addHeaders, hlines, hm, Multimap.insertAll_entries]
  have hframing : framing (m.addHeaders lines).headers = .ok .chunked := by
    rw [framing, hstored, Headers.haveValue, equalRange_chunkedHeaders]
    rfl
  have hbody : (Phase.recogniser lim).Silent (.endOfHeader false (m.addHeaders lines)) LF
      (.chunkSize (m.addHeaders lines) []) :=
    Phase.silent_of_next (by simp [Phase.next, Phase.beginBody, hframing]) rfl rfl
  have hlast : (Phase.recogniser lim).Reads (.chunkSize (m.addHeaders lines) []) (str "0\r\n") []
      (.header true (m.addHeaders lines)) :=
    reads_last _ (show SizeLine.zero.size.toNat = 0 from rfl)
  have hchunks := (reads_chunks (m.addHeaders lines) chunks).append hlast
  rw [hdata, htext, List.append_nil] at hchunks
  exact (reads_headers false (by simpa [hm] using hamount)).append_silent
    (hbody.reads_cons hchunks)

/-- A chunked message, cut where the parser goes over to the trailers. -/
theorem chunkedText_eq (headers trailers : Headers) (pieces : List Bytes) :
    c.chunkedText headers pieces trailers =
      c.firstLine ++ ((chunkedHeaders headers).entries.flatMap headerLine ++ [CR] ++ (LF ::
        (pieces.flatMap (fun s => chunkText s ++ [CR, LF]) ++ str "0\r\n")) ++
          (trailers.entries.flatMap headerLine ++ [CR, LF])) := by
  simp [chunkedText, head, lastChunkText]

theorem accepted_folded_chunked (fields trailers : FoldedHeaders) (pieces : List Bytes)
    (hc : c.Valid)
    (hnames : ∀ e ∈ fields.entries, framesMessage e.1 = false → TokenName e.1)
    (htrailers : ∀ e ∈ trailers.entries, TokenName e.1)
    (hpieces : ∀ s ∈ pieces, s ≠ [] ∧ s.length < 2 ^ 32)
    (hroom : lim.RoomFor c ((chunkedHeaders fields.written).entries ++ trailers.written.entries)) :
    MessageParser.Accepted lim (c.chunkedText fields.written pieces trailers.written)
        ⟨c.firstToken, c.secondToken, c.thirdToken,
          (chunkedHeaders fields.readBack).insertAll trailers.readBack.entries⟩ pieces.flatten ↔
      (∀ e ∈ fields.entries, framesMessage e.1 = false → e.2.Readable) ∧
        ∀ e ∈ trailers.entries, e.2.Readable := by
  rw [← readable_sentFields fun e he => (ownCoding_spec e he).1]
  have hsent : chunkedHeaders fields.written = (sentFields fields ownCoding).written :=
    chunkedHeaders_mapValues fields fun e h => text_ownHeader h
  have hback : chunkedHeaders fields.readBack = (sentFields fields ownCoding).readBack :=
    chunkedHeaders_mapValues fields fun e h => stored_ownHeader h
  have hwritten := hroom
  rw [hsent] at hwritten
  obtain ⟨hname, hname'⟩ := List.forall_mem_append.mp hwritten.name
  obtain ⟨hvalue, hvalue'⟩ := List.forall_mem_append.mp hwritten.value
  obtain ⟨hsafe, hvalue⟩ := fits_of_room
    (tokenName_sentFields (fun e he => (ownCoding_spec e he).2) hnames) hname hvalue
  obtain ⟨hsafe', hvalue'⟩ := fits_of_room htrailers hname' hvalue'
  have hamount : (sentFields fields ownCoding).entries.length + trailers.entries.length ≤
      lim.maxHeadersAmount := by
    have hlength := hwritten.amount
    rwa [List.length_append, FoldedHeaders.written, FoldedHeaders.written,
      Multimap.entries_mapValues, Multimap.entries_mapValues, List.length_map,
      List.length_map] at hlength
  by_cases hread : ∀ e ∈ (sentFields fields ownCoding).entries, e.2.Readable
  · obtain ⟨lines, hlines, hentries, hlength⟩ := exists_writtenLines hsafe hvalue hread
    rw [← hsent] at hlines
    rw [← hback] at hentries
    rw [and_iff_right hread]
    by_cases hread' : ∀ e ∈ trailers.entries, e.2.Readable
    · refine iff_of_true ?_ hread'
      obtain ⟨ends, hends, hends', hlength'⟩ := exists_writtenLines hsafe' hvalue' hread'
      obtain ⟨m, hm, hshown, hdata⟩ := exists_chunkedMessage_of_lines hc hpieces hroom hlines
        hentries hends hends' (by omega)
      have hacc := MessageParser.accepted_text m
      rwa [hm, hshown, hdata] at hacc
    · -- the head is read, and the trailers are refused
      have htab : ∃ e ∈ trailers.entries, ¬ e.2.Readable := by simpa using hread'
      refine iff_of_false (MessageParser.not_accepted_of_refusal .invalidHeaderValue ?_) hread'
      have hhead := reads_chunked_head ⟨c.firstToken, c.secondToken, c.thirdToken, ∅⟩ rfl hentries
        hpieces (by omega)
      rw [chunkedText_eq, ← hlines, refusal_firstLine hc hroom, hhead.refusal_append]
      exact refusal_of_tab true hsafe' hvalue' (by simp [Shown.addHeaders, hlength, hamount]) htab _
  · have htab : ∃ e ∈ (sentFields fields ownCoding).entries, ¬ e.2.Readable := by
      simpa using hread
    refine iff_of_false (MessageParser.not_accepted_of_refusal .invalidHeaderValue ?_)
      fun h => hread h.1
    rw [chunkedText_eq, refusal_firstLine hc hroom, hsent, List.append_assoc,
      List.append_assoc]
    exact refusal_of_tab false hsafe hvalue (by simp; omega) htab _

/-- **Which values over several lines come back.** Let headers be given, to go before a
payload or before chunks, and trailers, with values of pieces of text with any linear
white space between them, and let the limits have room for what is composed. The message
is accepted, and every value read with spaces for the white space, if and only if each
tab in a value stands right after a line break. This is so for an envelope with its
payload, and for a chunked message with its trailers. -/
theorem accepted_folded_iff (lim : Limits) (c : MessageComposer) (fields trailers : FoldedHeaders)
    (payload : Bytes) (pieces : List Bytes) (hc : c.Valid)
    (hnames : ∀ e ∈ fields.entries, framesMessage e.1 = false → TokenName e.1)
    (htrailers : ∀ e ∈ trailers.entries, TokenName e.1) (hlength : payload.length < 2 ^ 32)
    (hne : pieces ≠ []) (hpieces : ∀ s ∈ pieces, s ≠ [] ∧ s.length < 2 ^ 32)
    (hroom : lim.RoomFor c (identityHeaders fields.written payload.length).entries)
    (hroom' : lim.RoomFor c
      ((chunkedHeaders fields.written).entries ++ trailers.written.entries)) :
    (MessageParser.Accepted lim
        ((c.composeEnvelope .fresh fields.written payload.length).contents ++ payload)
        ⟨c.firstToken, c.secondToken, c.thirdToken,
          identityHeaders fields.readBack payload.length⟩ payload ↔
      ∀ e ∈ fields.entries, framesMessage e.1 = false → e.2.Readable) ∧
    ∃ text, c.sendChunked fields.written pieces trailers.written = .ok text ∧
      (MessageParser.Accepted lim text
          ⟨c.firstToken, c.secondToken, c.thirdToken,
            (chunkedHeaders fields.readBack).insertAll trailers.readBack.entries⟩
          pieces.flatten ↔
        (∀ e ∈ fields.entries, framesMessage e.1 = false → e.2.Readable) ∧
          ∀ e ∈ trailers.entries, e.2.Readable) :=
  ⟨accepted_folded_identity fields payload hc hnames hlength hroom, _,
    c.sendChunked_eq fields.written hne (fun s hs => (hpieces s hs).1) trailers.written,
    accepted_folded_chunked fields trailers pieces hc hnames htrailers hpieces hroom'⟩

theorem no_more_space : ∀ ch ∈ ([] : Bytes), isSpaceOrTab ch = true := List.forall_mem_nil _

def tabbed (lineBreak : Bool) : FoldedValue :=
  ⟨str "a", [(⟨lineBreak, HT, [], rfl, no_more_space⟩, str "b")], by decide,
    List.forall_mem_singleton.mpr (show ∀ ch ∈ str "b", isControl ch = false by decide)⟩

/-- A tab at the beginning of a line, in a header and in a trailer. -/
theorem accepted_folded_tab :
    MessageParser.Accepted ⟨3, 1, 8, 17, 8, 3⟩
      ((composeEnvelope ⟨str "GET", str "/", str "HTTP/1.1"⟩ .fresh
        (FoldedHeaders.written ((∅ : FoldedHeaders).insert (str "X", tabbed true))) 2).contents ++
          str "hi")
      ⟨str "GET", str "/", str "HTTP/1.1", identityHeaders
        (FoldedHeaders.readBack ((∅ : FoldedHeaders).insert (str "X", tabbed true))) 2⟩
      (str "hi") :=
  (accepted_folded_iff ⟨3, 1, 8, 17, 8, 3⟩ ⟨str "GET", str "/", str "HTTP/1.1"⟩
    ((∅ : FoldedHeaders).insert (str "X", tabbed true))
    ((∅ : FoldedHeaders).insert (str "Y", tabbed true)) (str "hi") [str "hi"]
    ⟨by decide, by decide, by decide, by decide, by decide, by decide, by decide⟩ (by decide)
    (by decide) (by decide) (by decide) (by decide)
    ⟨by decide, by decide, by decide, by decide, by decide, by decide⟩
    ⟨by decide, by decide, by decide, by decide, by decide, by decide⟩).1.mpr (by decide)

/-- A tab within a line is refused, in a header and in a trailer. -/
theorem tab_refused :
    let fields := FoldedHeaders.written ((∅ : FoldedHeaders).insert (str "X", tabbed false))
    let parser := MessageParser.create ⟨3, 1, 8, 17, 8, 3⟩
    let c : MessageComposer := ⟨str "GET", str "/", str "HTTP/1.1"⟩
    parser.refusal (c.composeEnvelope .fresh fields 0).contents = some .invalidHeaderValue ∧
      ∃ text, c.sendChunked ∅ [str "hi"] fields = .ok text ∧
        parser.refusal text = some .invalidHeaderValue :=
  ⟨by decide +kernel, _, rfl, by decide +kernel⟩

end MessageComposer

end Httpxx
