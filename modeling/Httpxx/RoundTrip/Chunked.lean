import Httpxx.RoundTrip.Written

/-!
Parsing undoes chunked composition. A chunk is composed in two calls: the line break
that ends it is written by the composer of the next one, or of the last one. A message
sent piece by piece is therefore right only as a whole, and the lemma that moves the
line breaks (`flatMap_lineBreak`) is where the calls and the chunks of the grammar meet.
-/

namespace Httpxx

open Library

variable {lim : Limits}

namespace MessageComposer

/-! ### The usage scenario -/

/-- Each piece goes out after its envelope, which is composed in a stream of its own. -/
def sendPieces (c : MessageComposer) (headers : Headers) (isFirstChunk : Bool) :
    List Bytes → Except ComposeError Bytes
  | [] => .ok []
  | s :: rest => do
      let envelope ←
        if isFirstChunk then c.composeFirstChunkEnvelope .fresh headers s.length
        else composeNextChunkEnvelope .fresh s.length
      let sent ← c.sendPieces headers false rest
      return envelope.contents ++ s ++ sent

def sendChunked (c : MessageComposer) (headers : Headers) (pieces : List Bytes)
    (trailers : Headers) : Except ComposeError Bytes := do
  let sent ← c.sendPieces headers true pieces
  return sent ++ (composeLastChunk .fresh trailers).contents

/-- The same on one stream, which the pieces are written to as they are. -/
def writePieces (c : MessageComposer) (headers : Headers) (isFirstChunk : Bool)
    (target : OStream) : List Bytes → Except ComposeError OStream
  | [] => .ok target
  | s :: rest => do
      let target ←
        if isFirstChunk then c.composeFirstChunkEnvelope target headers s.length
        else composeNextChunkEnvelope target s.length
      c.writePieces headers false (target.append s) rest

def writeChunked (c : MessageComposer) (target : OStream) (headers : Headers)
    (pieces : List Bytes) (trailers : Headers) : Except ComposeError OStream := do
  let target ← c.writePieces headers true target pieces
  return composeLastChunk target trailers

def chunkText (s : Bytes) : Bytes := chunkSizeLine s.length ++ s

/-- The last chunk and the trailers, without the line break before them. -/
def lastChunkText (trailers : Headers) : Bytes :=
  str "0\r\n" ++ trailers.entries.flatMap headerLine ++ [CR, LF]

/-- Line breaks before every part and at the end are line breaks after every part and at
the start. -/
theorem flatMap_lineBreak {α : Type} (f : α → Bytes) (parts : List α) :
    (parts.flatMap fun s => [CR, LF] ++ f s) ++ [CR, LF] =
      [CR, LF] ++ parts.flatMap fun s => f s ++ [CR, LF] := by
  induction parts with
  | nil => rfl
  | cons s parts ih =>
      rw [List.flatMap_cons, List.append_assoc, ih]
      simp

def nextChunksText (pieces : List Bytes) : Bytes :=
  pieces.flatMap fun s => [CR, LF] ++ chunkText s

/-- A chunked message: the head, the chunks, each with its line break, and the end. -/
def chunkedText (c : MessageComposer) (headers : Headers) (pieces : List Bytes)
    (trailers : Headers) : Bytes :=
  c.head (chunkedHeaders headers) ++ pieces.flatMap (fun s => chunkText s ++ [CR, LF]) ++
    lastChunkText trailers

theorem chunkedText_cons (c : MessageComposer) (headers : Headers) (s : Bytes)
    (rest : List Bytes) (trailers : Headers) :
    c.head (chunkedHeaders headers) ++ chunkText s ++ nextChunksText rest ++
        ([CR, LF] ++ lastChunkText trailers) =
      c.chunkedText headers (s :: rest) trailers := by
  rw [chunkedText, List.flatMap_cons, List.append_assoc _ (nextChunksText rest),
    ← List.append_assoc (nextChunksText rest), nextChunksText, flatMap_lineBreak]
  simp only [List.append_assoc]

/-! ### Every call on a stream of its own -/

theorem sendPieces_next (c : MessageComposer) (headers : Headers) {pieces : List Bytes}
    (h : ∀ s ∈ pieces, s ≠ []) :
    c.sendPieces headers false pieces = .ok (nextChunksText pieces) := by
  induction pieces with
  | nil => rfl
  | cons s rest ih =>
      obtain ⟨hs, hrest⟩ := List.forall_mem_cons.mp h
      have hcall := composeNextChunkEnvelope_eq OStream.plain_fresh (List.length_pos_iff.mpr hs)
      rw [sendPieces, if_neg Bool.false_ne_true, hcall, ih hrest]
      show Except.ok (([CR, LF] ++ chunkSizeLine s.length) ++ s ++ nextChunksText rest) = _
      rw [nextChunksText, nextChunksText, List.flatMap_cons, chunkText, List.append_assoc [CR, LF]]

theorem sendChunked_eq (c : MessageComposer) (headers : Headers) {pieces : List Bytes}
    (hne : pieces ≠ []) (h : ∀ s ∈ pieces, s ≠ []) (trailers : Headers) :
    c.sendChunked headers pieces trailers = .ok (c.chunkedText headers pieces trailers) := by
  obtain ⟨s, rest, rfl⟩ := List.exists_cons_of_ne_nil hne
  obtain ⟨hs, hrest⟩ := List.forall_mem_cons.mp h
  have hcall := c.composeFirstChunkEnvelope_eq OStream.plain_fresh headers
    (List.length_pos_iff.mpr hs)
  rw [sendChunked, sendPieces, if_pos rfl, hcall, c.sendPieces_next headers hrest,
    composeLastChunk_eq rfl, ← chunkedText_cons]
  show Except.ok ((c.head _ ++ chunkSizeLine s.length) ++ s ++ nextChunksText rest ++
    (str "\r\n0\r\n" ++ _ ++ _)) = _
  rw [chunkText, lastChunkText, List.append_assoc (c.head _)]
  simp [str]

/-! ### All calls on one stream -/

theorem writePieces_next (c : MessageComposer) (headers : Headers) {pieces : List Bytes}
    (h : ∀ s ∈ pieces, s ≠ []) (target : OStream) (hplain : target.Plain) :
    ∃ os : OStream, c.writePieces headers false target pieces = .ok os ∧ os.Plain ∧
      os.contents = target.contents ++ nextChunksText pieces := by
  induction pieces generalizing target with
  | nil => exact ⟨target, rfl, hplain, (List.append_nil _).symm⟩
  | cons s rest ih =>
      obtain ⟨hs, hrest⟩ := List.forall_mem_cons.mp h
      have hcall := composeNextChunkEnvelope_eq hplain (List.length_pos_iff.mpr hs)
      obtain ⟨os, hwrite, hos, hcontents⟩ := ih hrest
        ((target.setHex.append ([CR, LF] ++ chunkSizeLine s.length)).append s)
        ((hplain.setHex.append _).append _)
      refine ⟨os, ?_, hos, ?_⟩
      · rw [writePieces, if_neg Bool.false_ne_true, hcall]
        exact hwrite
      · rw [hcontents, nextChunksText, nextChunksText, List.flatMap_cons]
        simp [OStream.contents, chunkText]

theorem writeChunked_eq (c : MessageComposer) (headers : Headers) {pieces : List Bytes}
    (hne : pieces ≠ []) (h : ∀ s ∈ pieces, s ≠ []) (trailers : Headers) {target : OStream}
    (hplain : target.Plain) :
    ∃ os : OStream, c.writeChunked target headers pieces trailers = .ok os ∧
      os.contents = target.contents ++ c.chunkedText headers pieces trailers := by
  obtain ⟨s, rest, rfl⟩ := List.exists_cons_of_ne_nil hne
  obtain ⟨hs, hrest⟩ := List.forall_mem_cons.mp h
  have hcall := c.composeFirstChunkEnvelope_eq hplain headers (List.length_pos_iff.mpr hs)
  obtain ⟨os, hwrite, hos, hcontents⟩ := c.writePieces_next headers hrest
    ((target.setHex.append (c.head (chunkedHeaders headers) ++ chunkSizeLine s.length)).append s)
    ((hplain.setHex.append _).append _)
  refine ⟨composeLastChunk os trailers, ?_, ?_⟩
  · rw [writeChunked, writePieces, if_pos rfl, hcall]
    show (c.writePieces headers false _ rest >>= fun os => .ok (composeLastChunk os trailers)) = _
    rw [hwrite]
    rfl
  · rw [composeLastChunk_eq hos.width, ← chunkedText_cons]
    show os.contents ++ _ = _
    rw [hcontents]
    simp [OStream.contents, chunkText, lastChunkText, str]

end MessageComposer

/-! ### The message that is sent -/

namespace Grammar

open MessageComposer

def Chunk.written {s : Bytes} (hne : s ≠ []) (hlength : s.length < 2 ^ 32) : Chunk where
  digits := OStream.hexadecimal s.length
  extension := []
  size := s.length.toUInt32
  digits_ne := (spells_hexadecimal _).ne_nil
  digits_hex := (spells_hexadecimal _).chars
  reads := toUnsignedInt_hexadecimal hlength
  extension_head := by simp
  extension_line := by simp
  data := s
  data_ne := hne
  data_length := (UInt32.toNat_ofNat_of_lt' hlength).symm

theorem Chunk.text_written {s : Bytes} (hne : s ≠ []) (hlength : s.length < 2 ^ 32) :
    (Chunk.written hne hlength).text = chunkText s ++ [CR, LF] := by
  simp [Chunk.text, SizeLine.text, Chunk.written, chunkText, chunkSizeLine]

def SizeLine.zero : SizeLine where
  digits := str "0"
  extension := []
  size := 0
  digits_ne := by decide
  digits_hex := by decide
  reads := by decide
  extension_head := by simp
  extension_line := by simp

theorem exists_chunks {pieces : List Bytes}
    (h : ∀ s ∈ pieces, s ≠ [] ∧ s.length < 2 ^ 32) :
    ∃ chunks : List Chunk, chunks.flatMap Chunk.data = pieces.flatten ∧
      chunks.flatMap Chunk.text = pieces.flatMap fun s => chunkText s ++ [CR, LF] := by
  induction pieces with
  | nil => exact ⟨[], rfl, rfl⟩
  | cons s rest ih =>
      obtain ⟨⟨hne, hlength⟩, hrest⟩ := List.forall_mem_cons.mp h
      obtain ⟨chunks, hdata, htext⟩ := ih hrest
      refine ⟨.written hne hlength :: chunks, ?_, ?_⟩
      · rw [List.flatMap_cons, hdata]
        rfl
      · rw [List.flatMap_cons, Chunk.text_written, htext, List.flatMap_cons]

theorem writable_chunkedHeaders {headers : Headers}
    (h : ∀ e ∈ (unframed headers).entries, Writable e) :
    ∀ e ∈ (chunkedHeaders headers).entries, Writable e := by
  intro e he
  rcases Multimap.mem_insert.mp he with rfl | he
  · decide
  · exact h e he

/-- Lines written for a head, chunks, and lines written for the trailers are a message.
The lines may be stored as other headers than were given. -/
theorem exists_chunkedMessage_of_lines {c : MessageComposer}
    {headers kept trailers keptTrailers : Headers} {pieces : List Bytes}
    {lines ends : List (HeaderLine lim)} (hc : c.Valid)
    (hpieces : ∀ s ∈ pieces, s ≠ [] ∧ s.length < 2 ^ 32)
    (hroom : lim.RoomFor c ((chunkedHeaders headers).entries ++ trailers.entries))
    (hlines : lines.flatMap HeaderLine.text =
      (chunkedHeaders headers).entries.flatMap headerLine)
    (hkept : lines.map HeaderLine.entry = (chunkedHeaders kept).entries)
    (hends : ends.flatMap HeaderLine.text = trailers.entries.flatMap headerLine)
    (hkeptEnds : ends.map HeaderLine.entry = keptTrailers.entries)
    (hamount : lines.length + ends.length ≤ lim.maxHeadersAmount) :
    ∃ m : Message lim, m.text = c.chunkedText headers pieces trailers ∧
      m.shown = ⟨c.firstToken, c.secondToken, c.thirdToken,
        (chunkedHeaders kept).insertAll keptTrailers.entries⟩ ∧
      m.body.data = pieces.flatten := by
  obtain ⟨chunks, hdata, htext⟩ := exists_chunks hpieces
  have hchunked : AsksChunked lines := by
    rw [← haveValue_stored_iff, stored_of_entries hkept, Headers.haveValue,
      equalRange_chunkedHeaders]
    rfl
  -- the trailers may say anything: the framing was decided before them
  let body : Body lim lines := .chunked hchunked chunks .zero rfl ends
  obtain ⟨m, hm, hshown, hbody⟩ := exists_message hc hroom hkept hlines body hamount
  refine ⟨m, ?_, ?_, hbody.trans hdata⟩
  · rw [hm]
    show c.head _ ++ (chunks.flatMap Chunk.text ++ SizeLine.zero.text ++
      ends.flatMap HeaderLine.text ++ [CR, LF]) = _
    rw [htext, hends, chunkedText, lastChunkText]
    simp [SizeLine.text, SizeLine.zero, str]
  · rw [hshown, show body.trailers = ends from rfl, hkeptEnds]

theorem exists_chunkedMessage {c : MessageComposer} {headers trailers : Headers}
    {pieces : List Bytes} (hc : c.Valid)
    (hheaders : ∀ e ∈ (unframed headers).entries, Writable e)
    (htrailers : ∀ e ∈ trailers.entries, Writable e)
    (hpieces : ∀ s ∈ pieces, s ≠ [] ∧ s.length < 2 ^ 32)
    (hroom : lim.RoomFor c ((chunkedHeaders headers).entries ++ trailers.entries)) :
    ∃ m : Message lim, m.text = c.chunkedText headers pieces trailers ∧
      m.shown = ⟨c.firstToken, c.secondToken, c.thirdToken,
        (chunkedHeaders headers).insertAll trailers.entries⟩ ∧
      m.body.data = pieces.flatten := by
  obtain ⟨hname, hname'⟩ := List.forall_mem_append.mp hroom.name
  obtain ⟨hvalue, hvalue'⟩ := List.forall_mem_append.mp hroom.value
  obtain ⟨lines, hentries, hlines⟩ :=
    exists_headerLines (writable_chunkedHeaders hheaders) hname hvalue
  obtain ⟨ends, hends, hendsText⟩ := exists_headerLines htrailers hname' hvalue'
  have hamount : lines.length + ends.length ≤ lim.maxHeadersAmount := by
    rw [length_of_entries hentries, length_of_entries hends, ← List.length_append]
    exact hroom.amount
  exact exists_chunkedMessage_of_lines hc hpieces hroom hlines hentries hendsText hends hamount

end Grammar

namespace MessageComposer

/-- **Parsing undoes chunked composition**, however the body is cut. A head, non-empty
pieces and a last chunk with trailers, composed in streams of their own or on one stream
of the default formatting, are accepted by every new parser with room for them, which
then shows the three tokens and, of each name, the values of the head and after them
those of the trailers, and has flagged the pieces joined together. -/
theorem accepted_chunked (lim : Limits) (c : MessageComposer) (headers trailers : Headers)
    (pieces : List Bytes) (hc : c.Valid)
    (hheaders : ∀ e ∈ headers.entries, framesMessage e.1 = false → Writable e)
    (htrailers : ∀ e ∈ trailers.entries, Writable e) (hne : pieces ≠ [])
    (hpieces : ∀ s ∈ pieces, s ≠ [] ∧ s.length < 2 ^ 32)
    (hroom : lim.RoomFor c ((chunkedHeaders headers).entries ++ trailers.entries)) :
    ∃ text, c.sendChunked headers pieces trailers = .ok text ∧
      (∀ target : OStream, target.Plain → ∃ os : OStream,
        c.writeChunked target headers pieces trailers = .ok os ∧
          os.contents = target.contents ++ text) ∧
      MessageParser.Accepted lim text ⟨c.firstToken, c.secondToken, c.thirdToken,
        (chunkedHeaders headers).insertAll trailers.entries⟩ pieces.flatten ∧
      ∀ name, ((chunkedHeaders headers).insertAll trailers.entries).equalRange name =
        (if sameName TransferEncodingHeader name then [(TransferEncodingHeader, str "chunked")]
          else if framesMessage name then [] else headers.equalRange name) ++
        trailers.equalRange name := by
  have hnonempty : ∀ s ∈ pieces, s ≠ [] := fun s hs => (hpieces s hs).1
  obtain ⟨m, htext, hshown, hdata⟩ :=
    Grammar.exists_chunkedMessage hc (unframed_writable hheaders) htrailers hpieces hroom
  have hacc := MessageParser.accepted_text m
  rw [htext, hshown, hdata] at hacc
  refine ⟨_, c.sendChunked_eq headers hne hnonempty trailers, ?_, hacc, ?_⟩
  · intro target hplain
    exact c.writeChunked_eq headers hne hnonempty trailers hplain
  · intro name
    rw [Multimap.equalRange_insertAll, equalRange_chunkedHeaders,
      Multimap.equalRange_eq_filter trailers]

theorem accepted_chunked_pieces :
    ∃ text, sendChunked ⟨str "GET", str "/", str "HTTP/1.1"⟩ ((∅ : Headers).insert
        (str "transfer-encoding", str "gzip")) [str "hello, ", str "world"]
        ((∅ : Headers).insert (str "X", str "bye")) = .ok text ∧
      MessageParser.Accepted ⟨3, 1, 8, 17, 8, 2⟩ text ⟨str "GET", str "/", str "HTTP/1.1",
        (∅ : Headers).insertAll [(str "Transfer-Encoding", str "chunked"), (str "X", str "bye")]⟩
        (str "hello, world") := by
  obtain ⟨text, hsent, -, hacc, -⟩ := accepted_chunked ⟨3, 1, 8, 17, 8, 2⟩
    ⟨str "GET", str "/", str "HTTP/1.1"⟩
    ((∅ : Headers).insert (str "transfer-encoding", str "gzip"))
    ((∅ : Headers).insert (str "X", str "bye")) [str "hello, ", str "world"]
    ⟨by decide, by decide, by decide, by decide, by decide, by decide, by decide⟩ (by decide)
    (by decide) (by decide) (by decide)
    ⟨by decide, by decide, by decide, by decide, by decide, by decide⟩
  exact ⟨text, hsent, hacc⟩

end MessageComposer

end Httpxx
