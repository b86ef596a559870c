import Httpxx.Grammar.Acceptance
import Httpxx.Grammar.Reading

/-!
What the order of header lines and the spelling of their names do not change. A
message is rearranged by putting its header lines in another order, in which lines of
one name keep theirs, and by writing header and trailer names in another letter case.
Everything that is read off the headers goes through the lists of values under a name
(`Headers.values`), and these are the same before and after (`values_rearranged`); so
the framing is, and with it everything that follows.
-/

namespace Httpxx

open Library

variable {lim : Limits}

namespace Grammar

/-! ### Rearranged messages -/

/-- A header line with its name in another letter case. -/
structure Respelled (lim : Limits) where
  line : HeaderLine lim
  name : Bytes
  same : EqIgnoringCase name line.name

namespace Respelled

def text (r : Respelled lim) : Bytes :=
  r.name ++ colon :: r.line.value.flatMap ValueItem.text ++ [CR, LF]

def toLine (r : Respelled lim) : HeaderLine lim where
  name := r.name
  value := r.line.value
  name_safe :=
    { chars := r.same.isToken r.line.name_safe.chars
      length := r.same.length_eq ▸ r.line.name_safe.length
      ne_nil := by
        have hlength := r.same.length_eq
        have hpos := List.length_pos_iff.mpr r.line.name_safe.ne_nil
        exact List.length_pos_iff.mp (by omega) }
  value_length := r.line.value_length

end Respelled

/-- A body with something else for the lines of its trailer section. -/
def Body.textWith {headers : List (HeaderLine lim)} (trailers : Bytes) : Body lim headers → Bytes
  | .empty _ _ => []
  | .identity _ _ data _ _ _ _ => data
  | .chunked _ chunks last _ _ => chunks.flatMap Chunk.text ++ last.text ++ trailers ++ [CR, LF]

theorem Body.text_eq {headers : List (HeaderLine lim)} (b : Body lim headers) :
    b.text = b.textWith (b.trailers.flatMap HeaderLine.text) := by
  cases b <;> rfl

def Message.head (msg : Message lim) : Bytes :=
  msg.firstLine.text ++ msg.headers.flatMap HeaderLine.text ++ [CR, LF]

/-- The lines of a message put in another order, in which lines whose names are equal
ignoring case keep theirs, and with names in another letter case. -/
structure Message.Rearranged (msg : Message lim) where
  headers : List (Respelled lim)
  trailers : List (Respelled lim)
  perm : (headers.map Respelled.line).Perm msg.headers
  stable : ∀ q : Bytes, (headers.map Respelled.line).filter (fun h => EqIgnoringCase h.name q) =
    msg.headers.filter fun h => EqIgnoringCase h.name q
  trailers_eq : trailers.map Respelled.line = msg.body.trailers

namespace Message.Rearranged

variable {msg : Message lim}

def head (r : msg.Rearranged) : Bytes :=
  msg.firstLine.text ++ r.headers.flatMap Respelled.text ++ [CR, LF]

def text (r : msg.Rearranged) : Bytes :=
  r.head ++ msg.body.textWith (r.trailers.flatMap Respelled.text)

def headerLines (r : msg.Rearranged) : List (HeaderLine lim) := r.headers.map Respelled.toLine

def trailerLines (r : msg.Rearranged) : List (HeaderLine lim) := r.trailers.map Respelled.toLine

end Message.Rearranged

/-! ### The values under a name -/

theorem values_stored (lines : List (HeaderLine lim)) (q : Bytes) :
    (stored lines).values q =
      (lines.filter fun h => sameName h.name q).map fun h => trim h.unfolded := by
  rw [Headers.values, equalRange_stored, List.map_map]
  rfl

/-- On lines, the comparator picks out a name of token characters ignoring case. -/
theorem filter_sameName (lines : List (HeaderLine lim)) {q : Bytes}
    (hq : ∀ ch ∈ q, isToken ch = true) :
    (lines.filter fun h => sameName h.name q) =
      lines.filter fun h => EqIgnoringCase h.name q := by
  refine List.filter_congr fun h _ => ?_
  rw [Bool.eq_iff_iff, decide_eq_true_eq]
  exact sameName_iff_eqIgnoringCase h.name_safe.chars hq

theorem filter_moved (h : HeaderLine lim) {hs : List (HeaderLine lim)}
    (hother : ∀ h' ∈ hs, ¬ EqIgnoringCase h'.name h.name) (q : Bytes) :
    ((h :: hs).filter fun h => EqIgnoringCase h.name q) =
      (hs ++ [h]).filter fun h => EqIgnoringCase h.name q := by
  rw [List.filter_append]
  by_cases hq : EqIgnoringCase h.name q
  · have hnone : hs.filter (fun h => EqIgnoringCase h.name q) = [] := by
      refine List.filter_eq_nil_iff.mpr fun h' hmem => ?_
      rw [decide_eq_true_eq]
      exact fun hq' => hother h' hmem (hq'.trans hq.symm)
    simp [hnone, hq]
  · simp [hq]

theorem values_respelled (rs : List (Respelled lim)) {q : Bytes}
    (hq : ∀ ch ∈ q, isToken ch = true) :
    (stored (rs.map Respelled.toLine)).values q =
      ((rs.map Respelled.line).filter fun h => EqIgnoringCase h.name q).map
        fun h => trim h.unfolded := by
  have hspelling : ∀ r : Respelled lim,
      decide (EqIgnoringCase r.toLine.name q) = decide (EqIgnoringCase r.line.name q) := by
    intro r
    have hname : r.toLine.name.map tolower = r.line.name.map tolower := r.same
    rw [decide_eq_decide, EqIgnoringCase, EqIgnoringCase, hname]
  rw [values_stored, filter_sameName _ hq, List.filter_map, List.filter_map, List.map_map,
    List.map_map]
  simp only [Function.comp_def, hspelling]
  rfl

/-- **A rearranged header section has the same values under every name.** -/
theorem values_headerLines {msg : Message lim} (r : msg.Rearranged) {q : Bytes}
    (hq : ∀ ch ∈ q, isToken ch = true) :
    (stored r.headerLines).values q = (stored msg.headers).values q := by
  rw [Message.Rearranged.headerLines, values_respelled _ hq, r.stable q, values_stored,
    filter_sameName _ hq]

theorem values_append (hs ts : List (HeaderLine lim)) (q : Bytes) :
    (stored (hs ++ ts)).values q = (stored hs).values q ++ (stored ts).values q := by
  simp [values_stored]

theorem values_rearranged {msg : Message lim} (r : msg.Rearranged) {q : Bytes}
    (hq : ∀ ch ∈ q, isToken ch = true) :
    (stored (r.headerLines ++ r.trailerLines)).values q =
      (stored (msg.headers ++ msg.body.trailers)).values q := by
  rw [values_append, values_append, values_headerLines r hq]
  congr 1
  rw [Message.Rearranged.trailerLines, values_respelled _ hq, r.trailers_eq, values_stored,
    filter_sameName _ hq]

end Grammar

/-! ### The framing -/

theorem framing_congr {hs hs' : Headers}
    (hencoding : hs.values (str "Transfer-Encoding") = hs'.values (str "Transfer-Encoding"))
    (hlength : hs.values (str "Content-Length") = hs'.values (str "Content-Length")) :
    framing hs = framing hs' := by
  unfold framing
  rw [Headers.haveValue_eq, Headers.haveValue_eq, Headers.haveHeader_eq, Headers.haveHeader_eq,
    Headers.value_eq, Headers.value_eq, hencoding, hlength]

/-- How a parser that has read the head of a message reads on. -/
def MessageParser.decision (p : MessageParser) : Framing :=
  match p.state with
  | .parsingChunkSize => .chunked
  | .parsingIdentityBody => .identity p.contentLength
  | _ => .none

/-- A new parser reads the head of a message without an exception and takes a framing
decision at its end. -/
def MessageParser.FramedAs (lim : Limits) (head : Bytes) (d : Framing) : Prop :=
  ∃ rs, machine.run (create lim) head = .ok rs ∧
    (Transducer.lastState (create lim) rs).decision = d

def Phase.decision : Phase → Framing
  | chunkSize _ _ => .chunked
  | identityBody _ length _ => .identity length
  | _ => .none

theorem MessageParser.decision_view (p : MessageParser) : p.view.decision = p.decision := by
  unfold view decision
  split <;> simp_all [Phase.decision]

/-- The framing of the headers is the decision, but for a body of length zero, which is
none. -/
theorem Phase.exists_beginBody {m : Shown} {f : Framing} (h : framing m.headers = .ok f) :
    ∃ q, beginBody m = .ok q ∧ q.decision = if f = .identity 0 then .none else f := by
  cases f with
  | none => exact ⟨.message m, by simp [beginBody, h], rfl⟩
  | chunked => exact ⟨.chunkSize m [], by simp [beginBody, h], rfl⟩
  | identity n =>
      by_cases hn : n = 0
      · exact ⟨.message m, by simp [beginBody, h, hn], by simp [hn, decision]⟩
      · exact ⟨.identityBody m n 0, by simp [beginBody, h, hn], by simp [hn, decision]⟩

namespace Grammar

theorem framedAs_head (l : FirstLine lim) {hs : List (HeaderLine lim)}
    (hamount : hs.length ≤ lim.maxHeadersAmount) {f : Framing}
    (hframing : framing (stored hs) = .ok f) :
    MessageParser.FramedAs lim (l.text ++ hs.flatMap HeaderLine.text ++ [CR, LF])
      (if f = .identity 0 then .none else f) := by
  have hnew : (MessageParser.create lim).Clean ∧ (MessageParser.create lim).limits = lim :=
    ⟨MessageParser.clean_create lim, rfl⟩
  have hsim := MessageParser.machine_simulates lim
  obtain ⟨q, hbody, hdecision⟩ := Phase.exists_beginBody (m := l.shown.addHeaders hs) hframing
  obtain ⟨p, hreads, hp, hview⟩ := hsim.reads_of_view hnew
    (reads_head (Shown.mk [] [] [] ∅) l hamount)
  have hstep : (Phase.recogniser lim).step p.view LF = .ok (q, ⟨false, q.isCompleted⟩) := by
    rw [hview]
    exact Phase.step_ok_iff.mpr ⟨by simp [Phase.next, hbody], rfl⟩
  obtain ⟨p', hparse, -, rfl⟩ := hsim.step_of_view hp hstep
  obtain ⟨rs, hrun⟩ := hreads.run_step hparse
  refine ⟨rs ++ [(p', ⟨false, p'.view.isCompleted⟩)], ?_, ?_⟩
  · simpa using hrun
  · rw [Transducer.lastState_append_singleton, ← hdecision, MessageParser.decision_view]

theorem Body.exists_framing {hs : List (HeaderLine lim)} (b : Body lim hs) :
    ∃ f, framing (stored hs) = .ok f := by
  cases b with
  | empty hchunked hlength => exact ⟨_, framing_of_no_length hchunked hlength⟩
  | identity value n data hchunked hlength hread =>
      exact ⟨.identity n.toNat, by
        rw [framing_of_length hchunked hlength, hread]
        rfl⟩
  | chunked hchunked => exact ⟨_, framing_of_chunked hchunked⟩

/-! ### The rearranged message -/

theorem asksChunked_congr {hs hs' : List (HeaderLine lim)}
    (h : (stored hs').values (str "Transfer-Encoding") =
      (stored hs).values (str "Transfer-Encoding")) : AsksChunked hs' ↔ AsksChunked hs := by
  rw [← haveValue_stored_iff, ← haveValue_stored_iff, Headers.haveValue_eq, Headers.haveValue_eq, h]

theorem contentLength?_congr {hs hs' : List (HeaderLine lim)}
    (h : (stored hs').values (str "Content-Length") = (stored hs).values (str "Content-Length")) :
    contentLength? hs' = contentLength? hs := by
  rw [contentLength?_eq, contentLength?_eq, Headers.haveHeader_eq, Headers.haveHeader_eq,
    Headers.value_eq, Headers.value_eq, h]

/-- A body after other lines that announce it as well, with other trailers. -/
def Body.transfer {hs hs' : List (HeaderLine lim)} (hchunked : AsksChunked hs' ↔ AsksChunked hs)
    (hlength : contentLength? hs' = contentLength? hs) (trailers : List (HeaderLine lim)) :
    Body lim hs → Body lim hs'
  | .empty hno hnone => .empty (mt hchunked.mp hno) (hlength.trans hnone)
  | .identity value n data hno hsome hread hdata =>
      .identity value n data (mt hchunked.mp hno) (hlength.trans hsome) hread hdata
  | .chunked hyes chunks last hlast _ => .chunked (hchunked.mpr hyes) chunks last hlast trailers

section Transfer

variable {hs hs' : List (HeaderLine lim)} (hchunked : AsksChunked hs' ↔ AsksChunked hs)
  (hlength : contentLength? hs' = contentLength? hs) (trailers : List (HeaderLine lim))
  (b : Body lim hs)

theorem Body.data_transfer : (b.transfer hchunked hlength trailers).data = b.data := by
  cases b <;> rfl

theorem Body.text_transfer : (b.transfer hchunked hlength trailers).text =
    b.textWith (trailers.flatMap HeaderLine.text) := by
  cases b <;> rfl

theorem Body.trailers_transfer (hnone : b.trailers = [] → trailers = []) :
    (b.transfer hchunked hlength trailers).trailers = trailers := by
  cases b with
  | empty => exact (hnone rfl).symm
  | identity => exact (hnone rfl).symm
  | chunked => rfl

end Transfer

namespace Message.Rearranged

variable {msg : Message lim} (r : msg.Rearranged)

theorem asksChunked_headerLines : AsksChunked r.headerLines ↔ AsksChunked msg.headers :=
  asksChunked_congr (values_headerLines r (by decide))

theorem contentLength?_headerLines : contentLength? r.headerLines = contentLength? msg.headers :=
  contentLength?_congr (values_headerLines r (by decide))

theorem length_headerLines : r.headerLines.length = msg.headers.length := by
  simpa [headerLines] using r.perm.length_eq

theorem length_trailerLines : r.trailerLines.length = msg.body.trailers.length := by
  simp [trailerLines, ← r.trailers_eq]

theorem trailerLines_eq_nil (h : msg.body.trailers = []) : r.trailerLines = [] := by
  rw [← List.length_eq_zero_iff, r.length_trailerLines, h, List.length_nil]

/-- What the rearranged text is a message of. -/
def toMessage : Message lim where
  firstLine := msg.firstLine
  headers := r.headerLines
  body := msg.body.transfer r.asksChunked_headerLines r.contentLength?_headerLines r.trailerLines
  headers_amount := by
    rw [Body.trailers_transfer _ _ _ _ r.trailerLines_eq_nil, r.length_headerLines,
      r.length_trailerLines]
    exact msg.headers_amount

theorem flatMap_text (rs : List (Respelled lim)) :
    (rs.map Respelled.toLine).flatMap HeaderLine.text = rs.flatMap Respelled.text := by
  rw [List.flatMap_map]
  rfl

theorem text_toMessage : r.toMessage.text = r.text := by
  have hbody : r.toMessage.body.text = msg.body.textWith (r.trailers.flatMap Respelled.text) := by
    rw [← flatMap_text]
    exact Body.text_transfer r.asksChunked_headerLines r.contentLength?_headerLines _ _
  have hheaders : r.toMessage.headers.flatMap HeaderLine.text = r.headers.flatMap Respelled.text :=
    flatMap_text r.headers
  rw [Message.text, hbody, hheaders]
  rfl

theorem data_toMessage : r.toMessage.body.data = msg.body.data :=
  Body.data_transfer r.asksChunked_headerLines r.contentLength?_headerLines _ _

theorem headers_shown_toMessage :
    r.toMessage.shown.headers = stored (r.headerLines ++ r.trailerLines) := by
  simp only [Message.shown, toMessage, Body.trailers_transfer _ _ _ _ r.trailerLines_eq_nil]
  rfl

end Message.Rearranged

end Grammar

namespace MessageParser

open Grammar

/-- What a string means is determined by it. -/
theorem Accepted.unique {s : Bytes} {m m' : Shown} {body body' : Bytes}
    (h : Accepted lim s m body) (h' : Accepted lim s m' body') : m = m' ∧ body = body' := by
  obtain ⟨rs, hrun, -, rfl, rfl⟩ := h
  obtain ⟨rs', hrun', -, rfl, rfl⟩ := h'
  obtain rfl : rs = rs' := by simpa [hrun] using hrun'
  exact ⟨rfl, rfl⟩

/-- **Header order and header-name spelling do not affect the outcome.** When a new
parser accepts a string, every rearrangement of the message that it is the text of is
accepted too, completes on its last byte, takes the same framing decision at the end
of its head, delivers the same tokens and the same body, and gives under every name
the same values in the same order. -/
theorem accepted_rearranged (lim : Limits) (s : Bytes) (m : Shown) (body : Bytes)
    (h : Accepted lim s m body) :
    (∃ msg : Message lim, msg.text = s) ∧
      ∀ (msg : Message lim) (r : msg.Rearranged), msg.text = s →
        ∃ m', Accepted lim r.text m' body ∧
          (∃ d, FramedAs lim msg.head d ∧ FramedAs lim r.head d) ∧
          m'.firstToken = m.firstToken ∧ m'.secondToken = m.secondToken ∧
          m'.thirdToken = m.thirdToken ∧
          ∀ q : Bytes, (∀ ch ∈ q, isToken ch = true) →
            m'.headers.values q = m.headers.values q ∧
            m'.headers.haveHeader q = m.headers.haveHeader q ∧
            (∀ v, m'.headers.haveValue q v = m.headers.haveValue q v) ∧
            m'.headers.value q = m.headers.value q := by
  refine ⟨(exists_message_of_accepted h).imp fun _ hmsg => hmsg.1, fun msg r hs => ?_⟩
  subst hs
  obtain ⟨rfl, rfl⟩ := h.unique (accepted_text msg)
  have haccepted := accepted_text r.toMessage
  rw [r.text_toMessage, r.data_toMessage] at haccepted
  refine ⟨r.toMessage.shown, haccepted, ?_, rfl, rfl, rfl, fun q hq => ?_⟩
  · obtain ⟨f, hframing⟩ := msg.body.exists_framing
    have hsame : framing (stored r.headerLines) = .ok f := by
      rw [← hframing]
      exact framing_congr (values_headerLines r (by decide)) (values_headerLines r (by decide))
    have hfew : msg.headers.length ≤ lim.maxHeadersAmount :=
      (Nat.le_add_right _ _).trans msg.headers_amount
    have hhead := framedAs_head msg.firstLine hfew hframing
    have hhead' := framedAs_head msg.firstLine (r.length_headerLines ▸ hfew) hsame
    rw [Message.Rearranged.headerLines, Message.Rearranged.flatMap_text] at hhead'
    exact ⟨_, hhead, hhead'⟩
  · have hvalues : r.toMessage.shown.headers.values q = msg.shown.headers.values q := by
      rw [r.headers_shown_toMessage]
      exact values_rearranged r hq
    refine ⟨hvalues, ?_, fun v => ?_, ?_⟩
    · rw [Headers.haveHeader_eq, hvalues, ← Headers.haveHeader_eq]
    · rw [Headers.haveValue_eq, hvalues, ← Headers.haveValue_eq]
    · rw [Headers.value_eq, hvalues, ← Headers.value_eq]

/-- The length announced first, under a name in lower case, and the spellings of two
other names exchanged. -/
theorem accepted_rearranged_moved :
    ∃ (msg : Message ⟨1, 1, 1, 14, 2, 3⟩) (r : msg.Rearranged) (m' : Shown),
      msg.text = str "a b c\r\nX: 1\r\nx: 2\r\nContent-Length: 1\r\n\r\nz" ∧
      r.text = str "a b c\r\ncontent-length: 1\r\nx: 1\r\nX: 2\r\n\r\nz" ∧
      Accepted ⟨1, 1, 1, 14, 2, 3⟩ r.text m' (str "z") ∧
      (∃ d, FramedAs ⟨1, 1, 1, 14, 2, 3⟩ msg.head d ∧ FramedAs ⟨1, 1, 1, 14, 2, 3⟩ r.head d) ∧
      m'.headers.values (str "X") = [str "1", str "2"] ∧
      m'.headers.haveHeader (str "Content-Length") = true := by
  let x₁ : HeaderLine ⟨1, 1, 1, 14, 2, 3⟩ :=
    ⟨str "X", [.char SP rfl, .char 0x31 rfl], ⟨⟨by decide, by decide⟩, by decide⟩, by decide⟩
  let x₂ : HeaderLine ⟨1, 1, 1, 14, 2, 3⟩ :=
    ⟨str "x", [.char SP rfl, .char 0x32 rfl], ⟨⟨by decide, by decide⟩, by decide⟩, by decide⟩
  let n : HeaderLine ⟨1, 1, 1, 14, 2, 3⟩ :=
    ⟨str "Content-Length", [.char SP rfl, .char 0x31 rfl],
      ⟨⟨by decide, by decide⟩, by decide⟩, by decide⟩
  let line : FirstLine ⟨1, 1, 1, 14, 2, 3⟩ := ⟨[], str "a", [SP], str "b", [SP], str "c",
    by decide, by decide, ⟨by decide, by decide⟩, by decide, by decide, by decide,
    ⟨by decide, by decide⟩, by decide, by decide, by decide, ⟨by decide, by decide⟩, by decide⟩
  let msg : Message ⟨1, 1, 1, 14, 2, 3⟩ := ⟨line, [x₁, x₂, n],
    .identity (str "1") 1 (str "z") (by simp [AsksChunked, x₁, x₂, n]; decide) rfl rfl rfl,
    by decide⟩
  let r : msg.Rearranged := {
    headers := [⟨n, str "content-length", by decide⟩, ⟨x₁, str "x", by decide⟩,
      ⟨x₂, str "X", by decide⟩]
    trailers := []
    perm := (List.perm_append_singleton n [x₁, x₂]).symm
    stable := filter_moved n
      (List.forall_mem_cons.mpr ⟨by decide, List.forall_mem_singleton.mpr (by decide)⟩)
    trailers_eq := rfl }
  have hmsg : Accepted ⟨1, 1, 1, 14, 2, 3⟩
      (str "a b c\r\nX: 1\r\nx: 2\r\nContent-Length: 1\r\n\r\nz")
      ⟨str "a", str "b", str "c", (∅ : Headers).insertAll
        [(str "X", str "1"), (str "x", str "2"), (str "Content-Length", str "1")]⟩ (str "z") := by
    decide +kernel
  obtain ⟨m', haccepted, hframed, -, -, -, hread⟩ := (accepted_rearranged _ _ _ _ hmsg).2 msg r rfl
  refine ⟨msg, r, m', rfl, rfl, haccepted, hframed, ?_, ?_⟩
  · rw [(hread (str "X") (by decide)).1]
    decide +kernel
  · rw [(hread (str "Content-Length") (by decide)).2.1]
    decide +kernel

end MessageParser

end Httpxx
