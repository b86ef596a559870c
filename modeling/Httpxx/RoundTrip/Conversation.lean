import Mathlib.Algebra.Order.BigOperators.Group.List
import Httpxx.Parser.Delivery
import Httpxx.RoundTrip.Chunked
import Httpxx.RoundTrip.Identity
import Httpxx.RoundTrip.Params
import Httpxx.RoundTrip.PercentEncoding

/-!
Both ends of a connection. A sender composes one message after another, each with its
payload in one piece or in chunks, and the bytes arrive in buffers that have nothing to
do with the messages. The receiver is told of the messages that were sent, and of no
other, as soon as they are complete.

What an application puts into a request is read back on the far side: parameters in the
query of the second token, and parameters in the payload.
-/

namespace Httpxx

open Library MessageComposer

inductive Sending
  | identity (payload : Bytes)
  | chunked (pieces : List Bytes) (trailers : Headers)

namespace Sending

def payload : Sending → Bytes
  | identity payload => payload
  | chunked pieces _ => pieces.flatten

def lines (headers : Headers) : Sending → List (Bytes × Bytes)
  | identity payload => (identityHeaders headers payload.length).entries
  | chunked _ trailers => (chunkedHeaders headers).entries ++ trailers.entries

/-- The headers that are shown on the far side. -/
def received (headers : Headers) : Sending → Headers
  | identity payload => identityHeaders headers payload.length
  | chunked _ trailers => (chunkedHeaders headers).insertAll trailers.entries

/-- What the composers take: lengths that fit, no empty piece, trailers that can be
written. -/
def Possible : Sending → Prop
  | identity payload => payload.length < 2 ^ 32
  | chunked pieces trailers =>
      pieces ≠ [] ∧ (∀ s ∈ pieces, s ≠ [] ∧ s.length < 2 ^ 32) ∧
        ∀ e ∈ trailers.entries, Writable e

end Sending

structure Sent where
  composer : MessageComposer
  headers : Headers
  sending : Sending

namespace Sent

def wire (m : Sent) : Except ComposeError Bytes :=
  match m.sending with
  | .identity payload =>
      .ok ((m.composer.composeEnvelope .fresh m.headers payload.length).contents ++ payload)
  | .chunked pieces trailers => m.composer.sendChunked m.headers pieces trailers

def shown (m : Sent) : Shown :=
  ⟨m.composer.firstToken, m.composer.secondToken, m.composer.thirdToken,
    m.sending.received m.headers⟩

/-- The message can be written, and a receiver with these limits has room for it. -/
structure Sendable (lim : Limits) (m : Sent) : Prop where
  valid : m.composer.Valid
  headers : ∀ e ∈ m.headers.entries, framesMessage e.1 = false → Writable e
  sending : m.sending.Possible
  room : lim.RoomFor m.composer (m.sending.lines m.headers)

variable {lim : Limits}

theorem Sendable.accepted {m : Sent} (h : m.Sendable lim) :
    ∃ w, m.wire = .ok w ∧ MessageParser.Accepted lim w m.shown m.sending.payload := by
  obtain ⟨c, headers, sending⟩ := m
  obtain ⟨hc, hheaders, hsending, hroom⟩ := h
  cases sending with
  | identity payload =>
      obtain ⟨msg, htext, hshown, hdata⟩ :=
        Grammar.exists_identityMessage hc (unframed_writable hheaders) hsending hroom
      have hacc := MessageParser.accepted_text msg
      rw [htext, hshown, hdata, ← contents_composeEnvelope] at hacc
      exact ⟨_, rfl, hacc⟩
  | chunked pieces trailers =>
      obtain ⟨hne, hpieces, htrailers⟩ := hsending
      obtain ⟨msg, htext, hshown, hdata⟩ :=
        Grammar.exists_chunkedMessage hc (unframed_writable hheaders) htrailers hpieces hroom
      have hacc := MessageParser.accepted_text msg
      rw [htext, hshown, hdata] at hacc
      exact ⟨_, c.sendChunked_eq headers hne (fun s hs => (hpieces s hs).1) trailers, hacc⟩

theorem exists_delivered (ms : List Sent) (h : ∀ m ∈ ms, m.Sendable lim) :
    ∃ ds : List Delivered, ms.mapM wire = .ok (ds.map Delivered.wire) ∧
      ds.map (fun d => (d.shown, d.body)) = ms.map (fun m => (m.shown, m.sending.payload)) ∧
      ∀ d ∈ ds, MessageParser.Accepted lim d.wire d.shown d.body := by
  induction ms with
  | nil => exact ⟨[], rfl, rfl, by simp⟩
  | cons m ms ih =>
      obtain ⟨hm, hms⟩ := List.forall_mem_cons.mp h
      obtain ⟨w, hw, hacc⟩ := hm.accepted
      obtain ⟨ds, hwires, hmeaning, hds⟩ := ih hms
      refine ⟨⟨w, m.shown, m.sending.payload⟩ :: ds, ?_, ?_, ?_⟩
      · rw [List.mapM_cons, hw, hwires]
        rfl
      · rw [List.map_cons, List.map_cons, hmeaning]
      · exact List.forall_mem_cons.mpr ⟨hacc, hds⟩

/-- **A conversation is received as it was sent.** Messages that can be sent are all
composed; and however much of their bytes has arrived, in whatever buffers, a receiver
that was between messages has been told exactly of those that have arrived completely,
each once, in order and at its offset, with its tokens, its headers and its payload.
When all has arrived it has been told of all, and has all payloads one after the other. -/
theorem received_as_sent (lim : Limits) (p : MessageParser)
    (hp : MessageParser.BetweenMessages lim p) (os : OStream) (ms : List Sent)
    (hms : ∀ m ∈ ms, m.Sendable lim) :
    ∃ ds : List Delivered, ms.mapM wire = .ok (ds.map Delivered.wire) ∧
      ds.map (fun d => (d.shown, d.body)) = ms.map (fun m => (m.shown, m.sending.payload)) ∧
      ∀ bufs : List Bytes, bufs.flatten <+: ds.flatMap Delivered.wire →
        ∃ r, (Reception.start p os).receiveBuffers bufs = .ok r ∧
          r.reports =
            (Delivered.reportsFrom 0 ds).filter (fun x => x.offset ≤ bufs.flatten.length) ∧
          r.os.out <+: os.out ++ ms.flatMap (fun m => m.sending.payload) ∧
          (bufs.flatten = ds.flatMap Delivered.wire →
            r.reports = Delivered.reportsFrom 0 ds ∧
              r.os.out = os.out ++ ms.flatMap (fun m => m.sending.payload) ∧
              r.parser.isCompleted = true) := by
  obtain ⟨ds, hwires, hmeaning, hds⟩ := exists_delivered ms hms
  have hbodies : ds.flatMap Delivered.body = ms.flatMap fun m => m.sending.payload := by
    have hsnd := congrArg (List.map Prod.snd) hmeaning
    rw [List.map_map, List.map_map] at hsnd
    rw [List.flatMap_def, List.flatMap_def]
    exact congrArg List.flatten hsnd
  refine ⟨ds, hwires, hmeaning, fun bufs hbufs => ?_⟩
  obtain ⟨r, hr, hreports, hout, hall⟩ := Reception.told_of_arrived hp os hds hbufs
  rw [hbodies] at hout hall
  refine ⟨r, hr, hreports, hout, fun hfull => ⟨?_, hall hfull⟩⟩
  rw [hreports, hfull]
  exact Delivered.filter_reportsFrom ds

/-- A message in one piece and one in two chunks, the first cut in its head and the second
after the size of a chunk. -/
theorem received_as_sent_greetings : ∃ r,
    [(⟨⟨str "a", str "b", str "c"⟩, ∅, .identity (str "hi")⟩ : Sent),
      ⟨⟨str "a", str "b", str "c"⟩, ∅, .chunked [str "h", str "i"] ∅⟩].mapM wire =
        .ok [str "a b c\r\nContent-Length: 2\r\n\r\nhi",
          str "a b c\r\nTransfer-Encoding: chunked\r\n\r\n1\r\nh\r\n1\r\ni\r\n0\r\n\r\n"] ∧
    (Reception.start (.create ⟨1, 1, 1, 17, 8, 1⟩) .fresh).receiveBuffers
      [str "a b c\r\nContent-Le",
        str "ngth: 2\r\n\r\nhia b c\r\nTransfer-Encoding: chunked\r\n\r\n1",
        str "\r\nh\r\n1\r\ni\r\n0\r\n\r\n"] = .ok r ∧
    r.reports.map (fun x => (x.shown.headers.entries, x.body)) =
      [([(str "Content-Length", str "2")], str "hi"),
        ([(str "Transfer-Encoding", str "chunked")], str "hi")] ∧
    r.os.out = str "hihi" := by
  have hvalid : (⟨str "a", str "b", str "c"⟩ : MessageComposer).Valid :=
    ⟨by decide, by decide, by decide, by decide, by decide, by decide, by decide⟩
  obtain ⟨ds, hwires, hmeaning, hreceived⟩ :=
    received_as_sent ⟨1, 1, 1, 17, 8, 1⟩ _ (.reset []) .fresh
      [⟨⟨str "a", str "b", str "c"⟩, ∅, .identity (str "hi")⟩,
        ⟨⟨str "a", str "b", str "c"⟩, ∅, .chunked [str "h", str "i"] ∅⟩] (by
      refine List.forall_mem_cons.mpr ⟨⟨hvalid, by decide, ?_, ?_⟩,
        List.forall_mem_cons.mpr ⟨⟨hvalid, by decide, ?_, ?_⟩, by simp⟩⟩
      · exact (by decide : (str "hi").length < 2 ^ 32)
      · exact ⟨by decide, by decide, by decide, by decide, by decide, by decide⟩
      · exact ⟨by decide, by decide, by decide⟩
      · exact ⟨by decide, by decide, by decide, by decide, by decide, by decide⟩)
  have hsent : ds.map Delivered.wire = [str "a b c\r\nContent-Length: 2\r\n\r\nhi",
      str "a b c\r\nTransfer-Encoding: chunked\r\n\r\n1\r\nh\r\n1\r\ni\r\n0\r\n\r\n"] :=
    Except.ok.inj (hwires.symm.trans (by decide +kernel))
  have hwhole : [str "a b c\r\nContent-Le",
      str "ngth: 2\r\n\r\nhia b c\r\nTransfer-Encoding: chunked\r\n\r\n1",
      str "\r\nh\r\n1\r\ni\r\n0\r\n\r\n"].flatten = ds.flatMap Delivered.wire := by
    rw [List.flatMap_def, hsent]
    decide +kernel
  obtain ⟨r, hr, -, -, hall⟩ := hreceived _ ⟨[], (List.append_nil _).trans hwhole⟩
  obtain ⟨hreports, hout, -⟩ := hall hwhole
  refine ⟨r, hsent ▸ hwires, hr, ?_, hout⟩
  have hshown := (Delivered.map_reportsFrom 0 ds).trans hmeaning
  rw [← hreports] at hshown
  have hentries := congrArg (List.map fun x : Shown × Bytes => (x.1.headers.entries, x.2)) hshown
  rw [List.map_map] at hentries
  exact hentries.trans (by decide +kernel)

/-! ### What cannot be sent -/

def roomy (m : Sent) : Limits where
  maxFirstTokenLength := m.composer.firstToken.length
  maxSecondTokenLength := m.composer.secondToken.length
  maxThirdTokenLength := m.composer.thirdToken.length
  maxHeaderNameLength := ((m.sending.lines m.headers).map fun e => e.1.length).sum
  maxHeaderValueLength := ((m.sending.lines m.headers).map fun e => e.2.length).sum + 1
  maxHeadersAmount := (m.sending.lines m.headers).length

theorem roomFor_roomy (m : Sent) : m.roomy.RoomFor m.composer (m.sending.lines m.headers) where
  firstToken := le_max_right _ _
  secondToken := le_max_right _ _
  thirdToken := le_max_right _ _
  name _ he :=
    (List.single_le_sum (fun _ _ => Nat.zero_le _) _
      (List.mem_map_of_mem (f := fun e : Bytes × Bytes => e.1.length) he)).trans (le_max_right _ _)
  value _ he :=
    Nat.succ_le_succ (List.single_le_sum (fun _ _ => Nat.zero_le _) _
      (List.mem_map_of_mem (f := fun e : Bytes × Bytes => e.2.length) he))
  amount := le_rfl

/-- **Nothing can be smuggled in.** Let the payload be shorter than `2 ^ 32` bytes, or the
pieces be some, none of them empty and each shorter than that. Whatever is put into the
tokens, the headers and the trailers, a receiver of some limits reads back the message
that was composed if and only if the tokens are of their classes and every header that
does not frame the message, and every trailer, has a token for a name and a value without
control characters and spaces at its ends. -/
theorem read_back_iff (m : Sent)
    (hlengths : match m.sending with
      | .identity payload => payload.length < 2 ^ 32
      | .chunked pieces _ => pieces ≠ [] ∧ ∀ s ∈ pieces, s ≠ [] ∧ s.length < 2 ^ 32) :
    (∃ lim w, m.wire = .ok w ∧ MessageParser.Accepted lim w m.shown m.sending.payload) ↔
      m.composer.Valid ∧ (∀ e ∈ m.headers.entries, framesMessage e.1 = false → Writable e) ∧
        match m.sending with
        | .identity _ => True
        | .chunked _ trailers => ∀ e ∈ trailers.entries, Writable e := by
  constructor
  · rintro ⟨lim, w, -, hacc⟩
    obtain ⟨msg, -, hshown, -⟩ := MessageParser.exists_message_of_accepted hacc
    have hvalid := msg.composer_valid
    have hsafe := msg.shown_safe.headers
    rw [hshown] at hvalid hsafe
    have hkept : ∀ e ∈ (m.sending.received m.headers).entries, Writable e :=
      fun e he => (hsafe e he).writable
    refine ⟨hvalid, ?_, ?_⟩
    · intro e he hframes
      have hunframed : e ∈ (unframed m.headers).entries :=
        List.mem_filter.mpr ⟨he, by simp [hframes]⟩
      refine hkept e ?_
      cases m.sending with
      | identity payload => exact mem_identityHeaders.mpr (.inr hunframed)
      | chunked pieces trailers =>
          exact Multimap.mem_insertAll.mpr (.inr (Multimap.mem_insert.mpr (.inr hunframed)))
    · cases hsending : m.sending with
      | identity payload => trivial
      | chunked pieces trailers =>
          intro e he
          refine hkept e ?_
          rw [hsending]
          exact Multimap.mem_insertAll.mpr (.inl he)
  · rintro ⟨hvalid, hheaders, htrailers⟩
    have hpossible : m.sending.Possible := by
      cases hsending : m.sending with
      | identity payload =>
          rw [hsending] at hlengths
          exact hlengths
      | chunked pieces trailers =>
          rw [hsending] at hlengths htrailers
          exact ⟨hlengths.1, hlengths.2, htrailers⟩
    obtain ⟨w, hw, hacc⟩ :=
      Sendable.accepted ⟨hvalid, hheaders, hpossible, m.roomFor_roomy⟩
    exact ⟨m.roomy, w, hw, hacc⟩

theorem read_back_iff_injected :
    ¬ ∃ lim w, wire ⟨⟨str "a", str "b", str "c"⟩,
        (∅ : Headers).insert (str "X", str "1\r\nY: 2"), .identity []⟩ = .ok w ∧
      MessageParser.Accepted lim w (shown ⟨⟨str "a", str "b", str "c"⟩,
        (∅ : Headers).insert (str "X", str "1\r\nY: 2"), .identity []⟩) [] := by
  intro h
  have hheaders := ((read_back_iff ⟨⟨str "a", str "b", str "c"⟩,
    (∅ : Headers).insert (str "X", str "1\r\nY: 2"), .identity []⟩ (by decide)).mp h).2.1
  exact absurd hheaders (by decide +kernel)

/-! ### What an application puts in -/

theorem visible_of_mem_composed {params : Params} {ch : Byte} (h : ch ∈ params.composed) :
    Visible ch := by
  rw [Params.composed_eq] at h
  have hparts : ∀ part ∈ Params.encodedParams params.entries, ∀ ch ∈ part, Visible ch := by
    intro part hpart ch hch
    obtain ⟨i, -, rfl⟩ := List.mem_map.mp hpart
    rcases List.mem_append.mp hch with hch | hch
    · exact visible_of_isPercentEncoded (isPercentEncoded_of_mem hch)
    · rcases List.mem_cons.mp hch with rfl | hch
      · decide
      · exact visible_of_isPercentEncoded (isPercentEncoded_of_mem hch)
  cases hall : Params.encodedParams params.entries with
  | nil => simp [hall] at h
  | cons part parts =>
      rw [hall] at h hparts
      rw [intercalate_cons_eq_flatMap] at h
      rcases List.mem_append.mp h with h | h
      · exact hparts part (by simp) ch h
      · obtain ⟨other, hother, hch⟩ := List.mem_flatMap.mp h
        rcases List.mem_cons.mp hch with rfl | hch
        · decide
        · exact hparts other (List.mem_cons_of_mem _ hother) ch hch

def withQuery (c : MessageComposer) (query : Params) : MessageComposer :=
  { c with secondToken := c.secondToken ++ questionMark :: query.composed }

theorem withQuery_valid {c : MessageComposer} (h : c.Valid) (query : Params) :
    (withQuery c query).Valid :=
  { h with
    secondToken_ne := by simp [withQuery]
    secondToken_visible := by
      intro ch hch
      rcases List.mem_append.mp hch with hch | hch
      · exact h.secondToken_visible ch hch
      · rcases List.mem_cons.mp hch with rfl | hch
        · decide
        · exact visible_of_mem_composed hch }

/-- **Parameters reach the far side.** A request carries any parameters in the query of its
second token and any others as its payload, in one piece or in chunks, and arrives in any
buffers: exactly one message is reported, the path of its second token is the sender's,
and both sets of parameters are read back, less those without a name. -/
theorem params_received (lim : Limits) (p : MessageParser)
    (hp : MessageParser.BetweenMessages lim p) (os : OStream) (c : MessageComposer)
    (hc : c.Valid) (hpath : questionMark ∉ c.secondToken) (query form : Params)
    (headers : Headers) (sending : Sending) (hpayload : sending.payload = form.composed)
    (hheaders : ∀ e ∈ headers.entries, framesMessage e.1 = false → Writable e)
    (hsending : sending.Possible)
    (hroom : lim.RoomFor (withQuery c query) (sending.lines headers)) :
    ∃ w, wire ⟨withQuery c query, headers, sending⟩ = .ok w ∧
      ∀ bufs : List Bytes, bufs.flatten = w →
        ∃ r report, (Reception.start p os).receiveBuffers bufs = .ok r ∧ r.reports = [report] ∧
          (Uri.ofString report.shown.secondToken).encodedPath = c.secondToken ∧
          Params.ofUri (Uri.ofString report.shown.secondToken) = query.named ∧
          Params.ofString report.body = form.named := by
  have hsendable : Sendable lim ⟨withQuery c query, headers, sending⟩ :=
    ⟨withQuery_valid hc query, hheaders, hsending, hroom⟩
  obtain ⟨w, hw, hacc⟩ := hsendable.accepted
  refine ⟨w, hw, fun bufs hbufs => ?_⟩
  have hds : ∀ d ∈ [(⟨w, shown ⟨withQuery c query, headers, sending⟩, sending.payload⟩ :
      Delivered)], MessageParser.Accepted lim d.wire d.shown d.body := by
    simpa using hacc
  have hwhole : bufs.flatten = [(⟨w, shown ⟨withQuery c query, headers, sending⟩,
      sending.payload⟩ : Delivered)].flatMap Delivered.wire := by
    simpa using hbufs
  obtain ⟨r, hr, hreports, -, -⟩ :=
    Reception.told_of_arrived hp os hds (by rw [hwhole])
  have huri := Uri.ofString_append hpath query.composed
  refine ⟨r, ⟨0 + w.length, shown ⟨withQuery c query, headers, sending⟩, sending.payload⟩, hr,
    ?_, ?_, ?_, ?_⟩
  · rw [hreports, hwhole]
    exact Delivered.filter_reportsFrom _
  · exact congrArg Uri.encodedPath huri
  · show Params.ofUri (Uri.ofString (c.secondToken ++ questionMark :: query.composed)) = _
    rw [Params.ofUri, huri]
    exact Params.ofString_composed query
  · show Params.ofString sending.payload = _
    rw [hpayload]
    exact Params.ofString_composed form

theorem params_received_post :
    ∃ w r report, wire ⟨withQuery ⟨str "POST", str "/", str "HTTP/1.1"⟩
        ((∅ : Params).insert (str "x", str "&")), ∅, .identity (str "y=%3D")⟩ = .ok w ∧
      (Reception.start (.create ⟨4, 8, 8, 14, 2, 1⟩) .fresh).receiveBuffers [w] = .ok r ∧
      r.reports = [report] ∧
      Params.ofUri (Uri.ofString report.shown.secondToken) =
        (∅ : Params).insert (str "x", str "&") ∧
      Params.ofString report.body = (∅ : Params).insert (str "y", str "=") := by
  obtain ⟨w, hw, hreceived⟩ := params_received ⟨4, 8, 8, 14, 2, 1⟩ _ (.reset []) .fresh
    ⟨str "POST", str "/", str "HTTP/1.1"⟩
    ⟨by decide, by decide, by decide, by decide, by decide, by decide, by decide⟩ (by decide)
    ((∅ : Params).insert (str "x", str "&")) ((∅ : Params).insert (str "y", str "=")) ∅
    (.identity (str "y=%3D")) (by decide +kernel) (by decide)
    (by decide : (str "y=%3D").length < 2 ^ 32)
    ⟨by decide, by decide +kernel, by decide, by decide, by decide, by decide⟩
  obtain ⟨r, report, hr, hone, -, hquery, hform⟩ := hreceived [w] (List.append_nil w)
  exact ⟨w, r, report, hw, hr, hone, hquery.trans (by decide +kernel),
    hform.trans (by decide +kernel)⟩

end Sent

end Httpxx
