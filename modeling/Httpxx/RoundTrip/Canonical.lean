import Httpxx.Parser.Tuning
import Httpxx.RoundTrip.Conversation

/-!
Passing messages on. A proxy receives a message, whatever its spelling and framing, and
composes it again with its length. What it sends is a normal form: the next proxy sends
the same bytes again, and so does every other one after it. The normal form keeps nothing
of how a payload was cut into chunks, and takes the trailers for headers.

Composing looks at a message's headers only up to those that frame it
(`identityHeaders_congr`), and composing and parsing both change no other; the results
here follow from that.
-/

namespace Httpxx

open Library MessageComposer

namespace MessageComposer

/-! ### Headers that frame a message do not matter -/

theorem identityHeaders_congr {headers headers' : Headers}
    (h : unframed headers = unframed headers') (n : ℕ) :
    identityHeaders headers n = identityHeaders headers' n := by
  rw [identityHeaders, identityHeaders, h]

theorem unframed_unframed (headers : Headers) : unframed (unframed headers) = unframed headers := by
  ext1
  simp [unframed]

theorem unframed_insert_of_frames {e : Bytes × Bytes} (h : framesMessage e.1 = true)
    (headers : Headers) : unframed (Multimap.insert headers e) = unframed headers := by
  rw [unframed, Multimap.filter_insert, h]
  rfl

theorem unframed_identityHeaders (headers : Headers) (n : ℕ) :
    unframed (identityHeaders headers n) = unframed headers := by
  rw [identityHeaders]
  split
  · exact unframed_unframed headers
  · rw [unframed_insert_of_frames rfl, unframed_unframed]

/-- What is left of the headers of a chunked message and of its trailers is what is left
of both together. -/
theorem unframed_chunkedHeaders (headers : Headers) (trailers : List (Bytes × Bytes)) :
    unframed (Multimap.insertAll (chunkedHeaders headers) trailers) =
      unframed (Multimap.insertAll headers trailers) := by
  have hhead : unframed (chunkedHeaders headers) = unframed headers := by
    rw [chunkedHeaders, unframed_insert_of_frames rfl, unframed_unframed]
  rw [unframed, Multimap.filter_insertAll, unframed, Multimap.filter_insertAll]
  exact congrArg (fun hs : Headers => hs.insertAll _) hhead

end MessageComposer

/-- A message that was received, composed again with its length. -/
def Shown.recomposed (m : Shown) (body : Bytes) : Bytes :=
  (m.composer.composeEnvelope .fresh m.headers body.length).contents ++ body

/-- A proxy with these limits receives `s` as one message, with a body whose length can
be sent, and sends `t`. -/
def Relays (lim : Limits) (s t : Bytes) : Prop :=
  ∃ m body, MessageParser.Accepted lim s m body ∧ body.length < 2 ^ 32 ∧ t = m.recomposed body

inductive RelayChain : List Limits → Bytes → Bytes → Prop
  | nil (s : Bytes) : RelayChain [] s s
  | cons {lim : Limits} {lims : List Limits} {s t u : Bytes} :
      Relays lim s t → RelayChain lims t u → RelayChain (lim :: lims) s u

theorem Shown.recomposed_eq (m : Shown) (body : Bytes) :
    m.recomposed body = m.composer.head (identityHeaders m.headers body.length) ++ body := by
  rw [recomposed, contents_composeEnvelope]

def Shown.relayed (m : Shown) (body : Bytes) : Shown :=
  ⟨m.firstToken, m.secondToken, m.thirdToken, identityHeaders m.headers body.length⟩

theorem Shown.recomposed_relayed (m : Shown) (body : Bytes) :
    (m.relayed body).recomposed body = m.recomposed body := by
  have hheaders := identityHeaders_congr (unframed_identityHeaders m.headers body.length)
    body.length
  rw [recomposed_eq, recomposed_eq]
  exact congrArg (fun hs => m.composer.head hs ++ body) hheaders

namespace MessageParser

variable {lim : Limits} {s : Bytes} {m : Shown} {body : Bytes}

theorem accepted_relayed (h : Accepted lim s m body) (hlength : body.length < 2 ^ 32) :
    Accepted lim.forComposed (m.recomposed body) (m.relayed body) body := by
  obtain ⟨msg, -, rfl, rfl⟩ := exists_message_of_accepted h
  have hroom := msg.shown_safe.roomFor hlength fun hne =>
    msg.exists_framing (List.length_pos_iff.mp (Nat.pos_of_ne_zero hne))
  have hheaders : ∀ e ∈ (unframed msg.shown.headers).entries, Writable e := fun e he =>
    (msg.shown_safe.headers e (List.mem_of_mem_filter he)).writable
  obtain ⟨again, htext, hshown, hdata⟩ :=
    Grammar.exists_identityMessage msg.composer_valid hheaders hlength hroom
  have hacc := accepted_text again
  rwa [htext, hshown, hdata, ← Shown.recomposed_eq] at hacc

theorem relayed_of_accepted {lim' : Limits} {m' : Shown} {body' : Bytes}
    (h : Accepted lim s m body) (hlength : body.length < 2 ^ 32)
    (h' : Accepted lim' (m.recomposed body) m' body') : m' = m.relayed body ∧ body' = body :=
  (accepted_relayed h hlength).agrees h'

end MessageParser

namespace Relays

variable {lim : Limits} {s t : Bytes}

/-- The next proxy sends the same bytes. -/
theorem next {lim' : Limits} {u : Bytes} (h : Relays lim s t) (h' : Relays lim' t u) : u = t := by
  obtain ⟨m, body, hacc, hlength, rfl⟩ := h
  obtain ⟨m', body', hacc', -, rfl⟩ := h'
  obtain ⟨rfl, rfl⟩ := MessageParser.relayed_of_accepted hacc hlength hacc'
  exact m.recomposed_relayed _

/-- With room for the separating spaces and the length it does receive them. -/
theorem again (h : Relays lim s t) {lim' : Limits} (hroom : lim.forComposed.Within lim') :
    Relays lim' t t := by
  obtain ⟨m, body, hacc, hlength, rfl⟩ := h
  refine ⟨m.relayed body, body, ?_, hlength, (m.recomposed_relayed body).symm⟩
  exact (MessageParser.accepted_relayed hacc hlength).within hroom

end Relays

/-- **A proxy sends a normal form.** After a first proxy any number of further ones, with
any limits, send on the bytes they receive, byte for byte; and with limits that have
room for the separating space and a length of ten digits all of them do receive the
message. -/
theorem relayed_stays (lim : Limits) (s t : Bytes) (h : Relays lim s t) :
    (∀ lims u, RelayChain lims t u → u = t) ∧
      ∀ lims : List Limits, (∀ lim' ∈ lims, lim.forComposed.Within lim') →
        RelayChain lims t t := by
  constructor
  · intro lims u hchain
    induction lims generalizing u with
    | nil =>
        cases hchain
        rfl
    | cons lim' lims ih =>
        cases hchain with
        | cons hhop hrest =>
            obtain rfl := h.next hhop
            exact ih u hrest
  · intro lims hlims
    induction lims with
    | nil => exact .nil t
    | cons lim' lims ih =>
        obtain ⟨hroom, hrest⟩ := List.forall_mem_cons.mp hlims
        exact .cons (h.again hroom) (ih hrest)

/-- A message without a body behind white space, through one proxy and a second one. -/
theorem relayed_stays_spaces :
    RelayChain [⟨1, 1, 1, 1, 11, 1⟩] (str "a b c\r\n\r\n") (str "a b c\r\n\r\n") := by
  have hrelays : Relays ⟨1, 1, 1, 1, 1, 1⟩ (str " a\tb c\r\n\r\n") (str "a b c\r\n\r\n") :=
    ⟨⟨str "a", str "b", str "c", ∅⟩, [], by decide +kernel, by decide, by decide⟩
  exact (relayed_stays _ _ _ hrelays).2 _ (by
    intro lim' hlim'
    obtain rfl := List.mem_singleton.mp hlim'
    constructor <;> decide)

namespace Sent

def trailers (m : Sent) : List (Bytes × Bytes) :=
  match m.sending with
  | .identity _ => []
  | .chunked _ trailers => trailers.entries

theorem unframed_received (m : Sent) :
    unframed (m.sending.received m.headers) =
      unframed (Multimap.insertAll m.headers m.trailers) := by
  obtain ⟨c, headers, sending⟩ := m
  cases sending with
  | identity payload => exact unframed_identityHeaders headers payload.length
  | chunked pieces trailers => exact unframed_chunkedHeaders headers trailers.entries

/-- **How a payload was sent is not passed on.** Whatever a proxy receives of a message
that can be sent, in one piece or in chunks cut in any way, it sends the bytes that
composing the message with its whole payload at once, and with its trailers among its
headers, would have given. -/
theorem relayed_eq_identity (lim lim' : Limits) (m : Sent) (h : m.Sendable lim) (w t : Bytes)
    (hw : m.wire = .ok w) (ht : Relays lim' w t) :
    t = (m.composer.composeEnvelope .fresh (Multimap.insertAll m.headers m.trailers)
      m.sending.payload.length).contents ++ m.sending.payload := by
  obtain ⟨w', hw', hacc⟩ := h.accepted
  obtain rfl : w' = w := by simpa [hw'] using hw
  obtain ⟨m', body, hacc', -, rfl⟩ := ht
  obtain ⟨rfl, rfl⟩ := hacc.agrees hacc'
  rw [Shown.recomposed_eq, contents_composeEnvelope]
  have hheaders := identityHeaders_congr m.unframed_received m.sending.payload.length
  exact congrArg (fun hs => m.composer.head hs ++ m.sending.payload) hheaders

theorem relayed_eq_identity_chunks :
    ∃ w t, wire ⟨⟨str "a", str "b", str "c"⟩, ∅,
        .chunked [str "h", str "i"] ((∅ : Headers).insert (str "X", str "y"))⟩ = .ok w ∧
      Relays ⟨1, 1, 1, 17, 8, 2⟩ w t ∧
      t = str "a b c\r\nContent-Length: 2\r\nX: y\r\n\r\nhi" := by
  have hsendable : Sendable ⟨1, 1, 1, 17, 8, 2⟩ ⟨⟨str "a", str "b", str "c"⟩, ∅,
      .chunked [str "h", str "i"] ((∅ : Headers).insert (str "X", str "y"))⟩ :=
    ⟨⟨by decide, by decide, by decide, by decide, by decide, by decide, by decide⟩, by decide,
      ⟨by decide, by decide, by decide⟩,
      ⟨by decide, by decide, by decide, by decide, by decide, by decide⟩⟩
  obtain ⟨w, hw, hacc⟩ := hsendable.accepted
  have hrelays : Relays ⟨1, 1, 1, 17, 8, 2⟩ w _ := ⟨_, _, hacc, by decide, rfl⟩
  refine ⟨w, _, hw, hrelays, ?_⟩
  rw [relayed_eq_identity ⟨1, 1, 1, 17, 8, 2⟩ ⟨1, 1, 1, 17, 8, 2⟩ _ hsendable w _ hw hrelays]
  decide +kernel

end Sent

end Httpxx
