import Httpxx.Grammar.Body
import Httpxx.Parser.Session

/-!
The parser accepts exactly the messages of the grammar and computes what they
mean. The three parts of a message are put together for the machine over phases,
and the simulation of that machine by the parser carries the result over.
-/

namespace Httpxx

open Library

namespace Grammar

variable {lim : Limits}

theorem addHeaders_addHeaders (m : Shown) (hs ts : List (HeaderLine lim)) :
    (m.addHeaders hs).addHeaders ts = m.addHeaders (hs ++ ts) := by
  simp [Shown.addHeaders]

theorem Message.shown_eq (m : Message lim) :
    m.shown = (m.firstLine.shown.addHeaders m.headers).addHeaders m.body.trailers := by
  rw [addHeaders_addHeaders]
  rfl

/-- Between messages, whatever the last one was, the machine over phases accepts
exactly the texts of messages. -/
theorem accepts_iff_text (last : Shown) (w : Bytes) (u : Phase) (v : Bytes) :
    (Phase.recogniser lim).Accepts (.message last) w u v ↔
      ∃ m : Message lim, m.text = w ∧ u = .message m.shown ∧ v = m.body.data := by
  rw [accepts_firstLine_iff]
  constructor
  · rintro ⟨l, y, rfl, hacc⟩
    obtain ⟨hs, y, rfl, hamount, hacc⟩ :=
      (accepts_headers_iff false l.shown (Nat.zero_le _) y u v).mp hacc
    have hfew : hs.length ≤ lim.maxHeadersAmount := by simpa [FirstLine.shown] using hamount
    obtain ⟨body, rfl, htotal, rfl, rfl⟩ := (accepts_body_iff hs _ rfl hfew y u v).mp hacc
    refine ⟨⟨l, hs, body, htotal⟩, by simp [Message.text], ?_, rfl⟩
    rw [Message.shown_eq]
  · rintro ⟨m, rfl, rfl, rfl⟩
    refine ⟨m.firstLine, m.headers.flatMap HeaderLine.text ++ CR :: LF :: m.body.text,
      by simp [Message.text], ?_⟩
    have hfew : m.headers.length ≤ lim.maxHeadersAmount :=
      (Nat.le_add_right _ _).trans m.headers_amount
    refine (accepts_headers_iff false _ (Nat.zero_le _) _ _ _).mpr
      ⟨m.headers, LF :: m.body.text, rfl, by simpa [FirstLine.shown] using hfew, ?_⟩
    refine (accepts_body_iff m.headers _ rfl hfew _ _ _).mpr
      ⟨m.body, rfl, m.headers_amount, ?_, rfl⟩
    rw [Message.shown_eq]

end Grammar

namespace MessageParser

/-- A new parser takes the bytes one by one without an exception, returns TRUE for
the last one and for no earlier one, then shows the message `m`, and has flagged
the bytes of `body`. -/
def Accepted (lim : Limits) (s : Bytes) (m : Shown) (body : Bytes) : Prop :=
  ∃ rs, machine.run (create lim) s = .ok rs ∧ machine.EndsAtLast rs ∧
    (Transducer.lastState (create lim) rs).shown = m ∧ machine.payload s rs = body

instance (lim : Limits) (s : Bytes) (m : Shown) (body : Bytes) :
    Decidable (Accepted lim s m body) :=
  match h : machine.run (create lim) s with
  | .error _ => isFalse (by simp [Accepted, h])
  | .ok rs =>
      decidable_of_iff (machine.EndsAtLast rs ∧
        (Transducer.lastState (create lim) rs).shown = m ∧ machine.payload s rs = body)
        (by simp [Accepted, h])

theorem view_of_isCompleted {p : MessageParser} (h : p.isCompleted = true) :
    p.view = .message p.shown := by
  have hstate : p.state = .parsingMessage := by simpa [isCompleted] using h
  simp [view, hstate]

theorem accepted_iff_accepts (lim : Limits) (s : Bytes) (m : Shown) (body : Bytes) :
    Accepted lim s m body ↔
      (Phase.recogniser lim).Accepts Phase.initial s (.message m) body := by
  have hnew : (create lim).Clean ∧ (create lim).limits = lim := ⟨clean_create lim, rfl⟩
  constructor
  · rintro ⟨rs, hrun, hends, rfl, rfl⟩
    have hacc := (Transducer.accepts_iff_run machine (create lim) _ s _).mpr
      ⟨rs, hrun, hends, rfl, rfl⟩
    have hview := view_of_isCompleted (isCompleted_of_accepts hnew hacc).1
    rw [← hview]
    exact ((machine_simulates lim).accepts hnew hacc).2
  · intro hacc
    obtain ⟨p, hp, hview⟩ := (machine_simulates lim).accepts_of_view hnew hacc
    obtain ⟨rs, hrun, hends, rfl, rfl⟩ := (Transducer.accepts_iff_run machine _ _ _ _).mp hp
    refine ⟨rs, hrun, hends, ?_, rfl⟩
    rw [← shown_view ((machine_simulates lim).accepts hnew hp).1.1, hview]
    rfl

theorem accepted_text {lim : Limits} (m : Grammar.Message lim) :
    Accepted lim m.text m.shown m.body.data :=
  (accepted_iff_accepts _ _ _ _).mpr
    ((Grammar.accepts_iff_text _ _ _ _).mpr ⟨m, rfl, rfl, rfl⟩)

theorem exists_message_of_accepted {lim : Limits} {s : Bytes} {m : Shown} {body : Bytes}
    (h : Accepted lim s m body) :
    ∃ msg : Grammar.Message lim, msg.text = s ∧ msg.shown = m ∧ msg.body.data = body := by
  obtain ⟨msg, htext, hshown, hbody⟩ :=
    (Grammar.accepts_iff_text _ _ _ _).mp ((accepted_iff_accepts _ _ _ _).mp h)
  exact ⟨msg, htext, (Phase.message.inj hshown).symm, hbody.symm⟩

/-- **The parser accepts exactly its grammar and computes the meaning.** For all
limits and all byte strings, a new parser accepts the string, showing `m` and
flagging `body`, if and only if the string is the text of a message within the
limits that means `m` and `body`. -/
theorem accepted_iff_exists_message (lim : Limits) (s : Bytes) (m : Shown) (body : Bytes) :
    Accepted lim s m body ↔
      ∃ msg : Grammar.Message lim, msg.text = s ∧ msg.shown = m ∧ msg.body.data = body := by
  constructor
  · exact exists_message_of_accepted
  · rintro ⟨msg, rfl, rfl, rfl⟩
    exact accepted_text msg

end MessageParser

end Httpxx
