import Httpxx.Library.Steps
import Httpxx.Parser.Delivery
import Httpxx.Parser.Tuning
import Httpxx.Server.HttpTask

/-!
What a client sees of its task. A connection is a task together with the bytes that have
passed through its socket; it takes a step whenever the operation that the task waits
for completes, with any number of bytes, or fails.

`Standing` says where a connection can be: it waits for the rest of a request, or sends
the rest of the response to the first one, or is over. Every step keeps it, so that in
every run the client gets one response at most, and nothing but a part of it.
-/

namespace Httpxx

open Library HttpTask

/-- How the operation that a task waits for completes. -/
inductive Completion
  | received (data : Bytes)
  | sent (bytesTransferred : ℕ)
  | failed
  deriving DecidableEq, Repr

def Completion.data : Completion → Bytes
  | received data => data
  | sent _ | failed => []

/-- A task, and what has passed through its socket in both directions. -/
structure Connection where
  task : HttpTask
  received : Bytes
  sent : Bytes

namespace Connection

def start (memory : Memory Byte) : Connection := ⟨(HttpTask.create memory).asyncExecute, [], []⟩

/-- The pending operation completes. A receive stores what fits into the buffer, and a
send takes the first of the bytes that are offered. -/
def step (c : Connection) : Completion → Option Connection
  | .received data =>
      if c.task.pending = .receive ∧ data.length ≤ BufferSize then
        let task := { c.task with buffer := c.task.buffer.write 0 data }
        some { c with
          task := task.onReceive false data.length
          received := c.received ++ data }
      else none
  | .sent bytesTransferred =>
      if c.task.pending = .send ∧ bytesTransferred ≤ c.task.packet.size then
        some { c with
          task := c.task.onSend false bytesTransferred
          sent := c.sent ++ c.task.offered.take bytesTransferred }
      else none
  | .failed =>
      match c.task.pending with
      | .receive => some { c with task := c.task.onReceive true 0 }
      | .send => some { c with task := c.task.onSend true 0 }
      | .nothing => none

def BeginsWith (s : Bytes) (m : Shown) : Prop :=
  ∃ w rest body, s = w ++ rest ∧ MessageParser.Accepted requestLimits w m body

/-- The bytes do not begin with a request, whatever follows them. -/
def Hopeless (s : Bytes) : Prop := ∀ rest m, ¬ BeginsWith (s ++ rest) m

/-! ### One step -/

section Step

variable {c : Connection} {data : Bytes} (hpending : c.task.pending = .receive)
  (hfits : data.length ≤ BufferSize)

def taking (c : Connection) (data : Bytes) (parser : MessageParser) : HttpTask :=
  { c.task with buffer := c.task.buffer.write 0 data, requestParser := parser }

include hpending hfits

theorem step_received_of_reads {q : MessageParser} {v : Bytes}
    (h : MessageParser.machine.Reads c.task.requestParser data v q) :
    c.step (.received data) =
      some ⟨(c.taking data q).asyncReceive, c.received ++ data, c.sent⟩ := by
  have hparse := MessageParser.parseBuffer_of_reads h .fresh
  rw [step, if_pos ⟨hpending, hfits⟩]
  simp only [onReceive, Memory.read_write, hparse]
  rfl

theorem step_received_of_accepts {u : MessageParser} {w rest v : Bytes} (hdata : data = w ++ rest)
    (h : MessageParser.machine.Accepts c.task.requestParser w u v) :
    c.step (.received data) = some ⟨(c.taking data u).respond, c.received ++ data, c.sent⟩ := by
  have hparse := MessageParser.parseBuffer_of_accepts h .fresh rest
  rw [← hdata] at hparse
  rw [step, if_pos ⟨hpending, hfits⟩]
  simp only [onReceive, Memory.read_write, hparse, Bool.not_true, Bool.false_eq_true, if_false,
    taking]

theorem step_received_of_refuses {q : MessageParser} {x y v : Bytes} {a : Byte}
    (hdata : data = x ++ a :: y) (h : MessageParser.machine.Reads c.task.requestParser x v q)
    (ha : MessageParser.machine.Refuses q a) :
    ∃ p, c.step (.received data) =
      some ⟨(c.taking data p).finish, c.received ++ data, c.sent⟩ := by
  obtain ⟨e, hparse⟩ := MessageParser.exists_parseBuffer_of_refuses h ha .fresh y
  rw [← hdata] at hparse
  refine ⟨e.thrown.parser, ?_⟩
  rw [step, if_pos ⟨hpending, hfits⟩]
  simp only [onReceive, Memory.read_write, hparse]
  rfl

end Step

/-! ### One send -/

theorem length_offered (task : HttpTask) : task.offered.length = task.packet.size :=
  Memory.length_read _ _ _

theorem offered_onSend {task : HttpTask} {n : ℕ} (h : n ≤ task.packet.size) :
    (task.onSend false n).offered = task.offered.drop n := by
  have hsplit := task.buffer.read_add task.packet.ptr n (task.packet.size - n)
  rw [Nat.add_sub_cancel' h] at hsplit
  have hdrop : task.offered.drop n =
      task.buffer.read (task.packet.ptr + n) (task.packet.size - n) := by
    rw [offered, hsplit, List.drop_append_of_le_length (by simp), List.drop_of_length_le (by simp)]
    rfl
  rw [hdrop]
  simp only [onSend, Bool.false_eq_true, if_false]
  split_ifs <;> rfl

theorem pending_onSend (task : HttpTask) (n : ℕ) :
    (task.onSend false n).pending = if task.packet.size ≤ n then .nothing else .send := by
  simp only [onSend, Bool.false_eq_true, if_false, Nat.le_zero_eq, Nat.sub_eq_zero_iff_le]
  split_ifs <;> rfl

theorem packet_onSend (task : HttpTask) (n : ℕ) :
    (task.onSend false n).packet = ⟨task.packet.ptr + n, task.packet.size - n⟩ := by
  simp only [onSend, Bool.false_eq_true, if_false]
  split_ifs <;> rfl

theorem packetWithin_onSend {task : HttpTask} (h : task.PacketWithin) {n : ℕ}
    (hn : n < task.packet.size) : (task.onSend false n).PacketWithin := by
  have hle := h.le
  refine ⟨?_, ?_⟩
  · rw [packet_onSend]
    show task.packet.ptr + n + (task.packet.size - n) ≤ BufferSize
    omega
  · rw [packet_onSend]
    exact Nat.sub_pos_of_lt hn

theorem step_sent {c : Connection} (hpending : c.task.pending = .send) {n : ℕ}
    (hn : n ≤ c.task.packet.size) :
    c.step (.sent n) =
      some ⟨c.task.onSend false n, c.received, c.sent ++ c.task.offered.take n⟩ := by
  rw [step, if_pos ⟨hpending, hn⟩]

/-! ### Where a connection can be -/

def newParser : MessageParser := .create requestLimits

def Requested (s : Bytes) (u : MessageParser) : Prop :=
  ∃ w rest v, s = w ++ rest ∧ MessageParser.machine.Accepts newParser w u v

/-- The received bytes contain a byte that is refused, and no request before it. -/
def Refused (s : Bytes) : Prop :=
  ∃ x a y v t, s = x ++ a :: y ∧ MessageParser.machine.Reads newParser x v t ∧
    MessageParser.machine.Refuses t a

/-- Where a connection can be; the flag says that an operation has failed. -/
inductive Standing (c : Connection) : Bool → Prop
  | waiting (v : Bytes) (hpending : c.task.pending = .receive)
      (hread : MessageParser.machine.Reads newParser c.received v c.task.requestParser)
      (hsent : c.sent = []) : Standing c false
  | answering (u : MessageParser) (hpending : c.task.pending = .send)
      (hrequest : Requested c.received u) (hwithin : c.task.PacketWithin)
      (hsent : c.sent ++ c.task.offered = response u.thirdToken) : Standing c false
  | answered (u : MessageParser) (hpending : c.task.pending = .nothing)
      (hrequest : Requested c.received u) (hsent : c.sent = response u.thirdToken) :
      Standing c false
  | refused (hpending : c.task.pending = .nothing) (hrefused : Refused c.received)
      (hsent : c.sent = []) : Standing c false
  | lostWaiting (v : Bytes) (t : MessageParser) (hpending : c.task.pending = .nothing)
      (hread : MessageParser.machine.Reads newParser c.received v t) (hsent : c.sent = []) :
      Standing c true
  | lostAnswering (u : MessageParser) (hpending : c.task.pending = .nothing)
      (hrequest : Requested c.received u) (hsent : c.sent <+: response u.thirdToken) :
      Standing c true

theorem standing_start (memory : Memory Byte) : (start memory).Standing false :=
  .waiting [] rfl (.nil _) rfl

theorem length_thirdToken_le {w v : Bytes} {u : MessageParser}
    (h : MessageParser.machine.Accepts newParser w u v) : u.thirdToken.length ≤ 24 := by
  obtain ⟨m, -, hshown, -⟩ :=
    MessageParser.exists_message_of_accepted (MessageParser.accepted_iff_machine.mpr ⟨u, h, rfl⟩)
  have hlength := m.shown_safe.thirdToken.length
  rw [hshown] at hlength
  exact hlength

theorem Requested.beginsWith {s : Bytes} {u : MessageParser} (h : Requested s u) :
    BeginsWith s u.shown := by
  obtain ⟨w, rest, v, hs, hacc⟩ := h
  exact ⟨w, rest, v, hs, MessageParser.accepted_iff_machine.mpr ⟨u, hacc, rfl⟩⟩

theorem BeginsWith.requested {s : Bytes} {m : Shown} (h : BeginsWith s m) :
    ∃ u, Requested s u ∧ u.shown = m := by
  obtain ⟨w, rest, v, hs, hacc⟩ := h
  obtain ⟨u, hu, hshown⟩ := MessageParser.accepted_iff_machine.mp hacc
  exact ⟨u, ⟨w, rest, v, hs, hu⟩, hshown⟩

theorem not_beginsWith_of_reads {s v : Bytes} {t : MessageParser}
    (h : MessageParser.machine.Reads newParser s v t) (m : Shown) : ¬ BeginsWith s m := by
  intro hm
  obtain ⟨u, ⟨w, rest, v', rfl, hacc⟩, -⟩ := hm.requested
  exact h.not_accepts hacc

/-- After a byte that is refused there will be no request. -/
theorem Refused.hopeless {s : Bytes} (h : Refused s) : Hopeless s := by
  rintro rest m hm
  obtain ⟨x, a, y, v, t, rfl, hread, hrefuses⟩ := h
  obtain ⟨u, ⟨w, rest', v', hs, hacc⟩, -⟩ := hm.requested
  rw [List.append_assoc, List.cons_append] at hs
  exact hread.not_accepts_of_refuses hrefuses hs hacc

/-! ### Every step -/

section Standing

variable {c c' : Connection}

/-- Behind the buffer of the task nothing has been written. -/
def SameBehind (c c' : Connection) : Prop :=
  ∀ x, BufferSize ≤ x → c'.task.buffer x = c.task.buffer x

theorem buffer_taking {data : Bytes} (hfits : data.length ≤ BufferSize) (p : MessageParser)
    {x : ℕ} (hx : BufferSize ≤ x) : (c.taking data p).buffer x = c.task.buffer x := by
  have hend : 0 + data.length ≤ x := by omega
  exact Memory.write_of_ge _ hend

/-- What is received goes on with the request, or completes it, or is refused. -/
theorem standing_received {data : Bytes} {lost : Bool} (h : c.Standing lost)
    (hstep : c.step (.received data) = some c') :
    lost = false ∧ c'.Standing false ∧ c.SameBehind c' := by
  obtain ⟨⟨hpending, hfits⟩, -⟩ := Option.ite_none_right_eq_some.mp hstep
  cases h with
  | waiting v _ hread hsent =>
      cases MessageParser.machine.meets c.task.requestParser data with
      | inside hdata =>
          rw [step_received_of_reads hpending hfits hdata] at hstep
          obtain rfl := Option.some.inj hstep
          exact ⟨rfl, .waiting _ rfl (hread.append hdata) hsent,
            fun x hx => buffer_taking hfits newParser hx⟩
      | @ended w rest v' u hdata hacc =>
          rw [step_received_of_accepts hpending hfits hdata hacc] at hstep
          have hwhole := (hread.accepts_iff w u _).mpr ⟨v', rfl, hacc⟩
          have hthird : (c.taking data u).requestParser.thirdToken.length ≤ 24 :=
            length_thirdToken_le hwhole
          have hsending := pending_respond hthird
          have hwithin := packetWithin_respond hthird
          have hoffered : (c.taking data u).respond.offered = response u.thirdToken :=
            offered_respond hthird
          have hbehind : ∀ x, BufferSize ≤ x →
              (c.taking data u).respond.buffer x = c.task.buffer x :=
            fun x hx => (buffer_respond hthird hx).trans (buffer_taking hfits u hx)
          generalize (c.taking data u).respond = task at hstep hsending hwithin hoffered hbehind
          obtain rfl := Option.some.inj hstep
          refine ⟨rfl, .answering u hsending ⟨c.received ++ w, rest, _, ?_, hwhole⟩ hwithin ?_,
            hbehind⟩
          · rw [hdata, List.append_assoc]
          · rw [hsent, hoffered, List.nil_append]
      | @refused x y v' a t hdata hx hrefuses =>
          obtain ⟨p, hp⟩ := step_received_of_refuses hpending hfits hdata hx hrefuses
          rw [hp] at hstep
          obtain rfl := Option.some.inj hstep
          refine ⟨rfl, .refused rfl ⟨c.received ++ x, a, y, _, t, ?_, hread.append hx, hrefuses⟩
            hsent, fun x hx => buffer_taking hfits newParser hx⟩
          rw [hdata, List.append_assoc]
  | _ => simp_all

theorem standing_sent {n : ℕ} {lost : Bool} (h : c.Standing lost)
    (hstep : c.step (.sent n) = some c') :
    lost = false ∧ c'.Standing false ∧ c.SameBehind c' := by
  obtain ⟨⟨hpending, hn⟩, -⟩ := Option.ite_none_right_eq_some.mp hstep
  rw [step_sent hpending hn] at hstep
  obtain rfl := Option.some.inj hstep
  have hbehind : (c.task.onSend false n).buffer = c.task.buffer := by
    simp only [onSend, Bool.false_eq_true, if_false]
    split_ifs <;> rfl
  cases h with
  | answering u _ hrequest hwithin hsent =>
      refine ⟨rfl, ?_, fun x _ => congrFun hbehind x⟩
      have hafter := pending_onSend c.task n
      by_cases hall : c.task.packet.size ≤ n
      · rw [if_pos hall] at hafter
        refine .answered u hafter hrequest ?_
        rw [List.take_of_length_le (by rw [length_offered]; exact hall)]
        exact hsent
      · rw [if_neg hall] at hafter
        refine .answering u hafter hrequest (packetWithin_onSend hwithin (by omega)) ?_
        rw [offered_onSend hn, List.append_assoc, List.take_append_drop]
        exact hsent
  | _ => simp_all

theorem standing_failed {lost : Bool} (h : c.Standing lost) (hstep : c.step .failed = some c') :
    lost = false ∧ c'.Standing true ∧ c.SameBehind c' := by
  cases h with
  | waiting v hpending hread hsent =>
      simp only [step, hpending] at hstep
      cases hstep
      exact ⟨rfl, .lostWaiting v _ rfl hread hsent, fun _ _ => rfl⟩
  | answering u hpending hrequest _ hsent =>
      simp only [step, hpending] at hstep
      cases hstep
      exact ⟨rfl, .lostAnswering u rfl hrequest ⟨_, hsent⟩, fun _ _ => rfl⟩
  | _ => simp_all [step]

end Standing

/-! ### Every run -/

theorem standing_run {memory : Memory Byte} {es : List Completion} {c : Connection}
    (h : runSteps step (start memory) es = some c) :
    c.Standing (decide (.failed ∈ es)) ∧ (start memory).SameBehind c := by
  refine runSteps_induction (I := fun es c =>
    c.Standing (decide (.failed ∈ es)) ∧ (start memory).SameBehind c) ?_ ?_ h
  · exact ⟨standing_start memory, fun _ _ => rfl⟩
  · rintro es c e c' ⟨hstanding, hbehind⟩ hstep
    have hnext : decide (.failed ∈ es) = false ∧ c'.Standing (decide (e = .failed)) ∧
        c.SameBehind c' := by
      cases e with
      | received data => exact standing_received hstanding hstep
      | sent n => exact standing_sent hstanding hstep
      | failed => exact standing_failed hstanding hstep
    obtain ⟨hlost, hstanding', hbehind'⟩ := hnext
    have hflag : decide (Completion.failed ∈ es ++ [e]) = decide (e = .failed) := by
      rw [decide_eq_false_iff_not] at hlost
      simp [hlost, eq_comm]
    exact ⟨hflag ▸ hstanding', fun x hx => (hbehind' x hx).trans (hbehind x hx)⟩

theorem received_run {memory : Memory Byte} {es : List Completion} {c : Connection}
    (h : runSteps step (start memory) es = some c) : c.received = es.flatMap Completion.data := by
  refine runSteps_induction (I := fun es c => c.received = es.flatMap Completion.data) rfl ?_ h
  intro es c e c' hreceived hstep
  rw [List.flatMap_append, ← hreceived, List.flatMap_singleton]
  cases e with
  | received data =>
      obtain ⟨-, hstep⟩ := Option.ite_none_right_eq_some.mp hstep
      obtain rfl := Option.some.inj hstep
      rfl
  | sent n =>
      obtain ⟨-, hstep⟩ := Option.ite_none_right_eq_some.mp hstep
      obtain rfl := Option.some.inj hstep
      exact (List.append_nil _).symm
  | failed =>
      cases hpending : c.task.pending <;> simp only [step, hpending] at hstep <;> cases hstep <;>
        exact (List.append_nil _).symm

theorem buffer_start (memory : Memory Byte) {x : ℕ} (hx : BufferSize ≤ x) :
    (start memory).task.buffer x = memory x := by
  have hend : 0 + (List.replicate BufferSize (0 : Byte)).length ≤ x := by
    rw [List.length_replicate]
    omega
  exact Memory.write_of_ge _ hend

/-- What has been sent is a part of one response. -/
theorem sent_run {memory : Memory Byte} {es : List Completion} {c : Connection}
    (h : runSteps step (start memory) es = some c) :
    c.sent = [] ∨ ∃ m, BeginsWith c.received m ∧ c.sent <+: response m.thirdToken := by
  have hstanding := (standing_run h).1
  generalize decide (Completion.failed ∈ es) = lost at hstanding
  cases hstanding with
  | waiting _ _ _ hsent | refused _ _ hsent | lostWaiting _ _ _ _ hsent => exact .inl hsent
  | answering u _ hrequest _ hsent => exact .inr ⟨u.shown, hrequest.beginsWith, _, hsent⟩
  | answered u _ hrequest hsent =>
      exact .inr ⟨u.shown, hrequest.beginsWith, hsent ▸ List.prefix_rfl⟩
  | lostAnswering u _ hrequest hsent => exact .inr ⟨u.shown, hrequest.beginsWith, hsent⟩

/-- **A client gets one response, and nothing else.** Whatever a client sends, in whatever
pieces it arrives, however many bytes each send takes and whatever fails: nothing is
written behind the task's buffer, and what is sent lies within it. A task that still
receives has been given no request and has sent nothing. A task that sends has been given
a request, and has sent its response up to what is left to send. A task that is over
without a failure has sent the whole response to the first request, or nothing when what
it was given can no longer become one; after a failure the client has a part of that. -/
theorem one_response (memory : Memory Byte) (es : List Completion) (c : Connection)
    (h : runSteps step (start memory) es = some c) :
    (∀ x, BufferSize ≤ x → c.task.buffer x = memory x) ∧
    match c.task.pending with
    | .receive => c.sent = [] ∧ ∀ m, ¬ BeginsWith c.received m
    | .send => c.task.packet.ptr + c.task.packet.size ≤ BufferSize ∧ c.task.offered ≠ [] ∧
        ∃ m, BeginsWith c.received m ∧ c.sent ++ c.task.offered = response m.thirdToken
    | .nothing =>
        if .failed ∈ es then
          c.sent = [] ∧ (∀ m, ¬ BeginsWith c.received m) ∨
            ∃ m, BeginsWith c.received m ∧ c.sent <+: response m.thirdToken
        else
          c.sent = [] ∧ Hopeless c.received ∨
            ∃ m, BeginsWith c.received m ∧ c.sent = response m.thirdToken := by
  obtain ⟨hstanding, hbehind⟩ := standing_run h
  refine ⟨fun x hx => (hbehind x hx).trans (buffer_start memory hx), ?_⟩
  generalize hlost : decide (Completion.failed ∈ es) = lost at hstanding
  cases hstanding with
  | waiting v hpending hread hsent =>
      rw [hpending]
      exact ⟨hsent, not_beginsWith_of_reads hread⟩
  | answering u hpending hrequest hwithin hsent =>
      rw [hpending]
      refine ⟨hwithin.le, ?_, u.shown, hrequest.beginsWith, hsent⟩
      rw [← List.length_pos_iff, length_offered]
      exact hwithin.pos
  | answered u hpending hrequest hsent =>
      rw [hpending]
      simp only [if_neg (of_decide_eq_false hlost)]
      exact .inr ⟨u.shown, hrequest.beginsWith, hsent⟩
  | refused hpending hrefused hsent =>
      rw [hpending]
      simp only [if_neg (of_decide_eq_false hlost)]
      exact .inl ⟨hsent, hrefused.hopeless⟩
  | lostWaiting v t hpending hread hsent =>
      rw [hpending]
      simp only [if_pos (of_decide_eq_true hlost)]
      exact .inl ⟨hsent, not_beginsWith_of_reads hread⟩
  | lostAnswering u hpending hrequest hsent =>
      rw [hpending]
      simp only [if_pos (of_decide_eq_true hlost)]
      exact .inr ⟨u.shown, hrequest.beginsWith, hsent⟩

theorem one_response_two_sends : ∃ c,
    runSteps step (start fun _ => 0) [.received (str "a b c\r\n\r\n"), .sent 1, .sent 191] =
      some c ∧ ∃ m, BeginsWith c.received m ∧ c.sent = response m.thirdToken := by
  have hrun : (runSteps step (start fun _ => 0)
      [.received (str "a b c\r\n\r\n"), .sent 1, .sent 191]).map
        (fun c => (c.task.pending, c.sent.length)) = some (.nothing, 192) := by decide +kernel
  obtain ⟨c, hc, hover⟩ := Option.map_eq_some_iff.mp hrun
  obtain ⟨hpending, hlength⟩ := Prod.mk.inj hover
  have hone := (one_response (fun _ => 0) _ c hc).2
  rw [hpending] at hone
  rcases hone with ⟨hnothing, -⟩ | hresponse
  · simp [hnothing] at hlength
  · exact ⟨c, hc, hresponse⟩

/-! ### Requests that arrive -/

/-- Parts of a request are taken one after the other. -/
theorem run_received {c : Connection} {data : List Bytes} {z v : Bytes} {u : MessageParser}
    (hpending : c.task.pending = .receive) (hfits : ∀ d ∈ data, d.length ≤ BufferSize)
    (hz : z ≠ [])
    (hacc : MessageParser.machine.Accepts c.task.requestParser (data.flatten ++ z) u v) :
    ∃ c' v', runSteps step c (data.map .received) = some c' ∧ c'.task.pending = .receive ∧
      c'.sent = c.sent ∧ MessageParser.machine.Accepts c'.task.requestParser z u v' := by
  induction data generalizing c v with
  | nil => exact ⟨c, v, rfl, hpending, rfl, hacc⟩
  | cons d data ih =>
      obtain ⟨hd, hdata⟩ := List.forall_mem_cons.mp hfits
      rw [List.flatten_cons, List.append_assoc] at hacc
      obtain ⟨v₁, t, v₂, hread, hrest⟩ := hacc.exists_reads (by simp [hz])
      obtain ⟨c', v', hrun, hpending', hsent, hacc'⟩ :=
        ih (c := ⟨(c.taking d t).asyncReceive, c.received ++ d, c.sent⟩) rfl hdata hrest
      refine ⟨c', v', ?_, hpending', hsent, hacc'⟩
      rw [List.map_cons, runSteps_cons, step_received_of_reads hpending hd hread]
      exact hrun

theorem run_sent {c : Connection} {ns : List ℕ} (hpending : c.task.pending = .send)
    (hpos : ∀ n ∈ ns, 0 < n) (hsize : 0 < c.task.packet.size)
    (hsum : ns.sum = c.task.packet.size) :
    ∃ c', runSteps step c (ns.map .sent) = some c' ∧ c'.sent = c.sent ++ c.task.offered ∧
      c'.task.pending = .nothing := by
  induction ns generalizing c with
  | nil =>
      rw [List.sum_nil] at hsum
      omega
  | cons n ns ih =>
      rw [List.sum_cons] at hsum
      obtain ⟨hn, hns⟩ := List.forall_mem_cons.mp hpos
      have hstep := step_sent hpending (n := n) (by omega)
      have hafter := pending_onSend c.task n
      rw [List.map_cons, runSteps_cons, hstep]
      rcases Nat.lt_or_ge n c.task.packet.size with hpart | hall
      · rw [if_neg (by omega)] at hafter
        have hpacket := packet_onSend c.task n
        obtain ⟨c', hrun, hsent, hover⟩ := ih
          (c := ⟨c.task.onSend false n, c.received, c.sent ++ c.task.offered.take n⟩) hafter hns
          (by rw [hpacket]; exact Nat.sub_pos_of_lt hpart)
          (by rw [hpacket]; exact Nat.eq_sub_of_add_eq' hsum)
        refine ⟨c', hrun, ?_, hover⟩
        rw [hsent, offered_onSend (by omega), List.append_assoc, List.take_append_drop]
      · -- this was the last send, since every further one would take something
        rw [if_pos hall] at hafter
        have hnone : ns = [] := by
          cases ns with
          | nil => rfl
          | cons n' ns =>
              have hn' := hns n' (by simp)
              rw [List.sum_cons] at hsum
              omega
        subst hnone
        refine ⟨_, rfl, ?_, hafter⟩
        rw [List.take_of_length_le (by rw [length_offered]; exact hall)]

/-- A request arrives in pieces, and its response is taken in several sends. -/
def exchange (data : List Bytes) (last : Bytes) (ns : List ℕ) : List Completion :=
  data.map .received ++ .received last :: ns.map .sent

/-- A request arrives in any pieces that the buffer has room for, with anything behind it
in the last of them, and the sends take any numbers of bytes, none of them zero, that make
up the response: then the client has the whole response, and the connection is over. -/
theorem run_request (memory : Memory Byte) (w rest : Bytes) (m : Shown) (body : Bytes)
    (h : MessageParser.Accepted requestLimits w m body) (data : List Bytes) (last : Bytes)
    (hdata : data.flatten ++ last = w ++ rest) (hlast : data.flatten.length < w.length)
    (hfits : ∀ d ∈ last :: data, d.length ≤ BufferSize) (ns : List ℕ)
    (hpos : ∀ n ∈ ns, 0 < n) (hsum : ns.sum = (response m.thirdToken).length) :
    ∃ c, runSteps step (start memory) (exchange data last ns) = some c ∧
      c.sent = response m.thirdToken ∧ c.task.pending = .nothing := by
  obtain ⟨u, hacc, rfl⟩ := MessageParser.accepted_iff_machine.mp h
  obtain ⟨hlastfits, hdatafits⟩ := List.forall_mem_cons.mp hfits
  obtain ⟨z, rfl, hz⟩ : ∃ z, w = data.flatten ++ z ∧ last = z ++ rest := by
    rcases List.append_eq_append_iff.mp hdata with ⟨z, hw, hz⟩ | ⟨z, hw, -⟩
    · exact ⟨z, hw, hz⟩
    · rw [hw, List.length_append] at hlast
      omega
  have hne : z ≠ [] := by
    rintro rfl
    simp at hlast
  obtain ⟨c₁, v₁, hrun, hpending, hsent, hacc₁⟩ :=
    run_received (c := start memory) rfl hdatafits hne hacc
  have hstep := step_received_of_accepts hpending hlastfits hz hacc₁
  have hthird : (c₁.taking last u).requestParser.thirdToken.length ≤ 24 :=
    length_thirdToken_le hacc
  have hsending := pending_respond hthird
  have hsize := (packetWithin_respond hthird).pos
  have hoffered : (c₁.taking last u).respond.offered = response u.thirdToken :=
    offered_respond hthird
  generalize (c₁.taking last u).respond = task at hstep hsending hsize hoffered
  obtain ⟨c₂, hrun₂, hsent₂, hover⟩ := run_sent
    (c := ⟨task, c₁.received ++ last, c₁.sent⟩) hsending hpos hsize
    (by rw [hsum, ← length_offered, hoffered]; rfl)
  refine ⟨c₂, ?_, ?_, hover⟩
  · rw [exchange, runSteps_append_of_eq hrun, runSteps_cons, hstep]
    exact hrun₂
  · rw [hsent₂, hsent, hoffered]
    exact List.nil_append _

end Connection

end Httpxx
