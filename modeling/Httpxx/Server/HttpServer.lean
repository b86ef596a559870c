import Httpxx.Server.Response

/-!
The server of `examples/httpd_file_browser.cpp`: an acceptor that waits for one client at
a time, and the tasks of the clients that have come. The handlers run one after the other
in `service.run()`, in whatever order the operations of the acceptor and of the sockets
complete; it returns when no operation is pending any more.

The connections form a family of which each runs for itself. An accept that fails is not
started again, so that the first failure ends the accepting for good.
-/

namespace Httpxx

open Library HttpTask

/-- An operation completes: the accept, with the memory that a new task is put into, or
the pending operation of a connection. -/
inductive ServerEvent
  | accept (error : Bool) (memory : Memory Byte)
  | complete (i : ℕ) (completion : Completion)

/-- The server: whether an accept is pending, and the connections in the order in which
they were accepted. -/
structure HttpServer where
  accepting : Bool
  connections : List Connection

namespace HttpServer

def start : HttpServer := ⟨true, []⟩

/-- `accept_handler`, when the accept is no longer pending. -/
def acceptHandler (s : HttpServer) (error : Bool) (memory : Memory Byte) : HttpServer :=
  if error then s
  else { s with accepting := true, connections := s.connections ++ [Connection.start memory] }

def step (s : HttpServer) : ServerEvent → Option HttpServer
  | .accept error memory =>
      if s.accepting then some ({ s with accepting := false }.acceptHandler error memory) else none
  | .complete i completion => do
      let c ← s.connections[i]?
      let c' ← c.step completion
      some { s with connections := s.connections.set i c' }

/-- No operation is pending, and `service.run()` returns. -/
def Idle (s : HttpServer) : Prop :=
  s.accepting = false ∧ ∀ c ∈ s.connections, c.task.pending = .nothing

end HttpServer

namespace ServerEvent

def family? : ServerEvent → Option (FamilyEvent Connection Completion)
  | accept true _ => none
  | accept false memory => some (.joins (.start memory))
  | complete i completion => some (.moves i completion)

def own? (i : ℕ) : ServerEvent → Option Completion
  | accept _ _ => none
  | complete j completion => if j = i then some completion else none

def isAcceptError : ServerEvent → Bool
  | accept error _ => error
  | complete _ _ => false

def isClient : ServerEvent → Bool
  | accept error _ => !error
  | complete _ _ => false

end ServerEvent

namespace HttpServer

variable {es : List ServerEvent} {s : HttpServer}

/-! ### The family of connections -/

theorem run_family (h : runSteps step start es = some s) :
    runSteps (stepFamily Connection.step) [] (es.filterMap ServerEvent.family?) =
      some s.connections := by
  refine runSteps_induction (I := fun es s => runSteps (stepFamily Connection.step) []
    (es.filterMap ServerEvent.family?) = some s.connections) rfl ?_ h
  intro es s e s' hrun hstep
  rw [List.filterMap_append, runSteps_append_of_eq hrun]
  cases e with
  | accept error memory =>
      obtain ⟨-, hstep⟩ := Option.ite_none_right_eq_some.mp hstep
      obtain rfl := Option.some.inj hstep
      cases error <;> rfl
  | complete i completion =>
      simp only [step, bind, Option.bind_eq_some_iff, Option.some.injEq] at hstep
      obtain ⟨c, hc, c', hc', rfl⟩ := hstep
      exact (runSteps_singleton _).trans (stepFamily_moves_iff.mpr ⟨c, c', hc, hc', rfl⟩)

theorem own?_family? (es : List ServerEvent) (i : ℕ) :
    (es.filterMap ServerEvent.family?).filterMap (FamilyEvent.own? i) =
      es.filterMap (ServerEvent.own? i) := by
  rw [List.filterMap_filterMap]
  refine List.filterMap_congr fun e _ => ?_
  cases e with
  | accept error memory => cases error <;> rfl
  | complete j completion => rfl

theorem connection_run (h : runSteps step start es = some s) {i : ℕ} {c : Connection}
    (hc : s.connections[i]? = some c) :
    ∃ memory, runSteps Connection.step (.start memory) (es.filterMap (ServerEvent.own? i)) =
      some c := by
  obtain ⟨c₀, hc₀, hrun⟩ := (runFamily_member (run_family h)).own i c hc
  obtain ⟨e, he, hjoined⟩ := List.mem_filterMap.mp (List.mem_of_getElem? hc₀)
  rw [own?_family?] at hrun
  obtain ⟨event, -, hevent⟩ := List.mem_filterMap.mp he
  cases event with
  | accept error memory =>
      cases error with
      | true => cases hevent
      | false =>
          cases hevent
          cases hjoined
          exact ⟨memory, hrun⟩
  | complete j completion =>
      cases hevent
      cases hjoined

theorem length_connections (h : runSteps step start es = some s) :
    s.connections.length = es.countP ServerEvent.isClient := by
  rw [← (runFamily_member (run_family h)).joined, List.filterMap_filterMap,
    List.length_filterMap_eq_countP]
  refine List.countP_congr fun e _ => ?_
  cases e with
  | accept error memory => cases error <;> rfl
  | complete i completion => rfl

/-! ### The acceptor -/

theorem accepting_run (h : runSteps step start es = some s) :
    s.accepting = !es.any ServerEvent.isAcceptError := by
  refine runSteps_induction
    (I := fun es s => s.accepting = !es.any ServerEvent.isAcceptError) rfl ?_ h
  intro es s e s' haccepting hstep
  rw [List.any_append, Bool.not_or, ← haccepting]
  cases e with
  | accept error memory =>
      obtain ⟨hpending, hstep⟩ := Option.ite_none_right_eq_some.mp hstep
      obtain rfl := Option.some.inj hstep
      cases error <;> simp [acceptHandler, ServerEvent.isAcceptError, hpending]
  | complete i completion =>
      simp only [step, bind, Option.bind_eq_some_iff, Option.some.injEq] at hstep
      obtain ⟨c, -, c', -, rfl⟩ := hstep
      simp [ServerEvent.isAcceptError]

theorem not_accept_after_error {es₁ es₂ : List ServerEvent} {e : ServerEvent}
    (h : runSteps step start (es₁ ++ e :: es₂) = some s) (he : e.isAcceptError = true)
    (error : Bool) (memory : Memory Byte) : .accept error memory ∉ es₂ := by
  intro hmem
  obtain ⟨x, y, rfl⟩ := List.append_of_mem hmem
  have hsplit : es₁ ++ e :: (x ++ .accept error memory :: y) =
      (es₁ ++ e :: x) ++ (.accept error memory :: y) := by simp
  rw [hsplit, runSteps_append, Option.bind_eq_some_iff] at h
  obtain ⟨u, hu, hrest⟩ := h
  rw [runSteps_cons, Option.bind_eq_some_iff] at hrest
  obtain ⟨u', hstep, -⟩ := hrest
  have haccepting := accepting_run hu
  obtain ⟨hpending, -⟩ := Option.ite_none_right_eq_some.mp hstep
  rw [hpending] at haccepting
  simp [he] at haccepting

/-- **Clients are served apart.** In whatever order the operations complete, each
connection has made the steps of its own completions alone, and what its client has got is
a part of the response to the first request in the bytes that this client has sent. There
is a connection for every client that was accepted; the server accepts until an accept
fails, after which none completes any more, and only then can `service.run()` return. -/
theorem clients_served_apart (es : List ServerEvent) (s : HttpServer)
    (h : runSteps step start es = some s) :
    (∀ i c, s.connections[i]? = some c →
      (∃ memory, runSteps Connection.step (.start memory) (es.filterMap (ServerEvent.own? i)) =
        some c) ∧
      (c.sent = [] ∨ ∃ m, Connection.BeginsWith
          ((es.filterMap (ServerEvent.own? i)).flatMap Completion.data) m ∧
        c.sent <+: response m.thirdToken)) ∧
    s.connections.length = es.countP ServerEvent.isClient ∧
    (s.accepting = true ↔ ∀ e ∈ es, e.isAcceptError = false) ∧
    (s.Idle → ∃ e ∈ es, e.isAcceptError = true) ∧
    ∀ es₁ e es₂, es = es₁ ++ e :: es₂ → e.isAcceptError = true →
      ∀ error memory, .accept error memory ∉ es₂ := by
  have haccepting := accepting_run h
  refine ⟨fun i c hc => ?_, length_connections h, ?_, fun hidle => ?_, ?_⟩
  · obtain ⟨memory, hrun⟩ := connection_run h hc
    refine ⟨⟨memory, hrun⟩, ?_⟩
    rw [← Connection.received_run hrun]
    exact Connection.sent_run hrun
  · rw [haccepting]
    simp
  · rw [hidle.1] at haccepting
    simpa using haccepting
  · rintro es₁ e es₂ rfl he
    exact not_accept_after_error h he

/-- Two clients, of which the second is answered and the first goes away in the middle of its
request. -/
theorem clients_served_apart_two : ∃ s c₀ c₁,
    runSteps step start [.accept false fun _ => 0, .accept false fun _ => 0,
      .complete 0 (.received (str "a b")), .complete 1 (.received (str "a b c\r\n\r\n")),
      .complete 1 (.sent 192), .complete 0 .failed] = some s ∧
    s.connections = [c₀, c₁] ∧ c₀.sent = [] ∧ c₁.sent = response (str "c") ∧
    (∃ memory, runSteps Connection.step (.start memory)
      [.received (str "a b c\r\n\r\n"), .sent 192] = some c₁) ∧
    s.accepting = true := by
  have hsent : (runSteps step start [.accept false fun _ => 0, .accept false fun _ => 0,
      .complete 0 (.received (str "a b")), .complete 1 (.received (str "a b c\r\n\r\n")),
      .complete 1 (.sent 192), .complete 0 .failed]).map
        (fun s => s.connections.map Connection.sent) = some [[], response (str "c")] := by
    decide +kernel
  obtain ⟨s, hrun, hmap⟩ := Option.map_eq_some_iff.mp hsent
  obtain ⟨hclients, -, haccepting, -, -⟩ := clients_served_apart _ s hrun
  obtain ⟨c₀, cs, hs, hfirst, hrest⟩ := List.map_eq_cons_iff.mp hmap
  obtain ⟨c₁, rest, rfl, hsecond, hnil⟩ := List.map_eq_cons_iff.mp hrest
  obtain rfl := List.map_eq_nil_iff.mp hnil
  have hown := (hclients 1 c₁ (by rw [hs]; rfl)).1
  exact ⟨s, c₀, c₁, hrun, hs, hfirst, hsecond, hown,
    haccepting.mpr (by simp [ServerEvent.isAcceptError])⟩

/-! ### The next client -/

theorem run_complete {i : ℕ} {c c' : Connection} {completions : List Completion}
    (hc : s.connections[i]? = some c) (h : runSteps Connection.step c completions = some c') :
    runSteps step s (completions.map (.complete i)) =
      some { s with connections := s.connections.set i c' } := by
  obtain ⟨hi, rfl⟩ := List.getElem?_eq_some_iff.mp hc
  have hrun : runSteps step { s with connections := s.connections.set i s.connections[i] }
      (completions.map (.complete i)) = some { s with connections := s.connections.set i c' } :=
    runSteps_map (fun c => ({ s with connections := s.connections.set i c } : HttpServer)) _
      (fun c e c' hstep => by simp [step, hi, hstep]) h
  simpa using hrun

/-- **The next client is served.** While no accept has failed, and whatever the other
connections wait for, a client that comes and sends a request is answered in full, however
its bytes are cut and its response is taken, as long as every send takes a byte; the other
connections are as they were, and the server accepts again. -/
theorem next_client_answered (es : List ServerEvent) (s : HttpServer)
    (h : runSteps step start es = some s) (hes : ∀ e ∈ es, e.isAcceptError = false)
    (memory : Memory Byte) (w rest : Bytes) (m : Shown) (body : Bytes)
    (hm : MessageParser.Accepted requestLimits w m body) (data : List Bytes) (last : Bytes)
    (hdata : data.flatten ++ last = w ++ rest) (hlast : data.flatten.length < w.length)
    (hfits : ∀ d ∈ last :: data, d.length ≤ BufferSize) (ns : List ℕ)
    (hpos : ∀ n ∈ ns, 0 < n) (hsum : ns.sum = (response m.thirdToken).length) :
    ∃ c, runSteps step start (es ++ .accept false memory ::
        (Connection.exchange data last ns).map (.complete s.connections.length)) =
        some ⟨true, s.connections ++ [c]⟩ ∧
      c.sent = response m.thirdToken ∧ c.task.pending = .nothing := by
  obtain ⟨c, hrun, hsent, hover⟩ :=
    Connection.run_request memory w rest m body hm data last hdata hlast hfits ns hpos hsum
  refine ⟨c, ?_, hsent, hover⟩
  have haccepting : s.accepting = true := by
    rw [accepting_run h]
    simpa using hes
  have hstep : s.step (.accept false memory) =
      some ⟨true, s.connections ++ [.start memory]⟩ := by
    rw [step, if_pos haccepting]
    rfl
  have hnew : (⟨true, s.connections ++ [.start memory]⟩ : HttpServer).connections[
      s.connections.length]? = some (.start memory) := by simp
  rw [runSteps_append_of_eq h, runSteps_cons, hstep, Option.bind_some, run_complete hnew hrun]
  simp

theorem next_client_answered_silent : ∃ c,
    runSteps step start ([.accept false fun _ => 0] ++ .accept false (fun _ => 0) ::
        (Connection.exchange [] (str "a b c\r\n\r\n") [192]).map (.complete 1)) =
        some ⟨true, [.start fun _ => 0] ++ [c]⟩ ∧
      c.sent = response (str "c") ∧ c.task.pending = .nothing := by
  have hfirst : runSteps step start [.accept false fun _ => 0] =
      some ⟨true, [.start fun _ => 0]⟩ := runSteps_singleton _
  exact next_client_answered _ _ hfirst (by simp [ServerEvent.isAcceptError]) (fun _ => 0)
    (str "a b c\r\n\r\n") [] ⟨str "a", str "b", str "c", ∅⟩ [] (by decide +kernel) []
    (str "a b c\r\n\r\n") (by decide) (by decide) (by decide) [192] (by decide)
    (by decide +kernel)

end HttpServer

end Httpxx
