import Httpxx.Grammar.Acceptance
import Httpxx.Library.Reading
import Httpxx.Parser.Buffering

/-!
What a caller has been told at any moment. A stream that consists of messages arrives
in buffers of any sizes, and may have arrived in part only: parts of a message, one or
more messages, and messages followed by a part of one. The reports made so far are
those of the messages that have arrived completely, in their order, and the bytes
delivered so far are the first ones of their bodies.

A report is made with the byte that ends a message and is never taken back, so the
reports of a part of the stream are those of the whole that have come by then.
-/

namespace Httpxx

open Library

/-- A message in a stream: its bytes, and what they mean. -/
structure Delivered where
  wire : Bytes
  shown : Shown
  body : Bytes
  deriving DecidableEq

def Delivered.reportsFrom : ℕ → List Delivered → List Report
  | _, [] => []
  | offset, d :: ds =>
      ⟨offset + d.wire.length, d.shown, d.body⟩ :: reportsFrom (offset + d.wire.length) ds

theorem Delivered.offset_le_of_mem_reportsFrom {n : ℕ} {ds : List Delivered} {x : Report}
    (h : x ∈ reportsFrom n ds) : x.offset ≤ n + (ds.flatMap Delivered.wire).length := by
  induction ds generalizing n with
  | nil => simp [reportsFrom] at h
  | cons d ds ih =>
      rw [List.flatMap_cons, List.length_append]
      rcases List.mem_cons.mp h with rfl | h
      · simp only
        omega
      · have hrest := ih h
        omega

/-- When all has arrived there is no report to wait for. -/
theorem Delivered.filter_reportsFrom (ds : List Delivered) :
    (reportsFrom 0 ds).filter (fun x => x.offset ≤ (ds.flatMap Delivered.wire).length) =
      reportsFrom 0 ds := by
  refine List.filter_eq_self.mpr fun x hx => decide_eq_true ?_
  have hoffset := offset_le_of_mem_reportsFrom hx
  omega

theorem Delivered.map_reportsFrom (n : ℕ) (ds : List Delivered) :
    (reportsFrom n ds).map (fun x => (x.shown, x.body)) = ds.map fun d => (d.shown, d.body) := by
  induction ds generalizing n with
  | nil => rfl
  | cons d ds ih => rw [reportsFrom, List.map_cons, List.map_cons, ih]

/-! ### One call -/

theorem OStream.put_eq_append_emitted (os : OStream) (ch : Byte) (flags : Flags) :
    (if flags.isBodyChar then os.put ch else os) =
      os.append (MessageParser.machine.emitted ch flags) := by
  cases hflag : flags.isBodyChar <;>
    simp [Transducer.emitted, MessageParser.machine, hflag, OStream.put, OStream.append]

namespace MessageParser

theorem parseBuffer_of_reads {p q : MessageParser} {w v : Bytes} (h : machine.Reads p w v q)
    (os : OStream) : p.parseBuffer w os = .ok ⟨q, os.append v, false, w.length⟩ := by
  induction h generalizing os with
  | nil p => simp [parseBuffer_nil, OStream.append]
  | @cons p q r ch flags w v hstep hlast _ ih =>
      have hstep : p.parse ch = .ok (q, flags) := hstep
      have hlast : flags.completed = false := hlast
      rw [parseBuffer_cons, hstep]
      simp only [hlast, OStream.put_eq_append_emitted, Bool.false_eq_true, if_false, ih]
      rw [OStream.append_append, List.length_cons]

theorem parseBuffer_of_accepts {p u : MessageParser} {w v : Bytes} (h : machine.Accepts p w u v)
    (os : OStream) (rest : Bytes) :
    p.parseBuffer (w ++ rest) os = .ok ⟨u, os.append v, true, w.length⟩ := by
  induction h generalizing os with
  | @last p u ch flags hstep hlast =>
      have hstep : p.parse ch = .ok (u, flags) := hstep
      have hlast : flags.completed = true := hlast
      rw [List.cons_append, parseBuffer_cons, hstep]
      simp [hlast, OStream.put_eq_append_emitted]
  | @more p q u ch flags w v hstep hlast _ ih =>
      have hstep : p.parse ch = .ok (q, flags) := hstep
      have hlast : flags.completed = false := hlast
      rw [List.cons_append, parseBuffer_cons, hstep]
      simp only [hlast, OStream.put_eq_append_emitted, Bool.false_eq_true, if_false, ih]
      rw [OStream.append_append, List.length_cons]

/-- A call throws at a byte that is refused. -/
theorem exists_parseBuffer_of_refuses {p q : MessageParser} {x v : Bytes} {a : Byte}
    (h : machine.Reads p x v q) (ha : machine.Refuses q a) (os : OStream) (y : Bytes) :
    ∃ e, p.parseBuffer (x ++ a :: y) os = .error e := by
  induction h generalizing os with
  | nil p =>
      obtain ⟨thrown, hthrown⟩ := ha
      have hthrown : p.parse a = .error thrown := hthrown
      exact ⟨_, by rw [List.nil_append, parseBuffer_cons, hthrown]⟩
  | @cons p q r ch flags w v hstep hlast _ ih =>
      have hstep : p.parse ch = .ok (q, flags) := hstep
      have hlast : flags.completed = false := hlast
      obtain ⟨e, he⟩ := ih ha (os.append (machine.emitted ch flags))
      refine ⟨{ e with bytesParsed := e.bytesParsed + 1 }, ?_⟩
      rw [List.cons_append, parseBuffer_cons, hstep]
      simp only [hlast, OStream.put_eq_append_emitted, Bool.false_eq_true, if_false, he]

end MessageParser

namespace Reception

variable {lim : Limits} {r r' : Reception}

def start (p : MessageParser) (os : OStream) : Reception := ⟨p, os, 0, os.out.length, []⟩

/-! ### What is never taken back -/

/-- What is received goes on from what has been received. -/
structure Continues (r r' : Reception) : Prop where
  accepted : r.accepted ≤ r'.accepted
  reports : ∃ new, r'.reports = r.reports ++ new ∧
    ∀ x ∈ new, r.accepted < x.offset ∧ x.offset ≤ r'.accepted
  out : r.os.out <+: r'.os.out

theorem Continues.refl (r : Reception) : r.Continues r :=
  ⟨le_rfl, ⟨[], by simp, by simp⟩, List.prefix_rfl⟩

theorem Continues.trans {r'' : Reception} (h : r.Continues r') (h' : r'.Continues r'') :
    r.Continues r'' := by
  obtain ⟨new, hreports, hnew⟩ := h.reports
  obtain ⟨new', hreports', hnew'⟩ := h'.reports
  refine ⟨h.accepted.trans h'.accepted, ⟨new ++ new', ?_, ?_⟩, h.out.trans h'.out⟩
  · rw [hreports', hreports, List.append_assoc]
  · intro x hx
    rcases List.mem_append.mp hx with hx | hx
    · exact ⟨(hnew x hx).1, (hnew x hx).2.trans h'.accepted⟩
    · exact ⟨h.accepted.trans_lt (hnew' x hx).1, (hnew' x hx).2⟩

theorem receiveByte_continues {ch : Byte} (h : r.receiveByte ch = .ok r') :
    r.Continues r' ∧ r'.accepted = r.accepted + 1 := by
  unfold receiveByte at h
  cases hparse : r.parser.parse ch with
  | error thrown => simp [hparse] at h
  | ok x =>
      obtain ⟨p, flags⟩ := x
      simp only [hparse, Except.ok.injEq] at h
      have hout : r.os.out <+: (if flags.isBodyChar then r.os.put ch else r.os).out := by
        split
        · exact List.prefix_append _ _
        · exact List.prefix_rfl
      subst h
      split
      · exact ⟨⟨Nat.le_succ _, ⟨_, rfl, by simp [report]⟩, hout⟩, rfl⟩
      · exact ⟨⟨Nat.le_succ _, ⟨[], by simp, by simp⟩, hout⟩, rfl⟩

theorem receiveBytes_continues {s : Bytes} (h : r.receiveBytes s = .ok r') :
    r.Continues r' ∧ r'.accepted = r.accepted + s.length := by
  induction s generalizing r with
  | nil =>
      cases h
      exact ⟨.refl _, rfl⟩
  | cons ch s ih =>
      rw [receiveBytes_cons, bind_eq_ok_iff] at h
      obtain ⟨r₁, hbyte, hrest⟩ := h
      obtain ⟨hone, hcount⟩ := receiveByte_continues hbyte
      obtain ⟨hmore, hcount'⟩ := ih hrest
      exact ⟨hone.trans hmore, by rw [hcount', hcount, List.length_cons]; omega⟩

/-! ### Messages, one after the other -/

theorem receiveBytes_of_accepts {p u : MessageParser} {w v : Bytes}
    (h : MessageParser.machine.Accepts p w u v) (r : Reception) (hr : r.parser = p) :
    r.receiveBytes w = .ok { r with
      parser := u, os := r.os.append v, accepted := r.accepted + w.length }.report := by
  induction h generalizing r with
  | @last p u ch flags hstep hlast =>
      have hstep : r.parser.parse ch = .ok (u, flags) := hr ▸ hstep
      have hlast : flags.completed = true := hlast
      simp [receiveBytes_cons, receiveByte, hstep, hlast, OStream.put_eq_append_emitted, bind,
        Except.bind]
  | @more p q u ch flags w v hstep hlast _ ih =>
      have hstep : r.parser.parse ch = .ok (q, flags) := hr ▸ hstep
      have hlast : flags.completed = false := hlast
      rw [receiveBytes_cons]
      simp only [receiveByte, hstep, hlast, OStream.put_eq_append_emitted, Bool.false_eq_true,
        if_false]
      refine (ih _ rfl).trans ?_
      simp [Nat.add_assoc, Nat.add_comm 1]

/-- What is received of the bytes of messages, by a parser between messages. -/
theorem receiveBytes_of_messages (ds : List Delivered)
    (hds : ∀ d ∈ ds, MessageParser.Accepted lim d.wire d.shown d.body) (r : Reception)
    (hdone : r.parser.isCompleted = true) (hlim : r.parser.limits = lim)
    (hdelivered : r.delivered = r.os.out.length) :
    ∃ r', r.receiveBytes (ds.flatMap Delivered.wire) = .ok r' ∧
      r'.parser.isCompleted = true ∧
      r'.os.out = r.os.out ++ ds.flatMap Delivered.body ∧
      r'.reports = r.reports ++ Delivered.reportsFrom r.accepted ds := by
  induction ds generalizing r with
  | nil => exact ⟨r, rfl, hdone, by simp, by simp [Delivered.reportsFrom]⟩
  | cons d ds ih =>
      obtain ⟨hd, hrest⟩ := List.forall_mem_cons.mp hds
      obtain ⟨rs, hrun, hends, hshown, hpayload⟩ := hd
      -- the parser reads the message as a new one would
      have hrun' := MessageParser.run_eq_of_isCompleted hdone rfl
        (q := MessageParser.create lim) hlim hrun
      have hlast : Transducer.lastState r.parser rs =
          Transducer.lastState (MessageParser.create lim) rs := by
        obtain ⟨init, x, heq, -, -⟩ := hends
        simp [heq]
      obtain ⟨hdone', hlim'⟩ := MessageParser.isCompleted_of_accepts
        ⟨MessageParser.clean_create lim, rfl⟩
        ((Transducer.accepts_iff_run _ _ _ _ _).mpr ⟨rs, hrun, hends, rfl, rfl⟩)
      have hacc := (Transducer.accepts_iff_run _ _ _ _ _).mpr ⟨rs, hrun', hends, rfl, rfl⟩
      rw [hlast, hpayload] at hacc
      have hone := receiveBytes_of_accepts hacc r rfl
      obtain ⟨r', hmore, hcompleted, hout, hreports⟩ := ih hrest
        { r with
          parser := Transducer.lastState (MessageParser.create lim) rs
          os := r.os.append d.body
          accepted := r.accepted + d.wire.length }.report hdone' hlim' rfl
      refine ⟨r', ?_, hcompleted, ?_, ?_⟩
      · rw [List.flatMap_cons, receiveBytes_append, hone]
        exact hmore
      · rw [hout, List.flatMap_cons, ← List.append_assoc]
        rfl
      · rw [hreports]
        simp [report, Delivered.reportsFrom, hshown, hdelivered]

theorem told_of_arrived {p : MessageParser} (hp : MessageParser.BetweenMessages lim p)
    (os : OStream) {ds : List Delivered}
    (hds : ∀ d ∈ ds, MessageParser.Accepted lim d.wire d.shown d.body) {bufs : List Bytes}
    (hbufs : bufs.flatten <+: ds.flatMap Delivered.wire) :
    ∃ r, (start p os).receiveBuffers bufs = .ok r ∧
      r.reports = (Delivered.reportsFrom 0 ds).filter (fun x => x.offset ≤ bufs.flatten.length) ∧
      r.os.out <+: os.out ++ ds.flatMap Delivered.body ∧
      (bufs.flatten = ds.flatMap Delivered.wire →
        r.os.out = os.out ++ ds.flatMap Delivered.body ∧ r.parser.isCompleted = true) := by
  obtain ⟨hdone, hlim⟩ := hp.isCompleted
  obtain ⟨all, hall, hcompleted, hout, hreports⟩ :=
    receiveBytes_of_messages ds hds (start p os) hdone hlim rfl
  obtain ⟨rest, hrest⟩ := hbufs
  rw [← hrest, receiveBytes_append, bind_eq_ok_iff] at hall
  obtain ⟨r, hr, hlater⟩ := hall
  obtain ⟨hfirst, hcount⟩ := receiveBytes_continues hr
  obtain ⟨hnext, -⟩ := receiveBytes_continues hlater
  obtain ⟨new, hnew, hearly⟩ := hfirst.reports
  obtain ⟨new', hnew', hlate⟩ := hnext.reports
  have haccepted : r.accepted = bufs.flatten.length := by
    rw [hcount]
    exact Nat.zero_add _
  have hsplit : Delivered.reportsFrom 0 ds = new ++ new' := by
    rw [hnew', hnew] at hreports
    exact hreports.symm
  refine ⟨r, ?_, ?_, ?_, ?_⟩
  · rw [receiveBuffers_eq]
    exact hr
  · rw [hsplit, hnew, List.filter_append, List.filter_eq_self.mpr, List.filter_eq_nil_iff.mpr]
    · exact (List.append_nil _).symm
    · intro x hx
      have hoffset := (hlate x hx).1
      simp only [decide_eq_true_eq]
      omega
    · intro x hx
      have hoffset := (hearly x hx).2
      simp only [decide_eq_true_eq]
      omega
  · show r.os.out <+: (start p os).os.out ++ _
    rw [← hout]
    exact hnext.out
  · intro hfull
    have hnothing : rest = [] := by
      rw [hfull] at hrest
      exact List.append_right_eq_self.mp hrest
    rw [hnothing] at hlater
    cases hlater
    exact ⟨hout, hcompleted⟩

/-- **What has been told at any moment.** However much of a stream of messages has
arrived, and in whatever buffers, no exception has been thrown, the messages that have
arrived completely have been reported, each once, in order, at its offset and with its
meaning, and no other; and the bytes delivered are the first ones of the bodies. When
all has arrived, all bodies have been delivered and the parser is between messages. -/
theorem told_at_any_moment (lim : Limits) (p : MessageParser)
    (hp : MessageParser.BetweenMessages lim p) (os : OStream) (ds : List Delivered)
    (hds : ∀ d ∈ ds, MessageParser.Accepted lim d.wire d.shown d.body) (bufs : List Bytes)
    (hbufs : bufs.flatten <+: ds.flatMap Delivered.wire) :
    ∃ r, (start p os).receiveBuffers bufs = .ok r ∧
      r.reports = (Delivered.reportsFrom 0 ds).filter (fun x => x.offset ≤ bufs.flatten.length) ∧
      r.os.out <+: os.out ++ ds.flatMap Delivered.body ∧
      (bufs.flatten = ds.flatMap Delivered.wire →
        r.os.out = os.out ++ ds.flatMap Delivered.body ∧ r.parser.isCompleted = true) :=
  told_of_arrived hp os hds hbufs

theorem told_at_any_moment_one_and_a_half :
    ∃ r, (start (.create ⟨1, 1, 1, 1, 1, 1⟩) .fresh).receiveBuffers
        [str "a b c\r", str "\n\r\na"] = .ok r ∧
      r.reports = [⟨9, ⟨str "a", str "b", str "c", ∅⟩, []⟩] := by
  obtain ⟨r, hr, hreports, -, -⟩ := told_at_any_moment ⟨1, 1, 1, 1, 1, 1⟩ _
    (.reset []) .fresh
    [⟨str "a b c\r\n\r\n", ⟨str "a", str "b", str "c", ∅⟩, []⟩,
      ⟨str "a b c\r\n\r\n", ⟨str "a", str "b", str "c", ∅⟩, []⟩]
    (by decide +kernel) [str "a b c\r", str "\n\r\na"] (by decide)
  exact ⟨r, hr, hreports.trans (by decide +kernel)⟩

end Reception

end Httpxx
