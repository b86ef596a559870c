import Httpxx.Parser.Session

/-!
Two ways to receive a stream of messages. One gives the parser every byte and
collects those it flags. The other calls `parse(buf, bufLen, os)` on one buffer
after another, and offers the rest of a buffer again after each completed
message, as the callers of the class do. What is received does not depend on
which way it is, nor on how the stream is cut.

A `Reception` is what a caller has: the parser, the stream the body bytes went
to, and a report of every completed message with its offset in the stream.
-/

namespace Httpxx

open Library

/-- What a caller reads from the parser when a message is completed. -/
structure Report where
  /-- The number of bytes of the stream up to the end of the message. -/
  offset : ℕ
  shown : Shown
  body : Bytes
  deriving DecidableEq

/-- What has been received of a stream. -/
structure Reception where
  parser : MessageParser
  os : OStream
  /-- The number of bytes of the stream that were accepted. -/
  accepted : ℕ
  /-- The number of bytes in `os` when the present message began. -/
  delivered : ℕ
  reports : List Report
  deriving DecidableEq

/-- A rejected byte: the exception, and what has been received before it. -/
structure Failure where
  exception : Exception
  reception : Reception
  deriving DecidableEq

namespace Reception

def report (r : Reception) : Reception :=
  { r with
    reports := r.reports ++ [⟨r.accepted, r.parser.shown, r.os.out.drop r.delivered⟩]
    delivered := r.os.out.length }

def receiveByte (r : Reception) (ch : Byte) : Except Failure Reception :=
  match r.parser.parse ch with
  | .error thrown => .error ⟨thrown.exception, { r with parser := thrown.parser }⟩
  | .ok (p, flags) =>
      let r := { r with
        parser := p
        os := if flags.isBodyChar then r.os.put ch else r.os
        accepted := r.accepted + 1 }
      .ok (if flags.completed then r.report else r)

def receiveBytes (r : Reception) (s : Bytes) : Except Failure Reception :=
  s.foldlM receiveByte r

def taking (r : Reception) (b : Buffered) : Reception :=
  { r with parser := b.parser, os := b.os, accepted := r.accepted + b.bytesParsed }

def failing (r : Reception) (e : BufferThrown) : Failure :=
  ⟨e.thrown.exception,
    { r with
      parser := e.thrown.parser
      os := e.os
      accepted := r.accepted + e.bytesParsed - 1 }⟩

end Reception

/-! ### One call -/

namespace MessageParser

/-- The loop keeps its count apart from what it does. -/
theorem parseBufferLoop_add (p : MessageParser) (os : OStream) (n : ℕ) (buf : Bytes) :
    p.parseBufferLoop os n buf =
      match p.parseBufferLoop os 0 buf with
      | .error e => .error { e with bytesParsed := e.bytesParsed + n }
      | .ok b => .ok { b with bytesParsed := b.bytesParsed + n } := by
  induction buf generalizing p os n with
  | nil => simp [parseBufferLoop]
  | cons ch rest ih =>
      simp only [parseBufferLoop]
      cases p.parse ch with
      | error thrown => simp [Nat.add_comm]
      | ok r =>
          simp only
          split
          · simp [Nat.add_comm]
          · rw [ih, ih r.1 _ (0 + 1)]
            cases r.1.parseBufferLoop _ 0 rest <;> simp [Nat.add_comm, Nat.add_left_comm]

theorem parseBuffer_nil (p : MessageParser) (os : OStream) :
    p.parseBuffer [] os = .ok ⟨p, os, false, 0⟩ := rfl

/-- A call on a buffer is a call on its first byte and, unless that byte ends a
message, a call on the rest. -/
theorem parseBuffer_cons (p : MessageParser) (os : OStream) (ch : Byte) (rest : Bytes) :
    p.parseBuffer (ch :: rest) os =
      match p.parse ch with
      | .error thrown => .error ⟨thrown, os, 1⟩
      | .ok (q, flags) =>
          let os := if flags.isBodyChar then os.put ch else os
          if flags.completed then .ok ⟨q, os, true, 1⟩
          else
            match q.parseBuffer rest os with
            | .error e => .error { e with bytesParsed := e.bytesParsed + 1 }
            | .ok b => .ok { b with bytesParsed := b.bytesParsed + 1 } := by
  simp only [parseBuffer, parseBufferLoop]
  cases p.parse ch with
  | error thrown => rfl
  | ok r =>
      simp only
      split
      · rfl
      · rw [parseBufferLoop_add]

/-- What a call on a buffer promises its caller: how many bytes it takes, and
that it reads them as single calls do, up to the end of the first message. -/
structure Contract (p : MessageParser) (buf : Bytes) (b : Buffered) : Prop where
  le : b.bytesParsed ≤ buf.length
  all : b.completeMessageDetected = false → b.bytesParsed = buf.length
  pos : 0 < buf.length → 1 ≤ b.bytesParsed
  within : ∃ rs, machine.run p (buf.take b.bytesParsed) = .ok rs ∧
    b.parser = Transducer.lastState p rs ∧
    (b.completeMessageDetected = true → machine.EndsAtLast rs) ∧
    (b.completeMessageDetected = false → ∀ r ∈ rs, r.2.completed = false)

theorem contract_of_parseBuffer {p : MessageParser} {buf : Bytes} {os : OStream} {b : Buffered}
    (h : p.parseBuffer buf os = .ok b) : Contract p buf b := by
  induction buf generalizing p os b with
  | nil =>
      rw [parseBuffer_nil] at h
      injection h with h
      subst h
      exact ⟨le_rfl, fun _ => rfl, by simp, [], rfl, rfl, by simp, by simp⟩
  | cons ch rest ih =>
      rw [parseBuffer_cons] at h
      cases hparse : p.parse ch with
      | error thrown => simp [hparse] at h
      | ok r =>
          obtain ⟨q, flags⟩ := r
          simp only [hparse] at h
          cases hdone : flags.completed with
          | true =>
              simp only [hdone, if_true] at h
              injection h with h
              subst h
              have hrun : machine.run p [ch] = .ok [(q, flags)] :=
                (Transducer.run_cons_ok_iff _ _ _ _ _).mpr ⟨_, [], hparse, rfl, rfl⟩
              exact ⟨by simp, by simp, by simp, _, hrun, rfl,
                fun _ => (Transducer.endsAtLast_singleton _ _).mpr hdone, by simp⟩
          | false =>
              simp only [hdone, Bool.false_eq_true, if_false] at h
              -- the byte ends no message, so the call goes on with the rest of the buffer
              cases hrest : q.parseBuffer rest (if flags.isBodyChar then os.put ch else os) with
              | error e => simp [hrest] at h
              | ok b' =>
                  simp only [hrest] at h
                  injection h with h
                  subst h
                  obtain ⟨hle, hall, -, rs, hrun, hlast, hends, hnone⟩ := ih hrest
                  refine ⟨by simpa using hle, fun hd => by simpa using hall hd, by simp,
                    (q, flags) :: rs, ?_, by simpa using hlast, ?_, ?_⟩
                  · exact (Transducer.run_cons_ok_iff _ _ _ _ _).mpr ⟨_, rs, hparse, hrun, rfl⟩
                  · intro hd
                    have hne : rs ≠ [] := by
                      rintro rfl
                      obtain ⟨init, r, heq, -, -⟩ := hends hd
                      simp at heq
                    exact (Transducer.endsAtLast_cons _ _ _ hne).mpr ⟨hdone, hends hd⟩
                  · intro hd r hr
                    rcases List.mem_cons.mp hr with rfl | hr
                    · exact hdone
                    · exact hnone hd r hr

theorem bytesParsed_pos {p : MessageParser} {buf : Bytes} {os : OStream} {b : Buffered}
    (h : p.parseBuffer buf os = .ok b) (hdone : b.completeMessageDetected = true) :
    0 < b.bytesParsed ∧ 0 < buf.length := by
  have hcontract := contract_of_parseBuffer h
  have hbuf : 0 < buf.length := by
    cases buf with
    | nil =>
        rw [parseBuffer_nil] at h
        injection h with h
        subst h
        cases hdone
    | cons ch rest => simp
  exact ⟨hcontract.pos hbuf, hbuf⟩

end MessageParser

/-! ### The whole stream -/

namespace Reception

/-- Give the parser a buffer, and again what it leaves of the buffer after every
completed message. -/
def receiveBuffer (r : Reception) (buf : Bytes) : Except Failure Reception :=
  match _hcall : r.parser.parseBuffer buf r.os with
  | .error e => .error (r.failing e)
  | .ok b =>
      if _hdone : b.completeMessageDetected = true then
        (r.taking b).report.receiveBuffer (buf.drop b.bytesParsed)
      else .ok (r.taking b)
termination_by buf.length
decreasing_by
  have hpos := MessageParser.bytesParsed_pos _hcall _hdone
  rw [List.length_drop]
  omega

def receiveBuffers (r : Reception) (bufs : List Bytes) : Except Failure Reception :=
  bufs.foldlM receiveBuffer r

@[simp] theorem receiveBytes_nil (r : Reception) : r.receiveBytes [] = .ok r := rfl

theorem receiveBytes_cons (r : Reception) (ch : Byte) (s : Bytes) :
    r.receiveBytes (ch :: s) = r.receiveByte ch >>= fun r => r.receiveBytes s := rfl

theorem receiveBytes_append (r : Reception) (s t : Bytes) :
    r.receiveBytes (s ++ t) = r.receiveBytes s >>= fun r => r.receiveBytes t :=
  List.foldlM_append

/-- Byte by byte, a buffer is received as one call receives it, and then what the
call leaves of it. -/
theorem receiveBytes_eq_parseBuffer (r : Reception) (buf : Bytes) :
    r.receiveBytes buf =
      match r.parser.parseBuffer buf r.os with
      | .error e => .error (r.failing e)
      | .ok b =>
          if b.completeMessageDetected then
            (r.taking b).report.receiveBytes (buf.drop b.bytesParsed)
          else .ok (r.taking b) := by
  induction buf generalizing r with
  | nil => rfl
  | cons ch rest ih =>
      rw [receiveBytes_cons, MessageParser.parseBuffer_cons]
      cases hparse : r.parser.parse ch with
      | error thrown => simp [receiveByte, hparse, failing, bind, Except.bind]
      | ok x =>
          obtain ⟨q, flags⟩ := x
          cases hdone : flags.completed with
          | true => simp [receiveByte, hparse, hdone, taking, bind, Except.bind]
          | false =>
              simp only [receiveByte, hparse, hdone, bind, Except.bind, Bool.false_eq_true,
                if_false]
              rw [ih]
              simp only
              cases q.parseBuffer rest (if flags.isBodyChar then r.os.put ch else r.os) with
              | error e => simp [failing, Nat.add_assoc, Nat.add_comm 1]
              | ok b =>
                  have htaking : ∀ os, taking { r with
                      parser := q, os := os, accepted := r.accepted + 1 } b =
                        r.taking { b with bytesParsed := b.bytesParsed + 1 } := by
                    intro os
                    simp [taking, Nat.add_assoc, Nat.add_comm 1]
                  simp [htaking]

theorem receiveBuffer_eq (r : Reception) (buf : Bytes) :
    r.receiveBuffer buf = r.receiveBytes buf := by
  induction hn : buf.length using Nat.strong_induction_on generalizing r buf with
  | h n ih =>
      rw [receiveBuffer, receiveBytes_eq_parseBuffer]
      split
      · rename_i e h
        simp [h]
      · rename_i b h
        simp only [h]
        split
        · rename_i hdone
          have hpos := MessageParser.bytesParsed_pos h hdone
          exact ih _ (by rw [List.length_drop]; omega) _ _ rfl
        · rfl

theorem receiveBuffers_eq (r : Reception) (bufs : List Bytes) :
    r.receiveBuffers bufs = r.receiveBytes bufs.flatten := by
  induction bufs generalizing r with
  | nil => rfl
  | cons buf bufs ih =>
      rw [List.flatten_cons, receiveBytes_append, ← receiveBuffer_eq]
      simp only [receiveBuffers, List.foldlM_cons]
      congr 1
      funext r
      exact ih r

/-- **However a stream is cut into buffers, the same is received of it**: the same
reports at the same offsets, the same bytes in the stream and the same parser, or
the same exception at the same byte with the same received before it. And every
call on a buffer keeps its contract. -/
theorem cutting_does_not_matter (lim : Limits) (calls : List Call) (os : OStream) :
    (∀ bufs : List Bytes,
      let r : Reception := ⟨(Session.after lim calls).parser, os, 0, os.out.length, []⟩
      r.receiveBuffers bufs = r.receiveBytes bufs.flatten) ∧
    ∀ (buf : Bytes) (b : Buffered),
      (Session.after lim calls).parser.parseBuffer buf os = .ok b →
        MessageParser.Contract (Session.after lim calls).parser buf b :=
  ⟨fun bufs => receiveBuffers_eq _ bufs, fun _ _ => MessageParser.contract_of_parseBuffer⟩

/-- The second half of a body and two more messages, cut without regard to their ends. -/
theorem cutting_does_not_matter_pipelined : ∃ p r b,
    (Session.after ⟨1, 1, 1, 17, 8, 1⟩
      ((str "a b c\r\nContent-Length: 2\r\n\r\nh").map .parse)).parser = p ∧
      receiveBuffers ⟨p, OStream.fresh.put 0x68, 0, 1, []⟩
        [str "id e", str " f\r\n\r", str "\ng h i\r\nTransfer-Encoding: chunked\r\n\r\n1\r",
          [], str "\nx\r\n0\r\n\r\n"] = .ok r ∧
      r.reports.map (fun x => (x.offset, x.shown.firstToken, x.body)) =
        [(1, str "a", str "i"), (10, str "d", []), (58, str "g", str "x")] ∧
      r.os.out = str "hix" ∧
      p.parseBuffer (str "id e") (OStream.fresh.put 0x68) = .ok b ∧
      (b.completeMessageDetected, b.bytesParsed) = (true, 1) ∧
      MessageParser.Contract p (str "id e") b := by
  obtain ⟨hbuffers, hcontract⟩ := cutting_does_not_matter ⟨1, 1, 1, 17, 8, 1⟩
    ((str "a b c\r\nContent-Length: 2\r\n\r\nh").map .parse) (OStream.fresh.put 0x68)
  have hreceived := hbuffers [str "id e", str " f\r\n\r",
    str "\ng h i\r\nTransfer-Encoding: chunked\r\n\r\n1\r", [], str "\nx\r\n0\r\n\r\n"]
  generalize hp : (Session.after ⟨1, 1, 1, 17, 8, 1⟩
    ((str "a b c\r\nContent-Length: 2\r\n\r\nh").map .parse)).parser = p at hreceived hcontract
  have hbytes : (receiveBytes ⟨p, OStream.fresh.put 0x68, 0, 1, []⟩ [str "id e", str " f\r\n\r",
      str "\ng h i\r\nTransfer-Encoding: chunked\r\n\r\n1\r", [],
      str "\nx\r\n0\r\n\r\n"].flatten).map (fun r =>
        (r.reports.map (fun x => (x.offset, x.shown.firstToken, x.body)), r.os.out)) =
      .ok ([(1, str "a", str "i"), (10, str "d", []), (58, str "g", str "x")], str "hix") := by
    rw [← hp]
    decide +kernel
  have hcall : (p.parseBuffer (str "id e") (OStream.fresh.put 0x68)).map
      (fun b => (b.completeMessageDetected, b.bytesParsed)) = .ok (true, 1) := by
    rw [← hp]
    decide +kernel
  obtain ⟨r, hr, hshown⟩ := map_eq_ok_iff.mp hbytes
  obtain ⟨b, hb, hdone⟩ := map_eq_ok_iff.mp hcall
  obtain ⟨hreports, hout⟩ := Prod.mk.inj hshown
  exact ⟨p, r, b, rfl, hreceived.trans hr, hreports, hout, hb, hdone, hcontract _ _ hb⟩

end Reception

end Httpxx
