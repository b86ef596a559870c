import Httpxx.Library.Memory
import Httpxx.MessageComposer

/-!
The buffer forms of the composer. Each one composes into a new stream, compares the
size with the room there is, and copies; a buffer form copies to the start of the
buffer, and a prepend form to right before the payload. The seven functions are two
rules, each applied to the stream composers. A function that throws returns the memory
as well, so that it can be said that nothing was written.

Pointers and sizes are natural numbers: what is added and subtracted stays within one
buffer.
-/

namespace Httpxx

open Library

/-- A `std::runtime_error` of a buffer form. -/
inductive BufferError
  | compose (error : ComposeError)
  | notEnoughBuffer (available needed : ℕ)
  deriving DecidableEq, Repr

def BufferError.what : BufferError → Bytes
  | .compose error => error.what
  | .notEnoughBuffer available needed =>
      let msg := OStream.fresh.putString (str "Not enough buffer for envelope: ")
      let msg := (msg.putUnsigned available).putString (str " bytes available, ")
      let msg := (msg.putUnsigned needed).putString (str " bytes needed")
      msg.contents

/-- What a buffer form returns or throws, and the memory it leaves. -/
structure Outcome (α : Type) where
  answer : Except BufferError α
  memory : Memory Byte

structure Packet where
  ptr : ℕ
  size : ℕ
  deriving DecidableEq, Repr

namespace MessageComposer

/-- `std::string::copy`: copies at most `count` characters. -/
def copy (s : Bytes) (mem : Memory Byte) (dest count : ℕ) : Memory Byte :=
  mem.write dest (s.take count)

/-- A buffer form of what is composed into a new stream. -/
def toBuffer (envelope : Except ComposeError OStream) (buffer bufLen : ℕ) (mem : Memory Byte) :
    Outcome ℕ :=
  match envelope with
  | .error error => ⟨.error (.compose error), mem⟩
  | .ok envelope =>
      let size := envelope.contents.length
      if size > bufLen then ⟨.error (.notEnoughBuffer bufLen size), mem⟩
      else ⟨.ok size, copy envelope.contents mem buffer size⟩

/-- A prepend form of what is composed into a new stream. -/
def prepend (envelope : Except ComposeError OStream) (buffer envelopePartLen payloadLen : ℕ)
    (mem : Memory Byte) : Outcome Packet :=
  match envelope with
  | .error error => ⟨.error (.compose error), mem⟩
  | .ok envelope =>
      let size := envelope.contents.length
      if size > envelopePartLen then ⟨.error (.notEnoughBuffer envelopePartLen size), mem⟩
      else
        let packetPtr := buffer + envelopePartLen - size
        ⟨.ok ⟨packetPtr, size + payloadLen⟩, copy envelope.contents mem packetPtr size⟩

def composeEnvelopeToBuffer (c : MessageComposer) (buffer bufLen : ℕ) (headers : Headers)
    (payloadLen : ℕ) (mem : Memory Byte) : Outcome ℕ :=
  toBuffer (.ok (c.composeEnvelope .fresh headers payloadLen)) buffer bufLen mem

def prependEnvelope (c : MessageComposer) (buffer envelopePartLen : ℕ) (headers : Headers)
    (payloadLen : ℕ) (mem : Memory Byte) : Outcome Packet :=
  prepend (.ok (c.composeEnvelope .fresh headers payloadLen)) buffer envelopePartLen payloadLen mem

def composeFirstChunkEnvelopeToBuffer (c : MessageComposer) (buffer bufLen : ℕ)
    (headers : Headers) (payloadLen : ℕ) (mem : Memory Byte) : Outcome ℕ :=
  toBuffer (c.composeFirstChunkEnvelope .fresh headers payloadLen) buffer bufLen mem

def prependFirstChunkEnvelope (c : MessageComposer) (buffer envelopePartLen : ℕ)
    (headers : Headers) (payloadLen : ℕ) (mem : Memory Byte) : Outcome Packet :=
  prepend (c.composeFirstChunkEnvelope .fresh headers payloadLen) buffer envelopePartLen
    payloadLen mem

def composeNextChunkEnvelopeToBuffer (buffer bufLen payloadLen : ℕ) (mem : Memory Byte) :
    Outcome ℕ :=
  toBuffer (composeNextChunkEnvelope .fresh payloadLen) buffer bufLen mem

def prependNextChunkEnvelope (buffer envelopePartLen payloadLen : ℕ) (mem : Memory Byte) :
    Outcome Packet :=
  prepend (composeNextChunkEnvelope .fresh payloadLen) buffer envelopePartLen payloadLen mem

def composeLastChunkToBuffer (buffer bufLen : ℕ) (headers : Headers) (mem : Memory Byte) :
    Outcome ℕ :=
  toBuffer (.ok (composeLastChunk .fresh headers)) buffer bufLen mem

/-! ### The two rules -/

/-- From an address on the bytes are written, and nothing else is changed. -/
structure WritesOnly (mem mem' : Memory Byte) (a : ℕ) (e : Bytes) : Prop where
  written : mem'.read a e.length = e
  before : ∀ x < a, mem' x = mem x
  after : ∀ x, a + e.length ≤ x → mem' x = mem x

theorem writesOnly_copy (e : Bytes) (mem : Memory Byte) (a : ℕ) :
    WritesOnly mem (copy e mem a e.length) a e := by
  rw [copy, List.take_length]
  exact ⟨mem.read_write a e, fun x hx => mem.write_of_lt e hx, fun x hx => mem.write_of_ge hx⟩

section Rules

variable {envelope : Except ComposeError OStream} (buffer payloadLen : ℕ) (mem : Memory Byte)

theorem toBuffer_error {error : ComposeError} (h : envelope.map OStream.contents = .error error)
    (bufLen : ℕ) : toBuffer envelope buffer bufLen mem = ⟨.error (.compose error), mem⟩ := by
  cases envelope with
  | error e =>
      obtain rfl : e = error := Except.error.inj h
      rfl
  | ok os => cases h

theorem prepend_error {error : ComposeError} (h : envelope.map OStream.contents = .error error)
    (envelopePartLen : ℕ) :
    prepend envelope buffer envelopePartLen payloadLen mem = ⟨.error (.compose error), mem⟩ := by
  cases envelope with
  | error e =>
      obtain rfl : e = error := Except.error.inj h
      rfl
  | ok os => cases h

theorem toBuffer_ok {e : Bytes} (h : envelope.map OStream.contents = .ok e) (bufLen : ℕ) :
    toBuffer envelope buffer bufLen mem =
      if bufLen < e.length then ⟨.error (.notEnoughBuffer bufLen e.length), mem⟩
      else ⟨.ok e.length, copy e mem buffer e.length⟩ := by
  cases envelope with
  | error error => cases h
  | ok os =>
      obtain rfl : os.contents = e := by simpa [Except.map] using h
      rfl

theorem prepend_ok {e : Bytes} (h : envelope.map OStream.contents = .ok e)
    (envelopePartLen : ℕ) :
    prepend envelope buffer envelopePartLen payloadLen mem =
      if envelopePartLen < e.length then ⟨.error (.notEnoughBuffer envelopePartLen e.length), mem⟩
      else ⟨.ok ⟨buffer + envelopePartLen - e.length, e.length + payloadLen⟩,
        copy e mem (buffer + envelopePartLen - e.length) e.length⟩ := by
  cases envelope with
  | error error => cases h
  | ok os =>
      obtain rfl : os.contents = e := by simpa [Except.map] using h
      rfl

end Rules

/-! ### The four compositions -/

/-- A composition, with what it is given. -/
inductive Composition
  | envelope (headers : Headers) (payloadLen : ℕ)
  | firstChunk (headers : Headers) (payloadLen : ℕ)
  | nextChunk (payloadLen : ℕ)
  | lastChunk (headers : Headers)

namespace Composition

variable (c : MessageComposer)

def stream : Composition → OStream → Except ComposeError OStream
  | .envelope headers payloadLen, target => .ok (c.composeEnvelope target headers payloadLen)
  | .firstChunk headers payloadLen, target => c.composeFirstChunkEnvelope target headers payloadLen
  | .nextChunk payloadLen, target => composeNextChunkEnvelope target payloadLen
  | .lastChunk headers, target => .ok (composeLastChunk target headers)

def buffered : Composition → ℕ → ℕ → Memory Byte → Outcome ℕ
  | .envelope headers payloadLen, buffer, bufLen, mem =>
      c.composeEnvelopeToBuffer buffer bufLen headers payloadLen mem
  | .firstChunk headers payloadLen, buffer, bufLen, mem =>
      c.composeFirstChunkEnvelopeToBuffer buffer bufLen headers payloadLen mem
  | .nextChunk payloadLen, buffer, bufLen, mem =>
      composeNextChunkEnvelopeToBuffer buffer bufLen payloadLen mem
  | .lastChunk headers, buffer, bufLen, mem => composeLastChunkToBuffer buffer bufLen headers mem

def prepended : Composition → Option (ℕ → ℕ → Memory Byte → Outcome Packet)
  | .envelope headers payloadLen => some fun buffer envelopePartLen mem =>
      c.prependEnvelope buffer envelopePartLen headers payloadLen mem
  | .firstChunk headers payloadLen => some fun buffer envelopePartLen mem =>
      c.prependFirstChunkEnvelope buffer envelopePartLen headers payloadLen mem
  | .nextChunk payloadLen => some fun buffer envelopePartLen mem =>
      prependNextChunkEnvelope buffer envelopePartLen payloadLen mem
  | .lastChunk _ => none

def payloadLen : Composition → ℕ
  | .envelope _ n | .firstChunk _ n | .nextChunk n => n
  | .lastChunk _ => 0

def written (k : Composition) : Except ComposeError Bytes :=
  (k.stream c .fresh).map OStream.contents

/-- The stream form appends the same to every stream of the default formatting. -/
theorem contents_stream (k : Composition) {target : OStream} (h : target.Plain) :
    (k.stream c target).map OStream.contents =
      (k.written c).map fun e => target.contents ++ e := by
  have hfresh := OStream.plain_fresh
  cases k with
  | envelope headers n =>
      rw [written, stream, stream, composeEnvelope_eq h.width, composeEnvelope_eq rfl]
      rfl
  | firstChunk headers n =>
      rcases Nat.eq_zero_or_pos n with rfl | hn
      · rfl
      · rw [written, stream, stream, composeFirstChunkEnvelope_eq h c headers hn,
          composeFirstChunkEnvelope_eq hfresh c headers hn]
        rfl
  | nextChunk n =>
      rcases Nat.eq_zero_or_pos n with rfl | hn
      · rfl
      · rw [written, stream, stream, composeNextChunkEnvelope_eq h hn,
          composeNextChunkEnvelope_eq hfresh hn]
        rfl
  | lastChunk headers =>
      rw [written, stream, stream, composeLastChunk_eq h.width, composeLastChunk_eq rfl]
      rfl

/-- The seven functions are the two rules, applied to the stream forms. -/
theorem buffered_eq (k : Composition) (buffer bufLen : ℕ) (mem : Memory Byte) :
    k.buffered c buffer bufLen mem = toBuffer (k.stream c .fresh) buffer bufLen mem := by
  cases k <;> rfl

theorem prepended_eq {k : Composition} {f : ℕ → ℕ → Memory Byte → Outcome Packet}
    (hf : f ∈ k.prepended c) (buffer envelopePartLen : ℕ) (mem : Memory Byte) :
    f buffer envelopePartLen mem =
      prepend (k.stream c .fresh) buffer envelopePartLen k.payloadLen mem := by
  cases k with
  | lastChunk headers => cases hf
  | _ =>
      obtain rfl := Option.some.inj hf
      rfl

end Composition

/-- The packet of a prepend form: the envelope has been written right before the payload,
nothing else has been changed, and the packet is both. -/
structure Prepended (mem : Memory Byte) (o : Outcome Packet) (buffer room payloadLen : ℕ)
    (e : Bytes) : Prop where
  answer : o.answer = .ok ⟨buffer + (room - e.length), e.length + payloadLen⟩
  writes : WritesOnly mem o.memory (buffer + (room - e.length)) e
  packet : o.memory.read (buffer + (room - e.length)) (e.length + payloadLen) =
    e ++ mem.read (buffer + room) payloadLen

/-- **The buffer forms agree with the stream form, and are atomic.** Let a composition
append `e` to a new stream; it then appends `e` to every stream of the default
formatting. When the stream form throws, or `e` is longer than the room there is, the
buffer form and the prepend form throw and leave the memory as it was. Otherwise the
buffer form writes `e` to the start of the buffer and returns its length, and the
prepend form writes `e` right before the payload and returns both as the packet; neither
changes any other byte. -/
theorem buffer_forms_agree (c : MessageComposer) (k : Composition) (buffer room : ℕ)
    (mem : Memory Byte) :
    (∀ target : OStream, target.Plain → (k.stream c target).map OStream.contents =
      (k.written c).map fun e => target.contents ++ e) ∧
    (∀ error, k.written c = .error error →
      k.buffered c buffer room mem = ⟨.error (.compose error), mem⟩ ∧
      ∀ f ∈ k.prepended c, f buffer room mem = ⟨.error (.compose error), mem⟩) ∧
    ∀ e, k.written c = .ok e →
      (room < e.length →
        k.buffered c buffer room mem = ⟨.error (.notEnoughBuffer room e.length), mem⟩ ∧
        ∀ f ∈ k.prepended c,
          f buffer room mem = ⟨.error (.notEnoughBuffer room e.length), mem⟩) ∧
      (e.length ≤ room →
        ((k.buffered c buffer room mem).answer = .ok e.length ∧
          WritesOnly mem (k.buffered c buffer room mem).memory buffer e) ∧
        ∀ f ∈ k.prepended c, Prepended mem (f buffer room mem) buffer room k.payloadLen e) := by
  refine ⟨fun target h => k.contents_stream c h, fun error h => ⟨?_, fun f hf => ?_⟩,
    fun e h => ⟨fun hlong => ⟨?_, fun f hf => ?_⟩, fun hfits => ⟨?_, fun f hf => ?_⟩⟩⟩
  · rw [k.buffered_eq, toBuffer_error buffer mem h]
  · rw [Composition.prepended_eq c hf, prepend_error buffer k.payloadLen mem h]
  · rw [k.buffered_eq, toBuffer_ok buffer mem h, if_pos hlong]
  · rw [Composition.prepended_eq c hf, prepend_ok buffer k.payloadLen mem h, if_pos hlong]
  · rw [k.buffered_eq, toBuffer_ok buffer mem h, if_neg (by omega)]
    exact ⟨rfl, writesOnly_copy e mem buffer⟩
  · have hptr : buffer + room - e.length = buffer + (room - e.length) := by omega
    rw [Composition.prepended_eq c hf, prepend_ok buffer k.payloadLen mem h, if_neg (by omega),
      hptr]
    refine ⟨rfl, writesOnly_copy e mem _, ?_⟩
    show (copy e mem _ e.length).read _ _ = _
    rw [copy, List.take_length]
    apply Memory.read_write_append
    omega

/-- The last chunk in a buffer that it fills. -/
theorem buffer_forms_agree_boundary :
    WritesOnly (fun _ => 0) (composeLastChunkToBuffer 100 7 ∅ fun _ => 0).memory 100
      (str "\r\n0\r\n\r\n") :=
  (((buffer_forms_agree ⟨[], [], []⟩ (.lastChunk ∅) 100 7 fun _ => 0).2.2 _ rfl).2 (by decide)).1.2

end MessageComposer

end Httpxx
