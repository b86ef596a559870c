import Httpxx.Composer.Buffers
import Httpxx.MessageParser
import Httpxx.Uri

/-!
The task of `examples/httpd_file_browser.cpp` that serves one client. Its one buffer
takes what is received and, when a request is complete, the response, which is composed
in place: the body behind `EnvelopePartSize` bytes, and the envelope right before it.

A task waits for the completion of one operation of its socket. A handler that starts no
further operation leaves the task without an owner: it is destroyed, and the socket is
closed. Its buffer is the first `BufferSize` bytes of a memory, so that it can be said
what happens to the bytes behind it. What the handlers log is left out.
-/

namespace Httpxx

open Library

def BufferSize : ℕ := 4096

def EnvelopePartSize : ℕ := 1024

/-- Lists a directory; as it stands, the same for every path. -/
def listDirectory (_path : Bytes) (out : OStream) : OStream :=
  let out := out.putString (str "<html><head><title>Filesystem browser</title></head><body>" ++
    str "<p>Directory listing:</p>")
  out.putString (str "<p><i>TODO</i></p></body></html>")

inductive Pending
  | receive
  | send
  /-- The task is destroyed and the socket closed. -/
  | nothing
  deriving DecidableEq, Repr

/-- The state of a task, less its socket. -/
structure HttpTask where
  buffer : Memory Byte
  requestParser : MessageParser
  packet : Packet
  pending : Pending

namespace HttpTask

def requestLimits : Limits := .withDefaults 24 1024 24

def create (memory : Memory Byte) : HttpTask where
  buffer := memory.write 0 (List.replicate BufferSize 0)
  requestParser := .create requestLimits
  packet := ⟨0, 0⟩
  pending := .nothing

def asyncReceive (task : HttpTask) : HttpTask := { task with pending := .receive }

def asyncSend (task : HttpTask) : HttpTask := { task with pending := .send }

/-- The return from a handler that has started no operation. -/
def finish (task : HttpTask) : HttpTask := { task with pending := .nothing }

def asyncExecute (task : HttpTask) : HttpTask := task.asyncReceive

/-- The part of `on_receive` that composes and sends the response. -/
def respond (task : HttpTask) : HttpTask :=
  let body := listDirectory (Uri.ofString task.requestParser.secondToken).path .fresh
  if body.contents.length > BufferSize - EnvelopePartSize then task.finish
  else
    let buffer := MessageComposer.copy body.contents task.buffer EnvelopePartSize
      body.contents.length
    let headers := Headers.add ∅ (str "Content-Type") (str "text/html")
    let headers := Headers.add headers (str "Connection") (str "close")
    let responseComposer : MessageComposer :=
      ⟨task.requestParser.thirdToken, str "200", str "OK"⟩
    let outcome := responseComposer.prependEnvelope 0 EnvelopePartSize headers
      body.contents.length buffer
    match outcome.answer with
    | .error _ => { task with buffer := outcome.memory }.finish
    | .ok packet => { task with buffer := outcome.memory, packet := packet }.asyncSend

/-- The handler of a completed receive. The stream the request's body goes to has no
buffer and keeps nothing. -/
def onReceive (task : HttpTask) (error : Bool) (bytesTransferred : ℕ) : HttpTask :=
  if error then task.finish
  else
    match task.requestParser.parseBuffer (task.buffer.read 0 bytesTransferred) .fresh with
    | .error e => { task with requestParser := e.thrown.parser }.finish
    | .ok res =>
        let task := { task with requestParser := res.parser }
        if !res.completeMessageDetected then task.asyncReceive else task.respond

def onSend (task : HttpTask) (error : Bool) (bytesTransferred : ℕ) : HttpTask :=
  if error then task.finish
  else
    let task := { task with
      packet := ⟨task.packet.ptr + bytesTransferred, task.packet.size - bytesTransferred⟩ }
    if task.packet.size ≤ 0 then task.finish else task.asyncSend

/-- The bytes that a pending send offers to the socket. -/
def offered (task : HttpTask) : Bytes := task.buffer.read task.packet.ptr task.packet.size

/-! ### The response -/

def listing : Bytes :=
  str "<html><head><title>Filesystem browser</title></head><body><p>Directory listing:</p>" ++
    str "<p><i>TODO</i></p></body></html>"

def responseHeaders : Headers :=
  (∅ : Headers).insertAll [(str "Connection", str "close"), (str "Content-Length", str "115"),
    (str "Content-Type", str "text/html")]

/-- What a response says of its status and its body. -/
def afterVersion : Bytes :=
  str " 200 OK\r\nConnection: close\r\nContent-Length: 115\r\n" ++
    str "Content-Type: text/html\r\n\r\n"

def response (thirdToken : Bytes) : Bytes := thirdToken ++ afterVersion ++ listing

theorem contents_listDirectory (path : Bytes) :
    (listDirectory path .fresh).contents = listing := by
  rw [listDirectory, OStream.putString_of_width rfl, OStream.putString_of_width rfl]
  rfl

theorem length_listing : listing.length = 115 := by decide +kernel

theorem afterVersion_eq : afterVersion = SP :: str "200" ++ SP :: str "OK" ++ [CR, LF] ++
    responseHeaders.entries.flatMap MessageComposer.headerLine ++ [CR, LF] := by
  decide +kernel

theorem contents_envelope (thirdToken : Bytes) :
    (MessageComposer.composeEnvelope ⟨thirdToken, str "200", str "OK"⟩ .fresh
      (Headers.add (Headers.add ∅ (str "Content-Type") (str "text/html")) (str "Connection")
        (str "close")) listing.length).contents = thirdToken ++ afterVersion := by
  have hsent : MessageComposer.identityHeaders
      (Headers.add (Headers.add ∅ (str "Content-Type") (str "text/html")) (str "Connection")
        (str "close")) listing.length = responseHeaders := by decide +kernel
  rw [MessageComposer.composeEnvelope_eq rfl, hsent, afterVersion_eq]
  simp [OStream.contents, OStream.fresh, MessageComposer.head, MessageComposer.firstLine]

/-- The response is composed in the buffer: its body behind the envelope part, and the
envelope right before it. There is room for both. -/
theorem respond_eq (task : HttpTask) {e : Bytes}
    (he : e = task.requestParser.thirdToken ++ afterVersion) (hroom : e.length ≤ EnvelopePartSize) :
    task.respond = { task with
      buffer := (task.buffer.write EnvelopePartSize listing).write (EnvelopePartSize - e.length) e
      packet := ⟨EnvelopePartSize - e.length, e.length + listing.length⟩
      pending := .send } := by
  have hbody : ¬ listing.length > BufferSize - EnvelopePartSize := by
    rw [length_listing]
    decide
  have henvelope := contents_envelope task.requestParser.thirdToken
  rw [← he] at henvelope
  have hcomposed : (Except.ok (MessageComposer.composeEnvelope
      ⟨task.requestParser.thirdToken, str "200", str "OK"⟩ .fresh
      (Headers.add (Headers.add ∅ (str "Content-Type") (str "text/html")) (str "Connection")
        (str "close")) listing.length) : Except ComposeError OStream).map OStream.contents =
      .ok e := congrArg Except.ok henvelope
  simp only [respond, contents_listDirectory, if_neg hbody, MessageComposer.prependEnvelope,
    MessageComposer.prepend_ok 0 listing.length _ hcomposed, if_neg (Nat.not_lt.mpr hroom),
    MessageComposer.copy, List.take_length, Nat.zero_add, asyncSend]

theorem length_envelope_le {thirdToken : Bytes} (h : thirdToken.length ≤ 24) :
    (thirdToken ++ afterVersion).length ≤ EnvelopePartSize := by
  have hafter : afterVersion.length = 76 := by decide +kernel
  rw [List.length_append, hafter, EnvelopePartSize]
  omega

/-- The packet of a task lies within its buffer. -/
structure PacketWithin (task : HttpTask) : Prop where
  le : task.packet.ptr + task.packet.size ≤ BufferSize
  pos : 0 < task.packet.size

section Respond

variable {task : HttpTask} (h : task.requestParser.thirdToken.length ≤ 24)
include h

theorem offered_respond : task.respond.offered = response task.requestParser.thirdToken := by
  have hroom := length_envelope_le h
  rw [respond_eq task rfl hroom, offered,
    Memory.read_write_append (b := EnvelopePartSize) _ (by omega), Memory.read_write]
  rfl

theorem pending_respond : task.respond.pending = .send := by
  rw [respond_eq task rfl (length_envelope_le h)]

theorem packetWithin_respond : task.respond.PacketWithin := by
  have hroom := length_envelope_le h
  have hlisting := length_listing
  rw [respond_eq task rfl hroom]
  refine ⟨?_, ?_⟩
  · simp only [EnvelopePartSize, BufferSize] at *
    omega
  · simp only [hlisting]
    omega

theorem buffer_respond {x : ℕ} (hx : BufferSize ≤ x) : task.respond.buffer x = task.buffer x := by
  have hroom := length_envelope_le h
  have hlisting := length_listing
  rw [respond_eq task rfl hroom]
  simp only [EnvelopePartSize, BufferSize] at *
  rw [Memory.write_of_ge _ (by omega), Memory.write_of_ge _ (by omega)]

end Respond

end HttpTask

end Httpxx
