import Httpxx.Headers
import Httpxx.StringUtils

/-!
The streaming parser of `src/message_parser.cpp`, function by function.

A method may throw in the middle of an update, and what it changed before stays
changed. So a method returns the parser it leaves, and a throw carries, beside
the exception, the parser as it is at that moment (`Thrown`). Nothing is rolled
back: that a rejected byte leaves no trace is a theorem, not a convention.

`_pos`, `_line` and `_col` are of type `size_t`, 64 bits wide, and advance
modulo `2 ^ 64`; `Exception` takes them as `int`. The two body counters are
compared with lengths read by `toUnsignedInt` and are natural numbers here.
-/

namespace Httpxx

open Library

inductive State
  | parsingMessage
  | parsingLeadingSP
  | parsingFirstToken
  | parsingFirstTokenSP
  | parsingSecondToken
  | parsingSecondTokenSP
  | parsingThirdToken
  | parsingFirstLineLF
  | parsingHeader
  | parsingHeaderName
  | parsingHeaderValue
  | parsingHeaderValueLF
  | parsingHeaderValueLWS
  | parsingEndOfHeader
  | parsingIdentityBody
  | parsingChunkSize
  | parsingChunkSizeLF
  | parsingChunkExtension
  | parsingChunk
  | parsingChunkCR
  | parsingChunkLF
  | parsingTrailerHeader
  | parsingTrailerHeaderName
  | parsingTrailerHeaderValue
  | parsingTrailerHeaderValueLF
  | parsingTrailerHeaderValueLWS
  | parsingFinalLF
  deriving DecidableEq, Repr

inductive Code
  | invalidFirstToken
  | firstTokenIsTooLong
  | invalidSecondToken
  | secondTokenIsTooLong
  | invalidThirdToken
  | thirdTokenIsTooLong
  | invalidFirstLineLF
  | tooManyHeaders
  | emptyHeaderName
  | invalidHeaderName
  | headerNameIsTooLong
  | headerIsMissingColon
  | invalidHeaderValue
  | headerValueIsTooLong
  | invalidHeaderLF
  | invalidContentLength
  | emptyChunkSize
  | invalidChunkSize
  | invalidChunkSizeLF
  | invalidChunkDataCR
  | invalidChunkDataLF
  | invalidFinalLF
  | invalidState
  deriving DecidableEq, Repr

/-- HTTP-message parser exception. -/
structure Exception where
  /-- Character, which caused an error. -/
  ch : Byte
  /-- Position of the error in the HTTP-message (starts from 0). -/
  pos : ℤ
  /-- Line of the error in the HTTP-message (starts from 1). -/
  line : ℤ
  /-- Column of the error in the HTTP-message (starts from 1). -/
  col : ℤ
  /-- Error code. -/
  code : Code
  deriving DecidableEq, Repr

/-- Conversion of a `size_t` to `int`, 32 bits wide and in two's complement. -/
def toInt (n : ℕ) : ℤ := (n : ℤ).bmod (2 ^ 32)

structure Limits where
  maxFirstTokenLength : ℕ
  maxSecondTokenLength : ℕ
  maxThirdTokenLength : ℕ
  maxHeaderNameLength : ℕ
  maxHeaderValueLength : ℕ
  maxHeadersAmount : ℕ
  deriving DecidableEq, Repr

/-- The maxima of a parser that is constructed with the first three only. -/
def Limits.withDefaults (maxFirstTokenLength maxSecondTokenLength maxThirdTokenLength : ℕ) :
    Limits where
  maxFirstTokenLength := maxFirstTokenLength
  maxSecondTokenLength := maxSecondTokenLength
  maxThirdTokenLength := maxThirdTokenLength
  maxHeaderNameLength := 256
  maxHeaderValueLength := 4096
  maxHeadersAmount := 256

structure MessageParser where
  state : State
  pos : ℕ
  line : ℕ
  col : ℕ
  firstToken : Bytes
  secondToken : Bytes
  thirdToken : Bytes
  headerFieldName : Bytes
  headerFieldValue : Bytes
  headers : Headers
  contentLength : ℕ
  identityBodyBytesParsed : ℕ
  chunkSizeStr : Bytes
  chunkSize : ℕ
  chunkBytesParsed : ℕ
  limits : Limits
  deriving DecidableEq

/-- An exception in flight, with the parser as it is when it is thrown. -/
structure Thrown where
  exception : Exception
  parser : MessageParser
  deriving DecidableEq

/-- What `parse(char, bool *)` tells its caller about an accepted character. -/
structure Flags where
  /-- The value stored through the `isBodyChar` pointer. -/
  isBodyChar : Bool
  /-- The return value. -/
  completed : Bool
  deriving DecidableEq, Repr

namespace MessageParser

def create (limits : Limits) : MessageParser where
  state := .parsingMessage
  pos := 0
  line := 1
  col := 1
  firstToken := []
  secondToken := []
  thirdToken := []
  headerFieldName := []
  headerFieldValue := []
  headers := ∅
  contentLength := 0
  identityBodyBytesParsed := 0
  chunkSizeStr := []
  chunkSize := 0
  chunkBytesParsed := 0
  limits := limits

def setMaxHeaderNameLength (p : MessageParser) (newValue : ℕ) : MessageParser :=
  { p with limits := { p.limits with maxHeaderNameLength := newValue } }

def setMaxHeaderValueLength (p : MessageParser) (newValue : ℕ) : MessageParser :=
  { p with limits := { p.limits with maxHeaderValueLength := newValue } }

def setMaxHeadersAmount (p : MessageParser) (newValue : ℕ) : MessageParser :=
  { p with limits := { p.limits with maxHeadersAmount := newValue } }

/-- Returns TRUE if the whole HTTP-message has been completely parsed. -/
def isCompleted (p : MessageParser) : Bool := p.state == .parsingMessage

def bodyExpected (p : MessageParser) : Bool :=
  p.state == .parsingIdentityBody || p.state == .parsingChunk

def reset (p : MessageParser) : MessageParser :=
  { p with
    state := .parsingMessage
    pos := 0
    line := 1
    col := 1
    firstToken := []
    secondToken := []
    thirdToken := []
    headerFieldName := []
    headerFieldValue := []
    headers := ∅
    contentLength := 0
    identityBodyBytesParsed := 0
    chunkSizeStr := []
    chunkSize := 0
    chunkBytesParsed := 0 }

def throwing {α : Type} (p : MessageParser) (ch : Byte) (code : Code) : Except Thrown α :=
  .error ⟨⟨ch, toInt p.pos, toInt p.line, toInt p.col, code⟩, p⟩

def appendHeader (p : MessageParser) (ch : Byte) : Except Thrown MessageParser :=
  if p.headers.size ≥ p.limits.maxHeadersAmount then p.throwing ch .tooManyHeaders
  else
    let p := { p with headerFieldName := trim p.headerFieldName }
    let p := { p with headerFieldValue := trim p.headerFieldValue }
    let p := { p with headers := p.headers.insert (p.headerFieldName, p.headerFieldValue) }
    .ok { p with headerFieldName := [], headerFieldValue := [] }

def parseHeader (p : MessageParser) (ch : Byte) (isTrailer : Bool) :
    Except Thrown MessageParser :=
  let p := { p with headerFieldName := [], headerFieldValue := [] }
  if isCarriageReturn ch then
    .ok { p with state := if isTrailer then .parsingFinalLF else .parsingEndOfHeader }
  else if ch == colon then p.throwing ch .emptyHeaderName
  else if isToken ch then
    -- the name is empty here, so its length is not checked
    .ok { p with
      headerFieldName := p.headerFieldName ++ [ch]
      state := if isTrailer then .parsingTrailerHeaderName else .parsingHeaderName }
  else p.throwing ch .invalidHeaderName

def parseHeaderName (p : MessageParser) (ch : Byte) (isTrailer : Bool) :
    Except Thrown MessageParser :=
  if isCarriageReturn ch then p.throwing ch .headerIsMissingColon
  else if ch == colon then
    .ok { p with state := if isTrailer then .parsingTrailerHeaderValue else .parsingHeaderValue }
  else if isToken ch then
    if p.headerFieldName.length < p.limits.maxHeaderNameLength then
      .ok { p with headerFieldName := p.headerFieldName ++ [ch] }
    else p.throwing ch .headerNameIsTooLong
  else p.throwing ch .invalidHeaderName

def parseHeaderValue (p : MessageParser) (ch : Byte) (isTrailer : Bool) :
    Except Thrown MessageParser :=
  if isCarriageReturn ch then
    .ok { p with
      state := if isTrailer then .parsingTrailerHeaderValueLF else .parsingHeaderValueLF }
  else if !isControl ch then
    if p.headerFieldValue.length < p.limits.maxHeaderValueLength then
      .ok { p with headerFieldValue := p.headerFieldValue ++ [ch] }
    else p.throwing ch .headerValueIsTooLong
  else p.throwing ch .invalidHeaderValue

def parseHeaderValueLF (p : MessageParser) (ch : Byte) (isTrailer : Bool) :
    Except Thrown MessageParser :=
  if isLineFeed ch then
    .ok { p with
      state := if isTrailer then .parsingTrailerHeaderValueLWS else .parsingHeaderValueLWS }
  else p.throwing ch .invalidHeaderLF

def parseHeaderValueLWS (p : MessageParser) (ch : Byte) (isTrailer : Bool) :
    Except Thrown MessageParser :=
  if isCarriageReturn ch then do
    let p ← p.appendHeader ch
    .ok { p with state := if isTrailer then .parsingFinalLF else .parsingEndOfHeader }
  else if ch == colon then p.throwing ch .emptyHeaderName
  else if isSpaceOrTab ch then
    if p.headerFieldValue.length < p.limits.maxHeaderValueLength then
      .ok { p with
        headerFieldValue := p.headerFieldValue ++ [SP]
        state := if isTrailer then .parsingTrailerHeaderValue else .parsingHeaderValue }
    else p.throwing ch .headerValueIsTooLong
  else if isToken ch then do
    let p ← p.appendHeader ch
    .ok { p with
      headerFieldName := p.headerFieldName ++ [ch]
      state := if isTrailer then .parsingTrailerHeaderName else .parsingHeaderName }
  else p.throwing ch .invalidHeaderName

/-- The `ParsingEndOfHeader` case: the LF that ends the header section decides
how the body is framed. -/
def parseEndOfHeader (p : MessageParser) (ch : Byte) : Except Thrown MessageParser :=
  if isLineFeed ch then
    if p.headers.haveValue (str "Transfer-Encoding") (str "chunked") then
      .ok { p with state := .parsingChunkSize }
    else if p.headers.haveHeader (str "Content-Length") then
      match toUnsignedInt (p.headers.value (str "Content-Length")) false with
      | .error _ => p.throwing ch .invalidContentLength
      | .ok contentLength =>
          let p := { p with contentLength := contentLength.toNat }
          if p.contentLength ≤ 0 then .ok { p with state := .parsingMessage }
          else .ok { p with state := .parsingIdentityBody }
    else .ok { p with state := .parsingMessage }
  else p.throwing ch .invalidHeaderLF

def parseChunkSize (p : MessageParser) (ch : Byte) : Except Thrown MessageParser :=
  if isHexDigit ch then .ok { p with chunkSizeStr := p.chunkSizeStr ++ [ch] }
  else if p.chunkSizeStr.isEmpty then p.throwing ch .emptyChunkSize
  else
    match toUnsignedInt p.chunkSizeStr true with
    | .error _ => p.throwing ch .invalidChunkSize
    | .ok chunkSize =>
        let p := { p with chunkSize := chunkSize.toNat }
        let p := { p with chunkBytesParsed := 0 }
        let p := { p with chunkSizeStr := [] }
        if isCarriageReturn ch then .ok { p with state := .parsingChunkSizeLF }
        else .ok { p with state := .parsingChunkExtension }

def parseState (p : MessageParser) (ch : Byte) : Except Thrown MessageParser :=
  match p.state with
  | .parsingMessage =>
      if isSpaceOrTab ch then .ok { p.reset with state := .parsingLeadingSP }
      else if isChar ch && !isControl ch then
        let p := p.reset
        .ok { p with firstToken := p.firstToken ++ [ch], state := .parsingFirstToken }
      else p.throwing ch .invalidFirstToken
  | .parsingLeadingSP =>
      if isSpaceOrTab ch then .ok p
      else if isChar ch && !isControl ch then
        .ok { p with firstToken := p.firstToken ++ [ch], state := .parsingFirstToken }
      else p.throwing ch .invalidFirstToken
  | .parsingFirstToken =>
      if isSpaceOrTab ch then .ok { p with state := .parsingFirstTokenSP }
      else if isChar ch && !isControl ch then
        if p.firstToken.length ≥ p.limits.maxFirstTokenLength then
          p.throwing ch .firstTokenIsTooLong
        else .ok { p with firstToken := p.firstToken ++ [ch] }
      else p.throwing ch .invalidFirstToken
  | .parsingFirstTokenSP =>
      -- the second token is empty here, so its length is not checked
      if isSpaceOrTab ch then .ok p
      else if isChar ch && !isControl ch then
        .ok { p with secondToken := p.secondToken ++ [ch], state := .parsingSecondToken }
      else p.throwing ch .invalidSecondToken
  | .parsingSecondToken =>
      if isSpaceOrTab ch then .ok { p with state := .parsingSecondTokenSP }
      else if isChar ch && !isControl ch then
        if p.secondToken.length ≥ p.limits.maxSecondTokenLength then
          p.throwing ch .secondTokenIsTooLong
        else .ok { p with secondToken := p.secondToken ++ [ch] }
      else p.throwing ch .invalidSecondToken
  | .parsingSecondTokenSP =>
      -- the third token is empty here, so its length is not checked
      if isSpaceOrTab ch then .ok p
      else if isChar ch && !isControl ch then
        .ok { p with thirdToken := p.thirdToken ++ [ch], state := .parsingThirdToken }
      else p.throwing ch .invalidThirdToken
  | .parsingThirdToken =>
      if isCarriageReturn ch then .ok { p with state := .parsingFirstLineLF }
      else if isChar ch && !isControl ch then
        if p.thirdToken.length ≥ p.limits.maxThirdTokenLength then
          p.throwing ch .thirdTokenIsTooLong
        else .ok { p with thirdToken := p.thirdToken ++ [ch] }
      else p.throwing ch .invalidThirdToken
  | .parsingFirstLineLF =>
      if isLineFeed ch then .ok { p with state := .parsingHeader }
      else p.throwing ch .invalidFirstLineLF
  | .parsingHeader => p.parseHeader ch false
  | .parsingHeaderName => p.parseHeaderName ch false
  | .parsingHeaderValue => p.parseHeaderValue ch false
  | .parsingHeaderValueLF => p.parseHeaderValueLF ch false
  | .parsingHeaderValueLWS => p.parseHeaderValueLWS ch false
  | .parsingEndOfHeader => p.parseEndOfHeader ch
  | .parsingIdentityBody =>
      let p := { p with identityBodyBytesParsed := p.identityBodyBytesParsed + 1 }
      if p.identityBodyBytesParsed ≥ p.contentLength then
        .ok { p with state := .parsingMessage }
      else .ok p
  | .parsingChunkSize => p.parseChunkSize ch
  | .parsingChunkExtension =>
      -- a chunk extension is ignored
      if isCarriageReturn ch then .ok { p with state := .parsingChunkSizeLF } else .ok p
  | .parsingChunkSizeLF =>
      if isLineFeed ch then
        .ok { p with
          state := if p.chunkSize > 0 then .parsingChunk else .parsingTrailerHeader }
      else p.throwing ch .invalidChunkSizeLF
  | .parsingChunk =>
      let p := { p with chunkBytesParsed := p.chunkBytesParsed + 1 }
      if p.chunkBytesParsed ≥ p.chunkSize then .ok { p with state := .parsingChunkCR }
      else .ok p
  | .parsingChunkCR =>
      if isCarriageReturn ch then .ok { p with state := .parsingChunkLF }
      else p.throwing ch .invalidChunkDataCR
  | .parsingChunkLF =>
      if isLineFeed ch then .ok { p with state := .parsingChunkSize }
      else p.throwing ch .invalidChunkDataLF
  | .parsingTrailerHeader => p.parseHeader ch true
  | .parsingTrailerHeaderName => p.parseHeaderName ch true
  | .parsingTrailerHeaderValue => p.parseHeaderValue ch true
  | .parsingTrailerHeaderValueLF => p.parseHeaderValueLF ch true
  | .parsingTrailerHeaderValueLWS => p.parseHeaderValueLWS ch true
  | .parsingFinalLF =>
      if isLineFeed ch then .ok { p with state := .parsingMessage }
      else p.throwing ch .invalidFinalLF

/-- Updating current position data, after the `switch`. -/
def updatePosition (p : MessageParser) (ch : Byte) : MessageParser :=
  let p := { p with pos := (p.pos + 1) % 2 ^ 64 }
  if isLineFeed ch then { p with line := (p.line + 1) % 2 ^ 64, col := 1 }
  else { p with col := (p.col + 1) % 2 ^ 64 }

/-- `parse(char, bool *)`: parses next character. -/
def parse (p : MessageParser) (ch : Byte) : Except Thrown (MessageParser × Flags) := do
  let bodyByteExtracted := p.bodyExpected
  let p ← p.parseState ch
  let p := p.updatePosition ch
  return (p, ⟨bodyByteExtracted, p.isCompleted⟩)

end MessageParser

/-- What `parse(buf, bufLen, os)` leaves behind when it returns. -/
structure Buffered where
  parser : MessageParser
  os : OStream
  /-- The complete message flag. -/
  completeMessageDetected : Bool
  /-- The amount of parsed bytes. -/
  bytesParsed : ℕ
  deriving DecidableEq

/-- What `parse(buf, bufLen, os)` leaves behind when a byte is rejected: the
exception, the stream, and its local count, which the byte is included in. -/
structure BufferThrown where
  thrown : Thrown
  os : OStream
  bytesParsed : ℕ
  deriving DecidableEq

def OStream.put (os : OStream) (ch : Byte) : OStream := os.append [ch]

namespace MessageParser

def parseBufferLoop (p : MessageParser) (os : OStream) (bytesParsed : ℕ) :
    Bytes → Except BufferThrown Buffered
  | [] => .ok ⟨p, os, false, bytesParsed⟩
  | ch :: rest =>
      match p.parse ch with
      | .error thrown => .error ⟨thrown, os, bytesParsed + 1⟩
      | .ok (p, flags) =>
          let os := if flags.isBodyChar then os.put ch else os
          if flags.completed then .ok ⟨p, os, true, bytesParsed + 1⟩
          else parseBufferLoop p os (bytesParsed + 1) rest

/-- `parse(buf, bufLen, os)`: parses buffer for an HTTP-message and stores its
body into the supplied stream. -/
def parseBuffer (p : MessageParser) (buf : Bytes) (os : OStream) :
    Except BufferThrown Buffered :=
  p.parseBufferLoop os 0 buf

end MessageParser

end Httpxx
