import Httpxx.Library.Transducer
import Httpxx.MessageParser

/-!
What the parser is for, without its bookkeeping: a machine over `Phase`, whose
states carry only what the rest of the message can depend on. The fields of
`MessageParser` that are stale or empty in a state have no counterpart in the
phase, the header and the trailer section share their phases, and positions are
left out. `Moves` says once what a step can do, guards included, and invariants of
the machine are proved by cases on it. `Httpxx.Parser.Refinement` shows that the
parser moves as this machine does, for every parser that a run can reach.
-/

namespace Httpxx

open Library

/-- What a parser shows of a message: `firstToken()`, `secondToken()`,
`thirdToken()` and `headers()`. -/
@[ext] structure Shown where
  firstToken : Bytes
  secondToken : Bytes
  thirdToken : Bytes
  headers : Headers
  deriving DecidableEq

def Shown.addHeader (m : Shown) (name value : Bytes) : Shown :=
  { m with headers := m.headers.insert (trim name, trim value) }

/-- How far into a message the parser is, and what it has gathered. -/
inductive Phase
  /-- Between messages; the last one is still shown. -/
  | message (shown : Shown)
  | leadingSP
  | firstToken (t₁ : Bytes)
  | firstTokenSP (t₁ : Bytes)
  | secondToken (t₁ t₂ : Bytes)
  | secondTokenSP (t₁ t₂ : Bytes)
  | thirdToken (t₁ t₂ t₃ : Bytes)
  | firstLineLF (m : Shown)
  | header (isTrailer : Bool) (m : Shown)
  | headerName (isTrailer : Bool) (m : Shown) (name : Bytes)
  | headerValue (isTrailer : Bool) (m : Shown) (name value : Bytes)
  | headerValueLF (isTrailer : Bool) (m : Shown) (name value : Bytes)
  | headerValueLWS (isTrailer : Bool) (m : Shown) (name value : Bytes)
  /-- After the CR of the empty line that ends a header or trailer section. -/
  | endOfHeader (isTrailer : Bool) (m : Shown)
  | identityBody (m : Shown) (length parsed : ℕ)
  | chunkSize (m : Shown) (digits : Bytes)
  | chunkExtension (m : Shown) (size : ℕ)
  | chunkSizeLF (m : Shown) (size : ℕ)
  | chunk (m : Shown) (size parsed : ℕ)
  | chunkCR (m : Shown)
  | chunkLF (m : Shown)
  deriving DecidableEq

/-- How the body of a message is delimited. -/
inductive Framing
  | none
  | identity (length : ℕ)
  | chunked
  deriving DecidableEq, Repr

/-- The framing that the headers ask for; a length that cannot be read is an
error. -/
def framing (headers : Headers) : Except ConversionError Framing :=
  if headers.haveValue (str "Transfer-Encoding") (str "chunked") then .ok .chunked
  else if headers.haveHeader (str "Content-Length") then
    (toUnsignedInt (headers.value (str "Content-Length")) false).map fun n => .identity n.toNat
  else .ok .none

theorem framing_identity_lt {headers : Headers} {n : ℕ}
    (h : framing headers = .ok (.identity n)) : n < 2 ^ 32 := by
  unfold framing at h
  split_ifs at h
  · simp at h
  · cases hread : toUnsignedInt (headers.value (str "Content-Length")) false with
    | error e => simp [hread, Except.map] at h
    | ok m =>
        obtain rfl : m.toNat = n := by simpa [hread, Except.map] using h
        exact m.toNat_lt
  · simp at h

namespace Phase

def isCompleted : Phase → Bool
  | message _ => true
  | _ => false

def bodyExpected : Phase → Bool
  | identityBody .. => true
  | chunk .. => true
  | _ => false

/-- The first byte of a header line, or the CR of the line that ends the section. -/
def beginHeader (isTrailer : Bool) (m : Shown) (ch : Byte) : Except Code Phase :=
  if isCarriageReturn ch then .ok (endOfHeader isTrailer m)
  else if ch == colon then .error .emptyHeaderName
  else if isToken ch then .ok (headerName isTrailer m [ch])
  else .error .invalidHeaderName

def beginBody (m : Shown) : Except Code Phase :=
  match framing m.headers with
  | .error _ => .error .invalidContentLength
  | .ok .none => .ok (message m)
  | .ok (.identity n) => .ok (if n = 0 then message m else identityBody m n 0)
  | .ok .chunked => .ok (chunkSize m [])

def next (lim : Limits) : Phase → Byte → Except Code Phase
  | message _, ch =>
      if isSpaceOrTab ch then .ok leadingSP
      else if isChar ch && !isControl ch then .ok (firstToken [ch])
      else .error .invalidFirstToken
  | leadingSP, ch =>
      if isSpaceOrTab ch then .ok leadingSP
      else if isChar ch && !isControl ch then .ok (firstToken [ch])
      else .error .invalidFirstToken
  | firstToken t₁, ch =>
      if isSpaceOrTab ch then .ok (firstTokenSP t₁)
      else if isChar ch && !isControl ch then
        if t₁.length ≥ lim.maxFirstTokenLength then .error .firstTokenIsTooLong
        else .ok (firstToken (t₁ ++ [ch]))
      else .error .invalidFirstToken
  | firstTokenSP t₁, ch =>
      if isSpaceOrTab ch then .ok (firstTokenSP t₁)
      else if isChar ch && !isControl ch then .ok (secondToken t₁ [ch])
      else .error .invalidSecondToken
  | secondToken t₁ t₂, ch =>
      if isSpaceOrTab ch then .ok (secondTokenSP t₁ t₂)
      else if isChar ch && !isControl ch then
        if t₂.length ≥ lim.maxSecondTokenLength then .error .secondTokenIsTooLong
        else .ok (secondToken t₁ (t₂ ++ [ch]))
      else .error .invalidSecondToken
  | secondTokenSP t₁ t₂, ch =>
      if isSpaceOrTab ch then .ok (secondTokenSP t₁ t₂)
      else if isChar ch && !isControl ch then .ok (thirdToken t₁ t₂ [ch])
      else .error .invalidThirdToken
  | thirdToken t₁ t₂ t₃, ch =>
      if isCarriageReturn ch then .ok (firstLineLF ⟨t₁, t₂, t₃, ∅⟩)
      else if isChar ch && !isControl ch then
        if t₃.length ≥ lim.maxThirdTokenLength then .error .thirdTokenIsTooLong
        else .ok (thirdToken t₁ t₂ (t₃ ++ [ch]))
      else .error .invalidThirdToken
  | firstLineLF m, ch =>
      if isLineFeed ch then .ok (header false m) else .error .invalidFirstLineLF
  | header isTrailer m, ch => beginHeader isTrailer m ch
  | headerName isTrailer m name, ch =>
      if isCarriageReturn ch then .error .headerIsMissingColon
      else if ch == colon then .ok (headerValue isTrailer m name [])
      else if isToken ch then
        if name.length < lim.maxHeaderNameLength then
          .ok (headerName isTrailer m (name ++ [ch]))
        else .error .headerNameIsTooLong
      else .error .invalidHeaderName
  | headerValue isTrailer m name value, ch =>
      if isCarriageReturn ch then .ok (headerValueLF isTrailer m name value)
      else if !isControl ch then
        if value.length < lim.maxHeaderValueLength then
          .ok (headerValue isTrailer m name (value ++ [ch]))
        else .error .headerValueIsTooLong
      else .error .invalidHeaderValue
  | headerValueLF isTrailer m name value, ch =>
      if isLineFeed ch then .ok (headerValueLWS isTrailer m name value)
      else .error .invalidHeaderLF
  | headerValueLWS isTrailer m name value, ch =>
      if isSpaceOrTab ch then
        if value.length < lim.maxHeaderValueLength then
          .ok (headerValue isTrailer m name (value ++ [SP]))
        else .error .headerValueIsTooLong
      else if (isCarriageReturn ch || isToken ch) && m.headers.size ≥ lim.maxHeadersAmount then
        .error .tooManyHeaders
      else beginHeader isTrailer (m.addHeader name value) ch
  | endOfHeader false m, ch =>
      if isLineFeed ch then beginBody m else .error .invalidHeaderLF
  | endOfHeader true m, ch =>
      if isLineFeed ch then .ok (message m) else .error .invalidFinalLF
  | identityBody m length parsed, _ =>
      .ok (if parsed + 1 ≥ length then message m else identityBody m length (parsed + 1))
  | chunkSize m digits, ch =>
      if isHexDigit ch then .ok (chunkSize m (digits ++ [ch]))
      else if digits.isEmpty then .error .emptyChunkSize
      else
        match toUnsignedInt digits true with
        | .error _ => .error .invalidChunkSize
        | .ok size =>
            .ok (if isCarriageReturn ch then chunkSizeLF m size.toNat
              else chunkExtension m size.toNat)
  | chunkExtension m size, ch =>
      .ok (if isCarriageReturn ch then chunkSizeLF m size else chunkExtension m size)
  | chunkSizeLF m size, ch =>
      if isLineFeed ch then .ok (if size > 0 then chunk m size 0 else header true m)
      else .error .invalidChunkSizeLF
  | chunk m size parsed, _ =>
      .ok (if parsed + 1 ≥ size then chunkCR m else chunk m size (parsed + 1))
  | chunkCR m, ch =>
      if isCarriageReturn ch then .ok (chunkLF m) else .error .invalidChunkDataCR
  | chunkLF m, ch =>
      if isLineFeed ch then .ok (chunkSize m []) else .error .invalidChunkDataLF

/-! ### What a step can do -/

/-- The steps of the machine, each with what it takes. -/
inductive Moves (lim : Limits) : Phase → Byte → Phase → Prop
  | leading {m : Shown} {ch : Byte} (hch : isSpaceOrTab ch = true) :
      Moves lim (message m) ch leadingSP
  | leadingMore {ch : Byte} (hch : isSpaceOrTab ch = true) : Moves lim leadingSP ch leadingSP
  | first {m : Shown} {ch : Byte} (hch : Visible ch) : Moves lim (message m) ch (firstToken [ch])
  | firstAfterSP {ch : Byte} (hch : Visible ch) : Moves lim leadingSP ch (firstToken [ch])
  | firstMore {t₁ : Bytes} {ch : Byte} (hch : Visible ch)
      (hroom : t₁.length < lim.maxFirstTokenLength) :
      Moves lim (firstToken t₁) ch (firstToken (t₁ ++ [ch]))
  | firstEnd {t₁ : Bytes} {ch : Byte} (hch : isSpaceOrTab ch = true) :
      Moves lim (firstToken t₁) ch (firstTokenSP t₁)
  | firstSP {t₁ : Bytes} {ch : Byte} (hch : isSpaceOrTab ch = true) :
      Moves lim (firstTokenSP t₁) ch (firstTokenSP t₁)
  | second {t₁ : Bytes} {ch : Byte} (hch : Visible ch) :
      Moves lim (firstTokenSP t₁) ch (secondToken t₁ [ch])
  | secondMore {t₁ t₂ : Bytes} {ch : Byte} (hch : Visible ch)
      (hroom : t₂.length < lim.maxSecondTokenLength) :
      Moves lim (secondToken t₁ t₂) ch (secondToken t₁ (t₂ ++ [ch]))
  | secondEnd {t₁ t₂ : Bytes} {ch : Byte} (hch : isSpaceOrTab ch = true) :
      Moves lim (secondToken t₁ t₂) ch (secondTokenSP t₁ t₂)
  | secondSP {t₁ t₂ : Bytes} {ch : Byte} (hch : isSpaceOrTab ch = true) :
      Moves lim (secondTokenSP t₁ t₂) ch (secondTokenSP t₁ t₂)
  | third {t₁ t₂ : Bytes} {ch : Byte} (hch : Visible ch) :
      Moves lim (secondTokenSP t₁ t₂) ch (thirdToken t₁ t₂ [ch])
  | thirdMore {t₁ t₂ t₃ : Bytes} {ch : Byte} (hch : Printable ch)
      (hroom : t₃.length < lim.maxThirdTokenLength) :
      Moves lim (thirdToken t₁ t₂ t₃) ch (thirdToken t₁ t₂ (t₃ ++ [ch]))
  | thirdEnd {t₁ t₂ t₃ : Bytes} : Moves lim (thirdToken t₁ t₂ t₃) CR (firstLineLF ⟨t₁, t₂, t₃, ∅⟩)
  | firstLine {m : Shown} : Moves lim (firstLineLF m) LF (header false m)
  | headersEnd {isTrailer : Bool} {m : Shown} :
      Moves lim (header isTrailer m) CR (endOfHeader isTrailer m)
  | name {isTrailer : Bool} {m : Shown} {ch : Byte} (hch : isToken ch = true) :
      Moves lim (header isTrailer m) ch (headerName isTrailer m [ch])
  | nameMore {isTrailer : Bool} {m : Shown} {name : Bytes} {ch : Byte} (hch : isToken ch = true)
      (hroom : name.length < lim.maxHeaderNameLength) :
      Moves lim (headerName isTrailer m name) ch (headerName isTrailer m (name ++ [ch]))
  | nameEnd {isTrailer : Bool} {m : Shown} {name : Bytes} :
      Moves lim (headerName isTrailer m name) colon (headerValue isTrailer m name [])
  | valueMore {isTrailer : Bool} {m : Shown} {name value : Bytes} {ch : Byte}
      (hch : isControl ch = false) (hroom : value.length < lim.maxHeaderValueLength) :
      Moves lim (headerValue isTrailer m name value) ch
        (headerValue isTrailer m name (value ++ [ch]))
  | valueCR {isTrailer : Bool} {m : Shown} {name value : Bytes} :
      Moves lim (headerValue isTrailer m name value) CR (headerValueLF isTrailer m name value)
  | valueLF {isTrailer : Bool} {m : Shown} {name value : Bytes} :
      Moves lim (headerValueLF isTrailer m name value) LF (headerValueLWS isTrailer m name value)
  | fold {isTrailer : Bool} {m : Shown} {name value : Bytes} {ch : Byte}
      (hch : isSpaceOrTab ch = true) (hroom : value.length < lim.maxHeaderValueLength) :
      Moves lim (headerValueLWS isTrailer m name value) ch
        (headerValue isTrailer m name (value ++ [SP]))
  /-- The first byte of the next line, or the CR of the empty one, stores the header. -/
  | store {isTrailer : Bool} {m : Shown} {name value : Bytes} {ch : Byte} {q : Phase}
      (hroom : m.headers.size < lim.maxHeadersAmount)
      (hnext : Moves lim (header isTrailer (m.addHeader name value)) ch q) :
      Moves lim (headerValueLWS isTrailer m name value) ch q
  | noBody {m : Shown} : Moves lim (endOfHeader false m) LF (message m)
  | identity {m : Shown} {n : ℕ} (hpos : 0 < n) (hlength : n < 2 ^ 32) :
      Moves lim (endOfHeader false m) LF (identityBody m n 0)
  | chunked {m : Shown} : Moves lim (endOfHeader false m) LF (chunkSize m [])
  | trailersEnd {m : Shown} : Moves lim (endOfHeader true m) LF (message m)
  | identityMore {m : Shown} {n parsed : ℕ} {ch : Byte} (hmore : parsed + 1 < n) :
      Moves lim (identityBody m n parsed) ch (identityBody m n (parsed + 1))
  | identityEnd {m : Shown} {n parsed : ℕ} {ch : Byte} :
      Moves lim (identityBody m n parsed) ch (message m)
  | sizeMore {m : Shown} {digits : Bytes} {ch : Byte} (hch : isHexDigit ch = true) :
      Moves lim (chunkSize m digits) ch (chunkSize m (digits ++ [ch]))
  | sizeEnd {m : Shown} {digits : Bytes} {size : UInt32}
      (hread : toUnsignedInt digits true = .ok size) :
      Moves lim (chunkSize m digits) CR (chunkSizeLF m size.toNat)
  | sizeExtension {m : Shown} {digits : Bytes} {size : UInt32} {ch : Byte}
      (hread : toUnsignedInt digits true = .ok size) :
      Moves lim (chunkSize m digits) ch (chunkExtension m size.toNat)
  | extensionMore {m : Shown} {size : ℕ} {ch : Byte} :
      Moves lim (chunkExtension m size) ch (chunkExtension m size)
  | extensionEnd {m : Shown} {size : ℕ} : Moves lim (chunkExtension m size) CR (chunkSizeLF m size)
  | chunk {m : Shown} {size : ℕ} (hpos : 0 < size) :
      Moves lim (chunkSizeLF m size) LF (chunk m size 0)
  | lastChunk {m : Shown} : Moves lim (chunkSizeLF m 0) LF (header true m)
  | chunkMore {m : Shown} {size parsed : ℕ} {ch : Byte} (hmore : parsed + 1 < size) :
      Moves lim (chunk m size parsed) ch (chunk m size (parsed + 1))
  | chunkEnd {m : Shown} {size parsed : ℕ} {ch : Byte} :
      Moves lim (chunk m size parsed) ch (chunkCR m)
  | dataCR {m : Shown} : Moves lim (chunkCR m) CR (chunkLF m)
  | dataLF {m : Shown} : Moves lim (chunkLF m) LF (chunkSize m [])

theorem beginHeader_ok {isTrailer : Bool} {m : Shown} {ch : Byte} {q : Phase}
    (h : beginHeader isTrailer m ch = .ok q) : (isCarriageReturn ch || isToken ch) = true := by
  unfold beginHeader at h
  split_ifs at h with hcr hcolon htoken
  · simp [hcr]
  · simp [htoken]

theorem moves_of_beginHeader {lim : Limits} {isTrailer : Bool} {m : Shown} {ch : Byte} {q : Phase}
    (h : beginHeader isTrailer m ch = .ok q) : Moves lim (header isTrailer m) ch q := by
  unfold beginHeader at h
  split_ifs at h with hcr hcolon htoken
  · obtain rfl := (isCarriageReturn_iff ch).mp hcr
    cases h
    exact .headersEnd
  · cases h
    exact .name htoken

theorem moves_of_beginBody {lim : Limits} {m : Shown} {q : Phase} (h : beginBody m = .ok q) :
    Moves lim (endOfHeader false m) LF q := by
  unfold beginBody at h
  split at h
  · cases h
  · cases h
    exact .noBody
  · rename_i n hframing
    cases h
    split_ifs with hn
    · exact .noBody
    · exact .identity (Nat.pos_of_ne_zero hn) (framing_identity_lt hframing)
  · cases h
    exact .chunked

theorem visible_of_next {ch : Byte} (hsp : ¬ isSpaceOrTab ch = true)
    (hchar : (isChar ch && !isControl ch) = true) : Visible ch :=
  (visible_iff ch).mpr ⟨by simpa using hsp, hchar⟩

theorem moves_of_next {lim : Limits} {q q' : Phase} {ch : Byte} (h : q.next lim ch = .ok q') :
    Moves lim q ch q' := by
  cases q with
  | message m =>
      simp only [next] at h
      split_ifs at h with hsp hchar <;> cases h
      · exact .leading hsp
      · exact .first (visible_of_next hsp hchar)
  | leadingSP =>
      simp only [next] at h
      split_ifs at h with hsp hchar <;> cases h
      · exact .leadingMore hsp
      · exact .firstAfterSP (visible_of_next hsp hchar)
  | firstToken t₁ =>
      simp only [next] at h
      split_ifs at h with hsp hchar hfull <;> cases h
      · exact .firstEnd hsp
      · exact .firstMore (visible_of_next hsp hchar) (Nat.lt_of_not_le hfull)
  | firstTokenSP t₁ =>
      simp only [next] at h
      split_ifs at h with hsp hchar <;> cases h
      · exact .firstSP hsp
      · exact .second (visible_of_next hsp hchar)
  | secondToken t₁ t₂ =>
      simp only [next] at h
      split_ifs at h with hsp hchar hfull <;> cases h
      · exact .secondEnd hsp
      · exact .secondMore (visible_of_next hsp hchar) (Nat.lt_of_not_le hfull)
  | secondTokenSP t₁ t₂ =>
      simp only [next] at h
      split_ifs at h with hsp hchar <;> cases h
      · exact .secondSP hsp
      · exact .third (visible_of_next hsp hchar)
  | thirdToken t₁ t₂ t₃ =>
      simp only [next] at h
      split_ifs at h with hcr hchar hfull <;> cases h
      · obtain rfl := (isCarriageReturn_iff ch).mp hcr
        exact .thirdEnd
      · exact .thirdMore ((printable_iff ch).mpr hchar) (Nat.lt_of_not_le hfull)
  | firstLineLF m =>
      simp only [next] at h
      split_ifs at h with hlf
      cases h
      obtain rfl := (isLineFeed_iff ch).mp hlf
      exact .firstLine
  | header isTrailer m => exact moves_of_beginHeader h
  | headerName isTrailer m name =>
      simp only [next] at h
      split_ifs at h with hcr hcolon htoken hroom <;> cases h
      · obtain rfl : ch = colon := by simpa using hcolon
        exact .nameEnd
      · exact .nameMore htoken hroom
  | headerValue isTrailer m name value =>
      simp only [next] at h
      split_ifs at h with hcr hcontrol hroom <;> cases h
      · obtain rfl := (isCarriageReturn_iff ch).mp hcr
        exact .valueCR
      · exact .valueMore (by simpa using hcontrol) hroom
  | headerValueLF isTrailer m name value =>
      simp only [next] at h
      split_ifs at h with hlf
      cases h
      obtain rfl := (isLineFeed_iff ch).mp hlf
      exact .valueLF
  | headerValueLWS isTrailer m name value =>
      simp only [next] at h
      split_ifs at h with hsp hroom hfull
      · cases h
        exact .fold hsp hroom
      · refine .store ?_ (moves_of_beginHeader h)
        simpa [beginHeader_ok h] using hfull
  | endOfHeader isTrailer m =>
      cases isTrailer with
      | false =>
          simp only [next] at h
          split_ifs at h with hlf
          obtain rfl := (isLineFeed_iff ch).mp hlf
          exact moves_of_beginBody h
      | true =>
          simp only [next] at h
          split_ifs at h with hlf
          cases h
          obtain rfl := (isLineFeed_iff ch).mp hlf
          exact .trailersEnd
  | identityBody m length parsed =>
      cases h
      split_ifs with hdone
      · exact .identityEnd
      · exact .identityMore (Nat.lt_of_not_le hdone)
  | chunkSize m digits =>
      cases hread : toUnsignedInt digits true with
      | error e =>
          simp only [next, hread] at h
          split_ifs at h with hhex
          cases h
          exact .sizeMore hhex
      | ok size =>
          simp only [next, hread] at h
          split_ifs at h with hhex hempty hcr <;> cases h
          · exact .sizeMore hhex
          · obtain rfl := (isCarriageReturn_iff ch).mp hcr
            exact .sizeEnd hread
          · exact .sizeExtension hread
  | chunkExtension m size =>
      cases h
      split_ifs with hcr
      · obtain rfl := (isCarriageReturn_iff ch).mp hcr
        exact .extensionEnd
      · exact .extensionMore
  | chunkSizeLF m size =>
      simp only [next] at h
      split_ifs at h with hlf hsize <;> cases h
      all_goals obtain rfl := (isLineFeed_iff ch).mp hlf
      · exact .chunk hsize
      · obtain rfl : size = 0 := by omega
        exact .lastChunk
  | chunk m size parsed =>
      cases h
      split_ifs with hdone
      · exact .chunkEnd
      · exact .chunkMore (Nat.lt_of_not_le hdone)
  | chunkCR m =>
      simp only [next] at h
      split_ifs at h with hcr
      cases h
      obtain rfl := (isCarriageReturn_iff ch).mp hcr
      exact .dataCR
  | chunkLF m =>
      simp only [next] at h
      split_ifs at h with hlf
      cases h
      obtain rfl := (isLineFeed_iff ch).mp hlf
      exact .dataLF

def step (lim : Limits) (q : Phase) (ch : Byte) : Except Code (Phase × Flags) :=
  (q.next lim ch).map fun q' => (q', ⟨q.bodyExpected, q'.isCompleted⟩)

theorem step_ok_iff {lim : Limits} {q q' : Phase} {ch : Byte} {flags : Flags} :
    q.step lim ch = .ok (q', flags) ↔
      q.next lim ch = .ok q' ∧ flags = ⟨q.bodyExpected, q'.isCompleted⟩ := by
  cases h : q.next lim ch with
  | error e => simp [step, h, Except.map]
  | ok r =>
      simp only [step, h, Except.map, Except.ok.injEq, Prod.mk.injEq]
      constructor
      · rintro ⟨rfl, rfl⟩
        exact ⟨rfl, rfl⟩
      · rintro ⟨rfl, rfl⟩
        exact ⟨rfl, rfl⟩

def recogniser (lim : Limits) : Transducer Phase Byte Flags Code where
  step := step lim
  emit := Flags.isBodyChar
  last := Flags.completed

theorem silent_of_next {lim : Limits} {q q' : Phase} {ch : Byte} (h : q.next lim ch = .ok q')
    (hbody : q.bodyExpected = false) (hdone : q'.isCompleted = false) :
    (recogniser lim).Silent q ch q' :=
  ⟨⟨q.bodyExpected, q'.isCompleted⟩, step_ok_iff.mpr ⟨h, rfl⟩, hdone, hbody⟩

theorem refuses_of_next {lim : Limits} {q : Phase} {ch : Byte} (code : Code)
    (h : q.next lim ch = .error code) : (recogniser lim).Refuses q ch :=
  ⟨code, by simp [recogniser, step, h, Except.map]⟩

def initial : Phase := message ⟨[], [], [], ∅⟩

end Phase

end Httpxx
