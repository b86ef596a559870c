import Httpxx.Parser.Phase

/-!
The parser moves as the machine over phases. `view` reads the phase off a parser
and `Clean` says which of its fields are empty in which state; both together
determine everything a later byte can depend on. The main lemma,
`parseState_follows`, says once what the `switch` can do: throw at the untouched
parser, with the code of the phase, or move to a clean parser whose phase is the
next one.
-/

namespace Httpxx

open Library

namespace MessageParser

def shown (p : MessageParser) : Shown :=
  ⟨p.firstToken, p.secondToken, p.thirdToken, p.headers⟩

/-- The phase a parser is in. -/
def view (p : MessageParser) : Phase :=
  match p.state with
  | .parsingMessage => .message p.shown
  | .parsingLeadingSP => .leadingSP
  | .parsingFirstToken => .firstToken p.firstToken
  | .parsingFirstTokenSP => .firstTokenSP p.firstToken
  | .parsingSecondToken => .secondToken p.firstToken p.secondToken
  | .parsingSecondTokenSP => .secondTokenSP p.firstToken p.secondToken
  | .parsingThirdToken => .thirdToken p.firstToken p.secondToken p.thirdToken
  | .parsingFirstLineLF => .firstLineLF p.shown
  | .parsingHeader => .header false p.shown
  | .parsingHeaderName => .headerName false p.shown p.headerFieldName
  | .parsingHeaderValue => .headerValue false p.shown p.headerFieldName p.headerFieldValue
  | .parsingHeaderValueLF => .headerValueLF false p.shown p.headerFieldName p.headerFieldValue
  | .parsingHeaderValueLWS => .headerValueLWS false p.shown p.headerFieldName p.headerFieldValue
  | .parsingEndOfHeader => .endOfHeader false p.shown
  | .parsingIdentityBody => .identityBody p.shown p.contentLength p.identityBodyBytesParsed
  | .parsingChunkSize => .chunkSize p.shown p.chunkSizeStr
  | .parsingChunkSizeLF => .chunkSizeLF p.shown p.chunkSize
  | .parsingChunkExtension => .chunkExtension p.shown p.chunkSize
  | .parsingChunk => .chunk p.shown p.chunkSize p.chunkBytesParsed
  | .parsingChunkCR => .chunkCR p.shown
  | .parsingChunkLF => .chunkLF p.shown
  | .parsingTrailerHeader => .header true p.shown
  | .parsingTrailerHeaderName => .headerName true p.shown p.headerFieldName
  | .parsingTrailerHeaderValue => .headerValue true p.shown p.headerFieldName p.headerFieldValue
  | .parsingTrailerHeaderValueLF =>
      .headerValueLF true p.shown p.headerFieldName p.headerFieldValue
  | .parsingTrailerHeaderValueLWS =>
      .headerValueLWS true p.shown p.headerFieldName p.headerFieldValue
  | .parsingFinalLF => .endOfHeader true p.shown

@[simp] def NoHeaderField (p : MessageParser) : Prop :=
  p.headerFieldName = [] ∧ p.headerFieldValue = []

@[simp] def NoBody (p : MessageParser) : Prop :=
  p.identityBodyBytesParsed = 0 ∧ p.chunkSizeStr = []

/-- The fields that a state relies on to be empty are empty. -/
def Clean (p : MessageParser) : Prop :=
  match p.state with
  | .parsingMessage | .parsingIdentityBody | .parsingFinalLF => True
  | .parsingLeadingSP =>
      (p.firstToken = [] ∧ p.secondToken = [] ∧ p.thirdToken = [] ∧ p.headers = ∅) ∧
        p.NoHeaderField ∧ p.NoBody
  | .parsingFirstToken | .parsingFirstTokenSP =>
      (p.secondToken = [] ∧ p.thirdToken = [] ∧ p.headers = ∅) ∧ p.NoHeaderField ∧ p.NoBody
  | .parsingSecondToken | .parsingSecondTokenSP =>
      (p.thirdToken = [] ∧ p.headers = ∅) ∧ p.NoHeaderField ∧ p.NoBody
  | .parsingThirdToken => p.headers = ∅ ∧ p.NoHeaderField ∧ p.NoBody
  | .parsingFirstLineLF | .parsingHeader | .parsingEndOfHeader => p.NoHeaderField ∧ p.NoBody
  | .parsingHeaderName => p.headerFieldValue = [] ∧ p.NoBody
  | .parsingHeaderValue | .parsingHeaderValueLF | .parsingHeaderValueLWS => p.NoBody
  | .parsingChunkSize => p.NoHeaderField
  | .parsingChunkSizeLF | .parsingChunkExtension =>
      (p.NoHeaderField ∧ p.chunkSizeStr = []) ∧ p.chunkBytesParsed = 0
  | .parsingChunk | .parsingChunkCR | .parsingChunkLF | .parsingTrailerHeader =>
      p.NoHeaderField ∧ p.chunkSizeStr = []
  | .parsingTrailerHeaderName => p.headerFieldValue = []
  | .parsingTrailerHeaderValue | .parsingTrailerHeaderValueLF
  | .parsingTrailerHeaderValueLWS => True

/-- What one execution of the `switch` does to a clean parser. -/
def Follows (p : MessageParser) (ch : Byte) (r : Except Thrown MessageParser) : Prop :=
  (∃ code, r = p.throwing ch code ∧ p.view.next p.limits ch = .error code) ∨
    ∃ p', r = .ok p' ∧ p'.Clean ∧ p'.limits = p.limits ∧ p.view.next p.limits ch = .ok p'.view

theorem follows_throwing {p : MessageParser} {q : Phase} {ch : Byte} {code : Code}
    (hview : p.view = q) (h : q.next p.limits ch = .error code) :
    p.Follows ch (p.throwing ch code) :=
  .inl ⟨code, rfl, hview ▸ h⟩

theorem follows_ok {p p' : MessageParser} {q : Phase} {ch : Byte} (hview : p.view = q)
    (hclean : p'.Clean) (hlimits : p'.limits = p.limits)
    (h : q.next p.limits ch = .ok p'.view) : p.Follows ch (.ok p') :=
  .inr ⟨p', rfl, hclean, hlimits, hview ▸ h⟩

/-! ### The cases of the switch -/

theorem appendHeader_of_room {p : MessageParser} {ch : Byte}
    (h : p.headers.size < p.limits.maxHeadersAmount) :
    p.appendHeader ch = .ok { p with
      headers := p.headers.insert (trim p.headerFieldName, trim p.headerFieldValue)
      headerFieldName := []
      headerFieldValue := [] } := by
  simp [appendHeader, Nat.not_le.mpr h]

theorem appendHeader_of_full {p : MessageParser} {ch : Byte}
    (h : p.limits.maxHeadersAmount ≤ p.headers.size) :
    p.appendHeader ch = p.throwing ch .tooManyHeaders := by
  simp [appendHeader, h]

theorem parseHeader_follows {p : MessageParser} (isTrailer : Bool) (ch : Byte)
    (hstate : p.state = if isTrailer then .parsingTrailerHeader else .parsingHeader)
    (hp : p.Clean) : p.Follows ch (p.parseHeader ch isTrailer) := by
  have hview : p.view = .header isTrailer p.shown := by
    cases isTrailer <;> simp [view, hstate]
  have hfield : p.NoHeaderField := by
    cases isTrailer <;> simp_all [Clean]
  -- the fields are cleared before anything can throw, but they are empty already
  have hself : { p with headerFieldName := [], headerFieldValue := [] } = p := by
    obtain ⟨hname, hvalue⟩ := hfield
    cases p
    simp_all
  simp only [parseHeader, hself]
  by_cases hcr : isCarriageReturn ch = true
  · rw [if_pos hcr]
    refine follows_ok hview ?_ rfl ?_
    · cases isTrailer <;> simp_all [Clean]
    · cases isTrailer <;> simp [Phase.next, Phase.beginHeader, hcr, view, shown]
  rw [if_neg hcr]
  by_cases hcolon : (ch == colon) = true
  · rw [if_pos hcolon]
    exact follows_throwing hview (by simp [Phase.next, Phase.beginHeader, hcr, hcolon])
  rw [if_neg hcolon]
  by_cases htoken : isToken ch = true
  · rw [if_pos htoken]
    refine follows_ok hview ?_ rfl ?_
    · cases isTrailer <;> simp_all [Clean]
    · cases isTrailer <;>
        simp [Phase.next, Phase.beginHeader, hcr, hcolon, htoken, view, shown]
  · rw [if_neg htoken]
    exact follows_throwing hview (by simp [Phase.next, Phase.beginHeader, hcr, hcolon, htoken])

theorem parseHeaderName_follows {p : MessageParser} (isTrailer : Bool) (ch : Byte)
    (hstate : p.state = if isTrailer then .parsingTrailerHeaderName else .parsingHeaderName)
    (hp : p.Clean) : p.Follows ch (p.parseHeaderName ch isTrailer) := by
  have hview : p.view = .headerName isTrailer p.shown p.headerFieldName := by
    cases isTrailer <;> simp [view, hstate]
  simp only [parseHeaderName]
  by_cases hcr : isCarriageReturn ch = true
  · rw [if_pos hcr]
    exact follows_throwing hview (by simp [Phase.next, hcr])
  rw [if_neg hcr]
  by_cases hcolon : (ch == colon) = true
  · rw [if_pos hcolon]
    refine follows_ok hview ?_ rfl ?_
    · cases isTrailer <;> simp_all [Clean]
    · cases isTrailer <;> simp_all [Phase.next, view, shown, Clean]
  rw [if_neg hcolon]
  by_cases htoken : isToken ch = true
  · rw [if_pos htoken]
    by_cases hroom : p.headerFieldName.length < p.limits.maxHeaderNameLength
    · rw [if_pos hroom]
      refine follows_ok hview ?_ rfl ?_
      · cases isTrailer <;> simp_all [Clean]
      · cases isTrailer <;> simp [Phase.next, hcr, hcolon, htoken, hroom, view, shown, hstate]
    · rw [if_neg hroom]
      exact follows_throwing hview (by simp [Phase.next, hcr, hcolon, htoken, hroom])
  · rw [if_neg htoken]
    exact follows_throwing hview (by simp [Phase.next, hcr, hcolon, htoken])

theorem parseHeaderValue_follows {p : MessageParser} (isTrailer : Bool) (ch : Byte)
    (hstate : p.state = if isTrailer then .parsingTrailerHeaderValue else .parsingHeaderValue)
    (hp : p.Clean) : p.Follows ch (p.parseHeaderValue ch isTrailer) := by
  have hview : p.view = .headerValue isTrailer p.shown p.headerFieldName p.headerFieldValue := by
    cases isTrailer <;> simp [view, hstate]
  simp only [parseHeaderValue]
  by_cases hcr : isCarriageReturn ch = true
  · rw [if_pos hcr]
    refine follows_ok hview ?_ rfl ?_
    · cases isTrailer <;> simp_all [Clean]
    · cases isTrailer <;> simp [Phase.next, hcr, view, shown]
  rw [if_neg hcr]
  by_cases hcontrol : (!isControl ch) = true
  · rw [if_pos hcontrol]
    by_cases hroom : p.headerFieldValue.length < p.limits.maxHeaderValueLength
    · rw [if_pos hroom]
      refine follows_ok hview ?_ rfl ?_
      · cases isTrailer <;> simp_all [Clean]
      · cases isTrailer <;> simp_all [Phase.next, view, shown]
    · rw [if_neg hroom]
      exact follows_throwing hview (by simp_all [Phase.next])
  · rw [if_neg hcontrol]
    exact follows_throwing hview (by simp_all [Phase.next])

theorem parseHeaderValueLF_follows {p : MessageParser} (isTrailer : Bool) (ch : Byte)
    (hstate : p.state =
      if isTrailer then .parsingTrailerHeaderValueLF else .parsingHeaderValueLF)
    (hp : p.Clean) : p.Follows ch (p.parseHeaderValueLF ch isTrailer) := by
  have hview : p.view = .headerValueLF isTrailer p.shown p.headerFieldName p.headerFieldValue := by
    cases isTrailer <;> simp [view, hstate]
  simp only [parseHeaderValueLF]
  by_cases hlf : isLineFeed ch = true
  · rw [if_pos hlf]
    refine follows_ok hview ?_ rfl ?_
    · cases isTrailer <;> simp_all [Clean]
    · cases isTrailer <;> simp [Phase.next, hlf, view, shown]
  · rw [if_neg hlf]
    exact follows_throwing hview (by simp [Phase.next, hlf])

theorem parseHeaderValueLWS_follows {p : MessageParser} (isTrailer : Bool) (ch : Byte)
    (hstate : p.state =
      if isTrailer then .parsingTrailerHeaderValueLWS else .parsingHeaderValueLWS)
    (hp : p.Clean) : p.Follows ch (p.parseHeaderValueLWS ch isTrailer) := by
  have hview :
      p.view = .headerValueLWS isTrailer p.shown p.headerFieldName p.headerFieldValue := by
    cases isTrailer <;> simp [view, hstate]
  simp only [parseHeaderValueLWS]
  by_cases hcr : isCarriageReturn ch = true
  · rw [if_pos hcr]
    obtain rfl := (isCarriageReturn_iff ch).mp hcr
    rcases Nat.lt_or_ge p.headers.size p.limits.maxHeadersAmount with hroom | hfull
    · rw [appendHeader_of_room hroom]
      refine follows_ok hview ?_ rfl ?_
      · cases isTrailer <;> simp_all [Clean]
      · cases isTrailer <;>
          simp [Phase.next, Phase.beginHeader, view, shown, Shown.addHeader, hroom]
    · rw [appendHeader_of_full hfull]
      exact follows_throwing hview (by simp [Phase.next, shown, hfull])
  rw [if_neg hcr]
  by_cases hcolon : (ch == colon) = true
  · rw [if_pos hcolon]
    obtain rfl : ch = colon := by simpa using hcolon
    exact follows_throwing hview (by simp [Phase.next, Phase.beginHeader])
  rw [if_neg hcolon]
  by_cases hsp : isSpaceOrTab ch = true
  · rw [if_pos hsp]
    by_cases hroom : p.headerFieldValue.length < p.limits.maxHeaderValueLength
    · rw [if_pos hroom]
      refine follows_ok hview ?_ rfl ?_
      · cases isTrailer <;> simp_all [Clean]
      · simp only [Phase.next, hsp, hroom, if_true]
        cases isTrailer <;> rfl
    · rw [if_neg hroom]
      exact follows_throwing hview (by simp only [Phase.next, hsp, hroom, if_true, if_false])
  rw [if_neg hsp]
  by_cases htoken : isToken ch = true
  · rw [if_pos htoken]
    rcases Nat.lt_or_ge p.headers.size p.limits.maxHeadersAmount with hroom | hfull
    · rw [appendHeader_of_room hroom]
      refine follows_ok hview ?_ rfl ?_
      · cases isTrailer <;> simp_all [Clean]
      · cases isTrailer <;>
          simp_all [Phase.next, Phase.beginHeader, view, shown, Shown.addHeader]
    · rw [appendHeader_of_full hfull]
      exact follows_throwing hview (by simp_all [Phase.next, shown])
  · rw [if_neg htoken]
    exact follows_throwing hview (by simp_all [Phase.next, Phase.beginHeader])

theorem parseEndOfHeader_follows {p : MessageParser} (ch : Byte)
    (hstate : p.state = .parsingEndOfHeader) (hp : p.Clean) :
    p.Follows ch (p.parseEndOfHeader ch) := by
  have hview : p.view = .endOfHeader false p.shown := by simp [view, hstate]
  have hnobody : p.NoHeaderField ∧ p.NoBody := by simpa [Clean, hstate] using hp
  simp only [parseEndOfHeader]
  by_cases hlf : isLineFeed ch = true
  swap
  · rw [if_neg hlf]
    exact follows_throwing hview (by simp [Phase.next, hlf])
  rw [if_pos hlf]
  have hnext : (Phase.endOfHeader false p.shown).next p.limits ch = Phase.beginBody p.shown := by
    simp [Phase.next, hlf]
  by_cases hchunked : p.headers.haveValue (str "Transfer-Encoding") (str "chunked") = true
  · rw [if_pos hchunked]
    refine follows_ok hview (by simpa [Clean] using hnobody.1) rfl ?_
    rw [hnext]
    simp [Phase.beginBody, framing, shown, hchunked, view, hnobody.2.2]
  rw [if_neg hchunked]
  by_cases hlength : p.headers.haveHeader (str "Content-Length") = true
  swap
  · rw [if_neg hlength]
    refine follows_ok hview (by simp [Clean]) rfl ?_
    rw [hnext]
    simp [Phase.beginBody, framing, shown, hchunked, hlength, view]
  rw [if_pos hlength]
  cases hread : toUnsignedInt (p.headers.value (str "Content-Length")) false with
  | error e =>
      refine follows_throwing hview ?_
      rw [hnext]
      simp [Phase.beginBody, framing, shown, hchunked, hlength, hread, Except.map]
  | ok n =>
      simp only
      split_ifs with hzero
      · refine follows_ok hview (by simp [Clean]) rfl ?_
        rw [hnext]
        simp_all [Phase.beginBody, framing, shown, Except.map, view]
      · refine follows_ok hview (by simp [Clean]) rfl ?_
        rw [hnext]
        simp_all [Phase.beginBody, framing, shown, Except.map, view]

theorem parseChunkSize_follows {p : MessageParser} (ch : Byte)
    (hstate : p.state = .parsingChunkSize) (hp : p.Clean) :
    p.Follows ch (p.parseChunkSize ch) := by
  have hview : p.view = .chunkSize p.shown p.chunkSizeStr := by simp [view, hstate]
  simp only [parseChunkSize]
  by_cases hhex : isHexDigit ch = true
  · rw [if_pos hhex]
    refine follows_ok hview (by simpa [Clean, hstate] using hp) rfl ?_
    simp [Phase.next, hhex, view, shown, hstate]
  rw [if_neg hhex]
  by_cases hempty : p.chunkSizeStr.isEmpty = true
  · rw [if_pos hempty]
    exact follows_throwing hview (by simp [Phase.next, hhex, hempty])
  rw [if_neg hempty]
  cases hread : toUnsignedInt p.chunkSizeStr true with
  | error e => exact follows_throwing hview (by simp [Phase.next, hhex, hempty, hread])
  | ok n =>
      simp only
      split_ifs with hcr
      · refine follows_ok hview (by simpa [Clean, hstate] using hp) rfl ?_
        simp [Phase.next, hhex, hempty, hread, hcr, view, shown]
      · refine follows_ok hview (by simpa [Clean, hstate] using hp) rfl ?_
        simp [Phase.next, hhex, hempty, hread, hcr, view, shown]

/-- What the `switch` can do to a clean parser, in every state. -/
theorem parseState_follows {p : MessageParser} (hp : p.Clean) (ch : Byte) :
    p.Follows ch (p.parseState ch) := by
  unfold parseState
  cases hstate : p.state with dsimp only
  | parsingMessage =>
      have hview : p.view = .message p.shown := by simp [view, hstate]
      split_ifs with hsp hchar
      · exact follows_ok hview (by simp [Clean, reset]) rfl
          (by simp [Phase.next, hsp, view])
      · exact follows_ok hview (by simp [Clean, reset]) rfl
          (by simp [Phase.next, hsp, hchar, view, reset])
      · exact follows_throwing hview (by simp [Phase.next, hsp, hchar])
  | parsingLeadingSP =>
      have hview : p.view = .leadingSP := by simp [view, hstate]
      simp only [Clean, hstate] at hp
      split_ifs with hsp hchar
      · exact follows_ok hview (by simpa [Clean, hstate] using hp) rfl
          (by simp [Phase.next, hsp, hview])
      · exact follows_ok hview (by simpa [Clean] using ⟨hp.1.2, hp.2⟩) rfl
          (by simp [Phase.next, hsp, hchar, view, hp.1.1])
      · exact follows_throwing hview (by simp [Phase.next, hsp, hchar])
  | parsingFirstToken =>
      have hview : p.view = .firstToken p.firstToken := by simp [view, hstate]
      simp only [Clean, hstate] at hp
      split_ifs with hsp hchar hfull
      · exact follows_ok hview (by simpa [Clean] using hp) rfl (by simp [Phase.next, hsp, view])
      · exact follows_throwing hview (by simp [Phase.next, hsp, hchar, hfull])
      · exact follows_ok hview (by simpa [Clean, hstate] using hp) rfl
          (by simp [Phase.next, hsp, hchar, hfull, view])
      · exact follows_throwing hview (by simp [Phase.next, hsp, hchar])
  | parsingFirstTokenSP =>
      have hview : p.view = .firstTokenSP p.firstToken := by simp [view, hstate]
      simp only [Clean, hstate] at hp
      split_ifs with hsp hchar
      · exact follows_ok hview (by simpa [Clean, hstate] using hp) rfl
          (by simp [Phase.next, hsp, hview])
      · exact follows_ok hview (by simpa [Clean] using ⟨hp.1.2, hp.2⟩) rfl
          (by simp [Phase.next, hsp, hchar, view, hp.1.1])
      · exact follows_throwing hview (by simp [Phase.next, hsp, hchar])
  | parsingSecondToken =>
      have hview : p.view = .secondToken p.firstToken p.secondToken := by simp [view, hstate]
      simp only [Clean, hstate] at hp
      split_ifs with hsp hchar hfull
      · exact follows_ok hview (by simpa [Clean] using hp) rfl (by simp [Phase.next, hsp, view])
      · exact follows_throwing hview (by simp [Phase.next, hsp, hchar, hfull])
      · exact follows_ok hview (by simpa [Clean, hstate] using hp) rfl
          (by simp [Phase.next, hsp, hchar, hfull, view])
      · exact follows_throwing hview (by simp [Phase.next, hsp, hchar])
  | parsingSecondTokenSP =>
      have hview : p.view = .secondTokenSP p.firstToken p.secondToken := by simp [view, hstate]
      simp only [Clean, hstate] at hp
      split_ifs with hsp hchar
      · exact follows_ok hview (by simpa [Clean, hstate] using hp) rfl
          (by simp [Phase.next, hsp, hview])
      · exact follows_ok hview (by simpa [Clean] using ⟨hp.1.2, hp.2⟩) rfl
          (by simp [Phase.next, hsp, hchar, view, hp.1.1])
      · exact follows_throwing hview (by simp [Phase.next, hsp, hchar])
  | parsingThirdToken =>
      have hview : p.view = .thirdToken p.firstToken p.secondToken p.thirdToken := by
        simp [view, hstate]
      simp only [Clean, hstate] at hp
      split_ifs with hcr hchar hfull
      · exact follows_ok hview (by simpa [Clean] using hp.2) rfl
          (by simp [Phase.next, hcr, view, shown, hp.1])
      · exact follows_throwing hview (by simp [Phase.next, hcr, hchar, hfull])
      · exact follows_ok hview (by simpa [Clean, hstate] using hp) rfl
          (by simp [Phase.next, hcr, hchar, hfull, view])
      · exact follows_throwing hview (by simp [Phase.next, hcr, hchar])
  | parsingFirstLineLF =>
      have hview : p.view = .firstLineLF p.shown := by simp [view, hstate]
      simp only [Clean, hstate] at hp
      split_ifs with hlf
      · exact follows_ok hview (by simpa [Clean] using hp) rfl
          (by simp [Phase.next, hlf, view, shown])
      · exact follows_throwing hview (by simp [Phase.next, hlf])
  | parsingHeader => exact parseHeader_follows false ch hstate hp
  | parsingHeaderName => exact parseHeaderName_follows false ch hstate hp
  | parsingHeaderValue => exact parseHeaderValue_follows false ch hstate hp
  | parsingHeaderValueLF => exact parseHeaderValueLF_follows false ch hstate hp
  | parsingHeaderValueLWS => exact parseHeaderValueLWS_follows false ch hstate hp
  | parsingEndOfHeader => exact parseEndOfHeader_follows ch hstate hp
  | parsingIdentityBody =>
      have hview : p.view =
          .identityBody p.shown p.contentLength p.identityBodyBytesParsed := by
        simp [view, hstate]
      split_ifs with hdone
      · exact follows_ok hview (by simp [Clean]) rfl (by simp [Phase.next, hdone, view, shown])
      · exact follows_ok hview (by simp [Clean]) rfl
          (by simp [Phase.next, hdone, view, shown])
  | parsingChunkSize => exact parseChunkSize_follows ch hstate hp
  | parsingChunkExtension =>
      have hview : p.view = .chunkExtension p.shown p.chunkSize := by simp [view, hstate]
      simp only [Clean, hstate] at hp
      split_ifs with hcr
      · exact follows_ok hview (by simpa [Clean] using hp) rfl
          (by simp [Phase.next, hcr, view, shown])
      · exact follows_ok hview (by simpa [Clean, hstate] using hp) rfl
          (by simp [Phase.next, hcr, hview])
  | parsingChunkSizeLF =>
      have hview : p.view = .chunkSizeLF p.shown p.chunkSize := by simp [view, hstate]
      simp only [Clean, hstate] at hp
      split_ifs with hlf hsize
      · refine follows_ok hview (by simpa [Clean, hsize] using hp.1) rfl ?_
        simp [Phase.next, hlf, hsize, view, shown, hp.2]
      · refine follows_ok hview (by simpa [Clean, hsize] using hp.1) rfl ?_
        simp [Phase.next, hlf, hsize, view, shown]
      · exact follows_throwing hview (by simp [Phase.next, hlf])
  | parsingChunk =>
      have hview : p.view = .chunk p.shown p.chunkSize p.chunkBytesParsed := by
        simp [view, hstate]
      simp only [Clean, hstate] at hp
      split_ifs with hdone
      · exact follows_ok hview (by simpa [Clean] using hp) rfl
          (by simp [Phase.next, hdone, view, shown])
      · exact follows_ok hview (by simpa [Clean, hstate] using hp) rfl
          (by simp [Phase.next, hdone, view, shown])
  | parsingChunkCR =>
      have hview : p.view = .chunkCR p.shown := by simp [view, hstate]
      simp only [Clean, hstate] at hp
      split_ifs with hcr
      · exact follows_ok hview (by simpa [Clean] using hp) rfl
          (by simp [Phase.next, hcr, view, shown])
      · exact follows_throwing hview (by simp [Phase.next, hcr])
  | parsingChunkLF =>
      have hview : p.view = .chunkLF p.shown := by simp [view, hstate]
      simp only [Clean, hstate] at hp
      split_ifs with hlf
      · exact follows_ok hview (by simpa [Clean] using hp.1) rfl
          (by simp [Phase.next, hlf, view, shown, hp.2])
      · exact follows_throwing hview (by simp [Phase.next, hlf])
  | parsingTrailerHeader => exact parseHeader_follows true ch hstate hp
  | parsingTrailerHeaderName => exact parseHeaderName_follows true ch hstate hp
  | parsingTrailerHeaderValue => exact parseHeaderValue_follows true ch hstate hp
  | parsingTrailerHeaderValueLF => exact parseHeaderValueLF_follows true ch hstate hp
  | parsingTrailerHeaderValueLWS => exact parseHeaderValueLWS_follows true ch hstate hp
  | parsingFinalLF =>
      have hview : p.view = .endOfHeader true p.shown := by simp [view, hstate]
      split_ifs with hlf
      · exact follows_ok hview (by simp [Clean]) rfl (by simp [Phase.next, hlf, view, shown])
      · exact follows_throwing hview (by simp [Phase.next, hlf])

/-! ### A whole call of `parse` -/

@[simp] theorem state_updatePosition (p : MessageParser) (ch : Byte) :
    (p.updatePosition ch).state = p.state := by
  unfold updatePosition
  split <;> rfl

@[simp] theorem limits_updatePosition (p : MessageParser) (ch : Byte) :
    (p.updatePosition ch).limits = p.limits := by
  unfold updatePosition
  split <;> rfl

@[simp] theorem view_updatePosition (p : MessageParser) (ch : Byte) :
    (p.updatePosition ch).view = p.view := by
  unfold updatePosition
  split <;> rfl

@[simp] theorem clean_updatePosition (p : MessageParser) (ch : Byte) :
    (p.updatePosition ch).Clean ↔ p.Clean := by
  unfold updatePosition
  split <;> rfl

theorem isCompleted_view (p : MessageParser) : p.view.isCompleted = p.isCompleted := by
  unfold view isCompleted
  split <;> simp_all [Phase.isCompleted]

theorem bodyExpected_view (p : MessageParser) : p.view.bodyExpected = p.bodyExpected := by
  unfold view bodyExpected
  split <;> simp_all [Phase.bodyExpected]

theorem parse_of_throwing {p : MessageParser} {ch : Byte} {code : Code}
    (h : p.parseState ch = p.throwing ch code) : p.parse ch = p.throwing ch code := by
  simp only [parse, h, throwing, bind, Except.bind]

theorem parse_of_ok {p p' : MessageParser} {ch : Byte} (h : p.parseState ch = .ok p') :
    p.parse ch = .ok (p'.updatePosition ch, ⟨p.bodyExpected, p'.isCompleted⟩) := by
  simp [parse, h, bind, Except.bind, pure, Except.pure, isCompleted]

theorem parse_ok_iff {p r : MessageParser} {flags : Flags} {ch : Byte} :
    p.parse ch = .ok (r, flags) ↔ ∃ p', p.parseState ch = .ok p' ∧ r = p'.updatePosition ch ∧
      flags = ⟨p.bodyExpected, p'.isCompleted⟩ := by
  cases h : p.parseState ch with
  | error e => simp [parse, h, bind, Except.bind]
  | ok p' =>
      rw [parse_of_ok h]
      constructor
      · rintro ⟨⟩
        exact ⟨p', rfl, rfl, rfl⟩
      · rintro ⟨p'', hp, rfl, rfl⟩
        injection hp with hp
        rw [hp]

/-- **What a call of `parse` does to a clean parser.** Either it throws, with the
parser as it was, or it moves to a clean parser whose phase is the next one. -/
theorem parse_cases {p : MessageParser} (hp : p.Clean) (ch : Byte) :
    (∃ code, p.parse ch = p.throwing ch code ∧ p.view.step p.limits ch = .error code) ∨
      ∃ p' flags, p.parse ch = .ok (p', flags) ∧ p'.Clean ∧ p'.limits = p.limits ∧
        p.view.step p.limits ch = .ok (p'.view, flags) := by
  rcases parseState_follows hp ch with ⟨code, hthrow, hnext⟩ | ⟨p', hok, hclean, hlim, hnext⟩
  · exact .inl ⟨code, parse_of_throwing hthrow, by simp [Phase.step, hnext, Except.map]⟩
  · refine .inr ⟨_, _, parse_of_ok hok, by simpa using hclean, by simpa using hlim, ?_⟩
    simp [Phase.step, hnext, Except.map, isCompleted_view, bodyExpected_view]

theorem clean_create (limits : Limits) : (create limits).Clean := trivial

@[simp] theorem view_create (limits : Limits) : (create limits).view = Phase.initial := rfl

theorem clean_reset (p : MessageParser) : p.reset.Clean := trivial

/-- The parser as a machine that reads one byte at a time. -/
def machine : Transducer MessageParser Byte Flags Thrown where
  step := parse
  emit := Flags.isBodyChar
  last := Flags.completed

/-- The parser simulates the machine over phases. -/
theorem machine_simulates (lim : Limits) :
    Transducer.Simulates machine (Phase.recogniser lim)
      (fun p => p.Clean ∧ p.limits = lim) view where
  step_ok := by
    rintro p ch p' flags ⟨hclean, rfl⟩ hstep
    rcases parse_cases hclean ch with ⟨code, hthrow, -⟩ | ⟨r, f, hok, hr, hlim, hnext⟩
    · simp [machine, hthrow, throwing] at hstep
    · obtain ⟨rfl, rfl⟩ : r = p' ∧ f = flags := by simpa [machine, hok] using hstep
      exact ⟨⟨hr, hlim⟩, hnext⟩
  step_error := by
    rintro p ch e ⟨hclean, rfl⟩ hstep
    rcases parse_cases hclean ch with ⟨code, -, hnext⟩ | ⟨r, f, hok, -, -, -⟩
    · exact ⟨code, hnext⟩
    · simp [machine, hok] at hstep
  emit_eq := rfl
  last_eq := rfl

end MessageParser

end Httpxx
