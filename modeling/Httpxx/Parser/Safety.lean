import Httpxx.Parser.Session

/-!
What holds of every parser that calls can reach, whatever the bytes. The tokens,
the stored headers and the header being read stay within their character classes
and limits, and a body counter stays below its length and counts the body bytes
answered so far. The invariant is one of the machine over phases, kept by every
step of it (`Phase.Safe.next` and `Phase.Counted.next`); the parser inherits it
through `Clean` and `view`.
-/

namespace Httpxx

open Library

/-! ### The invariant -/

/-- A string of characters of a class, no longer than a limit; the first character
is let in whatever the limit. -/
structure TokenSafe (C : Byte → Prop) (bound : ℕ) (t : Bytes) : Prop where
  chars : ∀ ch ∈ t, C ch
  length : t.length ≤ max 1 bound

structure NameSafe (lim : Limits) (name : Bytes) : Prop
    extends TokenSafe (fun ch => isToken ch = true) lim.maxHeaderNameLength name where
  ne_nil : name ≠ []

structure ValueSafe (lim : Limits) (value : Bytes) : Prop where
  noControl : ∀ ch ∈ value, isControl ch = false
  length : value.length ≤ lim.maxHeaderValueLength

structure HeaderSafe (lim : Limits) (e : Bytes × Bytes) : Prop where
  name : NameSafe lim e.1
  value : ValueSafe lim e.2
  trimmed : Trimmed e.2

structure Shown.Safe (lim : Limits) (m : Shown) : Prop where
  firstToken : TokenSafe Visible lim.maxFirstTokenLength m.firstToken
  secondToken : TokenSafe Visible lim.maxSecondTokenLength m.secondToken
  thirdToken : TokenSafe Printable lim.maxThirdTokenLength m.thirdToken
  thirdToken_head : ∀ ch ∈ m.thirdToken.head?, ch ≠ SP
  headers : ∀ e ∈ m.headers.entries, HeaderSafe lim e
  headers_size : m.headers.size ≤ lim.maxHeadersAmount

namespace Phase

def shown : Phase → Shown
  | leadingSP => ⟨[], [], [], ∅⟩
  | firstToken t₁ | firstTokenSP t₁ => ⟨t₁, [], [], ∅⟩
  | secondToken t₁ t₂ | secondTokenSP t₁ t₂ => ⟨t₁, t₂, [], ∅⟩
  | thirdToken t₁ t₂ t₃ => ⟨t₁, t₂, t₃, ∅⟩
  | message m | firstLineLF m | header _ m | headerName _ m _ | headerValue _ m _ _
  | headerValueLF _ m _ _ | headerValueLWS _ m _ _ | endOfHeader _ m | identityBody m _ _
  | chunkSize m _ | chunkExtension m _ | chunkSizeLF m _ | chunk m _ _ | chunkCR m
  | chunkLF m => m

/-- What is being read in a phase is within its class and limits. -/
def ReadingSafe (lim : Limits) : Phase → Prop
  | thirdToken _ _ t₃ => t₃ ≠ []
  | headerName _ _ name => NameSafe lim name
  | headerValue _ _ name value | headerValueLF _ _ name value
  | headerValueLWS _ _ name value => NameSafe lim name ∧ ValueSafe lim value
  | identityBody _ length parsed => parsed < length ∧ length < 2 ^ 32
  | chunkExtension _ size | chunkSizeLF _ size => size < 2 ^ 32
  | chunk _ size parsed => parsed < size ∧ size < 2 ^ 32
  | _ => True

structure Safe (lim : Limits) (q : Phase) : Prop where
  shown : q.shown.Safe lim
  reading : q.ReadingSafe lim

/-- The body bytes answered so far, given the answers to the bytes of the message.
Before the body there are none; in a chunk they are those after the last byte
that is not of a body. -/
def Counted : Phase → List Bool → Prop
  | message _, _ => True
  | identityBody _ _ parsed, flags => parsed = flags.count true
  | chunk _ _ parsed, flags => parsed = (flags.rtakeWhile id).length
  | endOfHeader isTrailer _, flags | header isTrailer _, flags
  | headerName isTrailer _ _, flags | headerValue isTrailer _ _ _, flags
  | headerValueLF isTrailer _ _ _, flags | headerValueLWS isTrailer _ _ _, flags =>
      isTrailer = false → flags.count true = 0
  | leadingSP, flags | firstToken _, flags | firstTokenSP _, flags | secondToken _ _, flags
  | secondTokenSP _ _, flags | thirdToken _ _ _, flags | firstLineLF _, flags =>
      flags.count true = 0
  | _, _ => True

end Phase

/-! ### Every step keeps it -/

variable {lim : Limits}

theorem forall_mem_append_singleton {P : Byte → Prop} {t : Bytes} {ch : Byte}
    (ht : ∀ c ∈ t, P c) (hch : P ch) : ∀ c ∈ t ++ [ch], P c := by
  intro c hc
  rcases List.mem_append.mp hc with hc | hc
  · exact ht c hc
  · obtain rfl : c = ch := by simpa using hc
    exact hch

section Tokens

variable {C : Byte → Prop} {bound : ℕ}

theorem tokenSafe_nil : TokenSafe C bound [] := ⟨by simp, by simp⟩

theorem tokenSafe_singleton {ch : Byte} (h : C ch) : TokenSafe C bound [ch] :=
  ⟨by simpa using h, by simp⟩

theorem TokenSafe.append {t : Bytes} {ch : Byte} (h : TokenSafe C bound t) (hch : C ch)
    (hroom : t.length < bound) : TokenSafe C bound (t ++ [ch]) where
  chars := forall_mem_append_singleton h.chars hch
  length := by
    rw [List.length_append, List.length_singleton]
    omega

end Tokens

theorem nameSafe_singleton {ch : Byte} (h : isToken ch = true) : NameSafe lim [ch] :=
  ⟨tokenSafe_singleton h, by simp⟩

theorem NameSafe.append {name : Bytes} {ch : Byte} (h : NameSafe lim name)
    (hch : isToken ch = true) (hroom : name.length < lim.maxHeaderNameLength) :
    NameSafe lim (name ++ [ch]) :=
  ⟨h.toTokenSafe.append hch hroom, by simp⟩

theorem valueSafe_nil : ValueSafe lim [] := ⟨by simp, by simp⟩

theorem ValueSafe.append {value : Bytes} {ch : Byte} (h : ValueSafe lim value)
    (hch : isControl ch = false) (hroom : value.length < lim.maxHeaderValueLength) :
    ValueSafe lim (value ++ [ch]) where
  noControl := forall_mem_append_singleton h.noControl hch
  length := by
    rw [List.length_append, List.length_singleton]
    omega

theorem NameSafe.trim_eq {name : Bytes} (h : NameSafe lim name) : trim name = name :=
  trim_of_isToken h.chars

theorem headerSafe_trim {name value : Bytes} (hname : NameSafe lim name)
    (hvalue : ValueSafe lim value) : HeaderSafe lim (trim name, trim value) where
  name := by
    rw [hname.trim_eq]
    exact hname
  value := ⟨fun ch hch => hvalue.noControl ch (mem_of_mem_trim hch),
    (trim_length_le value).trans hvalue.length⟩
  trimmed := trimmed_trim value

namespace Shown.Safe

theorem empty : (⟨[], [], [], ∅⟩ : Shown).Safe lim :=
  ⟨tokenSafe_nil, tokenSafe_nil, tokenSafe_nil, by simp, by simp, by simp⟩

variable {m : Shown}

theorem setFirst (h : m.Safe lim) {t : Bytes}
    (ht : TokenSafe Visible lim.maxFirstTokenLength t) : { m with firstToken := t }.Safe lim :=
  { h with firstToken := ht }

theorem setSecond (h : m.Safe lim) {t : Bytes}
    (ht : TokenSafe Visible lim.maxSecondTokenLength t) : { m with secondToken := t }.Safe lim :=
  { h with secondToken := ht }

theorem setThird (h : m.Safe lim) {t : Bytes}
    (ht : TokenSafe Printable lim.maxThirdTokenLength t) (hhead : ∀ ch ∈ t.head?, ch ≠ SP) :
    { m with thirdToken := t }.Safe lim :=
  { h with thirdToken := ht, thirdToken_head := hhead }

theorem addHeader {name value : Bytes} (h : m.Safe lim)
    (hname : NameSafe lim name) (hvalue : ValueSafe lim value)
    (hroom : m.headers.size < lim.maxHeadersAmount) : (m.addHeader name value).Safe lim :=
  { h with
    headers e he := by
      rcases Multimap.mem_insert.mp he with rfl | he
      · exact headerSafe_trim hname hvalue
      · exact h.headers e he
    headers_size := by
      rw [Shown.addHeader, Multimap.size_insert]
      exact hroom }

end Shown.Safe

namespace Phase

theorem safe_initial (lim : Limits) : initial.Safe lim := ⟨.empty, trivial⟩

/-- **Every step of the machine keeps its tokens, headers and counters safe.** -/
theorem Safe.next {q q' : Phase} {ch : Byte} (hq : q.Safe lim) (h : Moves lim q ch q') :
    q'.Safe lim := by
  induction h with
  | leading => exact ⟨.empty, trivial⟩
  | first hch | firstAfterSP hch =>
      exact ⟨Shown.Safe.empty.setFirst (tokenSafe_singleton hch), trivial⟩
  | firstMore hch hroom =>
      exact ⟨hq.shown.setFirst (hq.shown.firstToken.append hch hroom), trivial⟩
  | second hch => exact ⟨hq.shown.setSecond (tokenSafe_singleton hch), trivial⟩
  | secondMore hch hroom =>
      exact ⟨hq.shown.setSecond (hq.shown.secondToken.append hch hroom), trivial⟩
  | @third t₁ t₂ ch hch =>
      have hhead : ∀ c ∈ [ch].head?, c ≠ SP := by
        simpa using ((visible_iff_printable_ne_SP ch).mp hch).2
      exact ⟨hq.shown.setThird (tokenSafe_singleton hch.printable) hhead, List.cons_ne_nil _ _⟩
  | @thirdMore t₁ t₂ t₃ ch hch hroom =>
      have hhead : ∀ c ∈ (t₃ ++ [ch]).head?, c ≠ SP := by
        rw [List.head?_append_of_ne_nil _ hq.reading]
        exact hq.shown.thirdToken_head
      exact ⟨hq.shown.setThird (hq.shown.thirdToken.append hch hroom) hhead,
        List.append_ne_nil_of_right_ne_nil _ (by simp)⟩
  | name hch => exact ⟨hq.shown, nameSafe_singleton hch⟩
  | nameMore hch hroom => exact ⟨hq.shown, NameSafe.append hq.reading hch hroom⟩
  | nameEnd => exact ⟨hq.shown, hq.reading, valueSafe_nil⟩
  | valueMore hch hroom => exact ⟨hq.shown, hq.reading.1, hq.reading.2.append hch hroom⟩
  | valueCR | valueLF => exact ⟨hq.shown, hq.reading⟩
  | fold _ hroom => exact ⟨hq.shown, hq.reading.1, hq.reading.2.append rfl hroom⟩
  | store hroom _ ih =>
      exact ih ⟨hq.shown.addHeader hq.reading.1 hq.reading.2 hroom, trivial⟩
  | identity hpos hlength => exact ⟨hq.shown, hpos, hlength⟩
  | identityMore hmore | chunkMore hmore => exact ⟨hq.shown, hmore, hq.reading.2⟩
  | @sizeEnd _ _ size | @sizeExtension _ _ size => exact ⟨hq.shown, size.toNat_lt⟩
  | extensionMore | extensionEnd => exact ⟨hq.shown, hq.reading⟩
  | chunk hpos => exact ⟨hq.shown, hpos, hq.reading⟩
  | _ => exact ⟨hq.shown, trivial⟩

theorem counted_of_message {m : Shown} {q : Phase} {ch : Byte}
    (h : Moves lim (message m) ch q) : q.Counted [false] := by
  cases h with
  | leading => rfl
  | first => rfl

/-- **Every step within a message counts what it answers.** -/
theorem Counted.next {q q' : Phase} {ch : Byte} {flags : List Bool} (hq : q.Counted flags)
    (hwithin : q.isCompleted = false) (h : Moves lim q ch q') :
    q'.Counted (flags ++ [q.bodyExpected]) := by
  have hnone : flags.count true = 0 → (flags ++ [false]).count true = 0 := by simp
  induction h with
  | leading | first => cases hwithin
  | leadingMore | firstAfterSP | firstMore | firstEnd | firstSP | second | secondMore | secondEnd
  | secondSP | third | thirdMore | thirdEnd => exact hnone hq
  | firstLine => exact fun _ => hnone hq
  | headersEnd | name | nameMore | nameEnd | valueMore | valueCR | valueLF | fold =>
      exact fun ht => hnone (hq ht)
  | store _ _ ih => exact ih hq rfl
  | identity => exact (hnone (hq rfl)).symm
  | @identityMore m n parsed _ _ =>
      have hcount : parsed = flags.count true := hq
      simp [Counted, bodyExpected, hcount]
  -- the size line before a chunk is not body, so the count of its data starts anew
  | chunk => simp [Counted, bodyExpected]
  | @chunkMore m size parsed _ _ =>
      have hcount : parsed = (flags.rtakeWhile id).length := hq
      simp [Counted, bodyExpected, hcount]
  | lastChunk => exact fun ht => by cases ht
  | _ => trivial

end Phase

/-! ### Every session -/

namespace MessageParser

/-- The fields that a phase leaves out are empty in a clean parser. -/
theorem shown_view {p : MessageParser} (hp : p.Clean) : p.view.shown = p.shown := by
  unfold Clean at hp
  unfold view shown Phase.shown
  cases hstate : p.state <;> simp_all

end MessageParser

namespace Session

/-- What the accessors and the counters of a parser promise at every moment. -/
structure Safe (lim : Limits) (s : Session) : Prop where
  shown : s.parser.shown.Safe lim
  /-- The body bytes of this message are counted, and more are to come. -/
  identityBody : s.parser.state = .parsingIdentityBody →
    s.parser.identityBodyBytesParsed < s.parser.contentLength ∧
      s.parser.contentLength < 2 ^ 32 ∧
      s.parser.identityBodyBytesParsed = (s.message.map Prod.snd).count true
  /-- The body bytes since the chunk began are counted, and more are to come. -/
  chunk : s.parser.state = .parsingChunk →
    s.parser.chunkBytesParsed < s.parser.chunkSize ∧ s.parser.chunkSize < 2 ^ 32 ∧
      s.parser.chunkBytesParsed = ((s.message.map Prod.snd).rtakeWhile id).length

/-- What holds of every phase between messages, of the phase after the first byte of a
message, and after every further byte, holds of every reachable parser and the bytes
it has accepted of its message. On the way its phase is safe. -/
theorem message_induction {J : Phase → List (Byte × Bool) → Prop}
    (hbetween : ∀ m msg, J (.message m) msg)
    (hfirst : ∀ {m q ch}, Phase.Moves lim (.message m) ch q → J q [(ch, false)])
    (hnext : ∀ {q q' ch msg}, J q msg → q.Safe lim → q.isCompleted = false →
      Phase.Moves lim q ch q' → J q' (msg ++ [(ch, q.bodyExpected)])) (calls : List Call) :
    (after lim calls).parser.view.Safe lim ∧
      J (after lim calls).parser.view (after lim calls).message := by
  refine (after_induction (I := fun s => (s.parser.Clean ∧ s.parser.limits = lim) ∧
    s.parser.view.Safe lim ∧ J s.parser.view s.message)
    ⟨⟨MessageParser.clean_create lim, rfl⟩, Phase.safe_initial lim, hbetween _ _⟩ ?_ calls).2
  rintro s call ⟨⟨hclean, hlim⟩, hsafe, hread⟩
  cases call with
  | reset => exact ⟨⟨MessageParser.clean_reset _, hlim⟩, Phase.safe_initial lim, hbetween _ _⟩
  | parse ch =>
      rcases MessageParser.parse_cases hclean ch with
        ⟨code, hthrow, -⟩ | ⟨p, flags, hok, hp, hplim, hparse⟩
      · rw [step_parse_of_error hthrow]
        exact ⟨⟨hclean, hlim⟩, hsafe, hread⟩
      · rw [step_parse_of_ok hok]
        obtain ⟨hstep, rfl⟩ := Phase.step_ok_iff.mp hparse
        rw [hlim] at hstep
        have hmoves := Phase.moves_of_next hstep
        refine ⟨⟨hp, hplim.trans hlim⟩, hsafe.next hmoves, ?_⟩
        cases hdone : s.parser.view.isCompleted with
        | true =>
            rw [if_pos (by rw [← MessageParser.isCompleted_view, hdone]), List.nil_append]
            cases hview : s.parser.view with
            | message m => exact hfirst (hview ▸ hmoves)
            | _ => simp [hview, Phase.isCompleted] at hdone
        | false =>
            rw [if_neg (by rw [← MessageParser.isCompleted_view, hdone]; simp)]
            exact hnext hread hsafe hdone hmoves

theorem view_after (lim : Limits) (calls : List Call) :
    (after lim calls).parser.view.Safe lim ∧
      (after lim calls).parser.view.Counted ((after lim calls).message.map Prod.snd) := by
  refine message_induction (J := fun q msg => q.Counted (msg.map Prod.snd)) (fun _ _ => trivial)
    (fun hmoves => Phase.counted_of_message hmoves) ?_ calls
  intro q q' ch msg hcounted _ hwithin hmoves
  rw [List.map_append]
  exact hcounted.next hwithin hmoves

/-- **Every reachable parser is safe**, whatever bytes it was given, accepted or
rejected, and whenever it was reset. -/
theorem safe_after (lim : Limits) (calls : List Call) : (after lim calls).Safe lim := by
  obtain ⟨hsafe, hcounted⟩ := view_after lim calls
  refine ⟨?_, ?_, ?_⟩
  · rw [← MessageParser.shown_view (clean_after lim calls).1]
    exact hsafe.shown
  · intro hstate
    have hreading := hsafe.reading
    simp only [MessageParser.view, hstate] at hreading hcounted
    exact ⟨hreading.1, hreading.2, hcounted⟩
  · intro hstate
    have hreading := hsafe.reading
    simp only [MessageParser.view, hstate] at hreading hcounted
    exact ⟨hreading.1, hreading.2, hcounted⟩

end Session

end Httpxx
