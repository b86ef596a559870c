import Httpxx.Grammar.HeaderSection

/-!
The machine over phases reads what follows a header section exactly when it is a
body that the headers announce. The decision is made on the stored headers, and
the grammar makes it on the list of lines; `framing_of_*` say that the two agree,
since a lookup in the multimap finds the entries of a name in the order in which
they were added.
-/

namespace Httpxx.Grammar

open Library Phase

variable {lim : Limits}

/-! ### The decision -/

/-- The headers stored after these lines. -/
def stored (lines : List (HeaderLine lim)) : Headers :=
  (∅ : Headers).insertAll (lines.map HeaderLine.entry)

theorem equalRange_stored (lines : List (HeaderLine lim)) (q : Bytes) :
    (stored lines).equalRange q =
      (lines.filter fun h => sameName h.name q).map HeaderLine.entry := by
  rw [stored, Multimap.equalRange_insertAll, List.filter_map]
  rfl

theorem haveValue_stored_iff (lines : List (HeaderLine lim)) :
    (stored lines).haveValue (str "Transfer-Encoding") (str "chunked") = true ↔
      AsksChunked lines := by
  simp [Headers.haveValue, equalRange_stored, AsksChunked, HeaderLine.entry]

theorem haveHeader_stored (lines : List (HeaderLine lim)) :
    (stored lines).haveHeader (str "Content-Length") = (contentLength? lines).isSome := by
  rw [Headers.haveHeader, equalRange_stored, contentLength?]
  cases lines.filter fun h => sameName h.name (str "Content-Length") <;> rfl

theorem value_stored {lines : List (HeaderLine lim)} {value : Bytes}
    (h : contentLength? lines = some value) :
    (stored lines).value (str "Content-Length") = value := by
  rw [Headers.value, equalRange_stored]
  rw [contentLength?] at h
  cases hfound : lines.filter fun h => sameName h.name (str "Content-Length") with
  | nil => simp [hfound] at h
  | cons l rest => simpa [hfound, HeaderLine.entry] using h

theorem contentLength?_eq (lines : List (HeaderLine lim)) :
    contentLength? lines =
      if (stored lines).haveHeader (str "Content-Length") then
        some ((stored lines).value (str "Content-Length")) else none := by
  rw [haveHeader_stored]
  cases hlength : contentLength? lines with
  | none => rfl
  | some value => rw [value_stored hlength, Option.isSome_some, if_pos rfl]

theorem framing_of_chunked {lines : List (HeaderLine lim)} (h : AsksChunked lines) :
    framing (stored lines) = .ok .chunked := by
  simp [framing, (haveValue_stored_iff lines).mpr h]

theorem framing_of_no_length {lines : List (HeaderLine lim)} (h : ¬ AsksChunked lines)
    (hlength : contentLength? lines = none) : framing (stored lines) = .ok .none := by
  have hno := mt (haveValue_stored_iff lines).mp h
  simp [framing, hno, haveHeader_stored, hlength]

theorem framing_of_length {lines : List (HeaderLine lim)} (h : ¬ AsksChunked lines)
    {value : Bytes} (hlength : contentLength? lines = some value) :
    framing (stored lines) = (toUnsignedInt value false).map fun n => .identity n.toNat := by
  have hno := mt (haveValue_stored_iff lines).mp h
  simp [framing, hno, haveHeader_stored, hlength, value_stored hlength]

/-! ### Chunks -/

theorem accepts_chunkExtension_iff (m : Shown) (n : ℕ) (w : Bytes) (u : Phase) (v : Bytes) :
    (recogniser lim).Accepts (.chunkExtension m n) w u v ↔
      ∃ x y, w = x ++ CR :: y ∧ (∀ ch ∈ x, ch ≠ CR) ∧
        (recogniser lim).Accepts (.chunkSizeLF m n) y u v := by
  have hscan := Transducer.accepts_scan_iff (recogniser lim) (fun _ => .chunkExtension m n)
    (fun _ _ => .chunkSizeLF m n) (fun ch => ch ≠ CR) (fun _ => True) (fun _ ch => ch = CR)
    (fun _ ch hch _ => silent_of_next (by simp [next, isCarriageReturn, hch]) rfl rfl)
    (fun _ _ _ hno => absurd trivial hno)
    (fun _ ch hch => silent_of_next (by simp [next, hch]) rfl rfl)
    (fun _ _ hch hne => absurd hne hch) (fun _ _ hch hne => hne hch) [] w u v
  rw [hscan]
  constructor
  · rintro ⟨x, a, y, rfl, hx, -, rfl, hacc⟩
    exact ⟨x, y, rfl, hx, hacc⟩
  · rintro ⟨x, y, rfl, hx, hacc⟩
    exact ⟨x, CR, y, rfl, hx, by simp, rfl, hacc⟩

/-- Where the first byte after the digits of a chunk size leads. -/
def afterDigits (m : Shown) (digits : Bytes) (ch : Byte) : Phase :=
  match toUnsignedInt digits true with
  | .error _ => .chunkSize m digits
  | .ok size => if isCarriageReturn ch then .chunkSizeLF m size.toNat
      else .chunkExtension m size.toNat

theorem accepts_digits_iff (m : Shown) (w : Bytes) (u : Phase) (v : Bytes) :
    (recogniser lim).Accepts (.chunkSize m []) w u v ↔
      ∃ digits ch y, w = digits ++ ch :: y ∧ (∀ c ∈ digits, isHexDigit c = true) ∧
        digits ≠ [] ∧ (∃ size, toUnsignedInt digits true = .ok size) ∧
        isHexDigit ch = false ∧ (recogniser lim).Accepts (afterDigits m digits ch) y u v := by
  have hscan := Transducer.accepts_scan_iff (recogniser lim) (Phase.chunkSize m)
    (afterDigits m) (fun ch => isHexDigit ch = true) (fun _ => True)
    (fun digits ch => isHexDigit ch = false ∧ digits ≠ [] ∧
      ∃ size, toUnsignedInt digits true = .ok size)
    (fun _ ch hch _ => silent_of_next (by simp [next, hch]) rfl rfl)
    (fun _ _ _ hno => absurd trivial hno)
    (by
      rintro digits ch ⟨hhex, hne, size, hread⟩
      refine silent_of_next ?_ rfl ?_
      · simp [next, hhex, hne, hread, afterDigits]
      · simp only [afterDigits, hread]
        split <;> rfl)
    (by
      intro digits ch hhex hno
      by_cases hne : digits = []
      · exact refuses_of_next .emptyChunkSize (by simp [next, hhex, hne])
      · cases hread : toUnsignedInt digits true with
        | error e => exact refuses_of_next .invalidChunkSize (by simp [next, hhex, hne, hread])
        | ok size => exact absurd ⟨by simpa using hhex, hne, size, hread⟩ hno)
    (fun _ ch hch hhex => by simp [hch.1] at hhex) [] w u v
  rw [hscan]
  constructor
  · rintro ⟨digits, ch, y, rfl, hhex, -, ⟨hch, hne, hread⟩, hacc⟩
    exact ⟨digits, ch, y, rfl, hhex, hne, hread, hch, hacc⟩
  · rintro ⟨digits, ch, y, rfl, hhex, hne, hread, hch, hacc⟩
    exact ⟨digits, ch, y, rfl, hhex, by simp, ⟨hch, hne, hread⟩, hacc⟩

/-- **A size line**, up to its CR. -/
theorem accepts_chunkSize_iff (m : Shown) (w : Bytes) (u : Phase) (v : Bytes) :
    (recogniser lim).Accepts (.chunkSize m []) w u v ↔
      ∃ (l : SizeLine) (y : Bytes), w = l.digits ++ l.extension ++ CR :: y ∧
        (recogniser lim).Accepts (.chunkSizeLF m l.size.toNat) y u v := by
  rw [accepts_digits_iff]
  constructor
  · rintro ⟨digits, ch, y, rfl, hhex, hne, ⟨size, hread⟩, hch, hacc⟩
    simp only [afterDigits, hread] at hacc
    by_cases hcr : ch = CR
    · subst hcr
      exact ⟨⟨digits, [], size, hne, hhex, hread, by simp, by simp⟩, y, by simp,
        by simpa using hacc⟩
    · rw [if_neg (by simpa [isCarriageReturn] using hcr), accepts_chunkExtension_iff] at hacc
      obtain ⟨x, y, rfl, hx, hacc⟩ := hacc
      exact ⟨⟨digits, ch :: x, size, hne, hhex, hread, by simpa using hch,
        List.forall_mem_cons.mpr ⟨hcr, hx⟩⟩, y, by simp, hacc⟩
  · rintro ⟨⟨digits, extension, size, hne, hhex, hread, hhead, hline⟩, y, rfl, hacc⟩
    cases extension with
    | nil =>
        exact ⟨digits, CR, y, by simp, hhex, hne, ⟨size, hread⟩, rfl,
          by simpa [afterDigits, hread] using hacc⟩
    | cons ch x =>
        obtain ⟨hcr, hx⟩ := List.forall_mem_cons.mp hline
        refine ⟨digits, ch, x ++ CR :: y, by simp, hhex, hne, ⟨size, hread⟩, hhead ch rfl, ?_⟩
        simp only [afterDigits, hread]
        rw [if_neg (by simpa [isCarriageReturn] using hcr), accepts_chunkExtension_iff]
        exact ⟨x, y, rfl, hx, hacc⟩

theorem accepts_chunkCR_iff (m : Shown) (w : Bytes) (u : Phase) (v : Bytes) :
    (recogniser lim).Accepts (.chunkCR m) w u v ↔
      ∃ y, w = CR :: LF :: y ∧ (recogniser lim).Accepts (.chunkSize m []) y u v := by
  have hlf := fun z => Transducer.accepts_expect_iff (M := recogniser lim) (s := .chunkLF m)
    (t := .chunkSize m []) (a := LF) (silent_of_next (by simp [next]) rfl rfl)
    (fun ch hch => refuses_of_next .invalidChunkDataLF (by simp [next, isLineFeed, hch])) z u v
  rw [Transducer.accepts_expect_iff (t := .chunkLF m) (a := CR)
    (silent_of_next (by simp [next]) rfl rfl)
    (fun ch hch => refuses_of_next .invalidChunkDataCR (by simp [next, isCarriageReturn, hch]))]
  simp only [hlf]
  constructor
  · rintro ⟨_, rfl, y, rfl, hacc⟩
    exact ⟨y, rfl, hacc⟩
  · rintro ⟨y, rfl, hacc⟩
    exact ⟨_, rfl, y, rfl, hacc⟩

theorem accepts_chunkSizeLF_iff (m : Shown) (n : ℕ) (w : Bytes) (u : Phase) (v : Bytes) :
    (recogniser lim).Accepts (.chunkSizeLF m n) w u v ↔
      ∃ y, w = LF :: y ∧
        (recogniser lim).Accepts (if n > 0 then .chunk m n 0 else .header true m) y u v := by
  refine Transducer.accepts_expect_iff (silent_of_next (by simp [next]) rfl ?_)
    (fun ch hch => refuses_of_next .invalidChunkSizeLF (by simp [next, isLineFeed, hch])) w u v
  split <;> rfl

/-- The data of a chunk, and the line break after it. -/
theorem accepts_data_iff (m : Shown) {n : ℕ} (hn : 0 < n) (w : Bytes) (u : Phase) (v : Bytes) :
    (recogniser lim).Accepts (.chunk m n 0) w u v ↔
      ∃ data y v', w = data ++ CR :: LF :: y ∧ data.length = n ∧ v = data ++ v' ∧
        (recogniser lim).Accepts (.chunkSize m []) y u v' := by
  rw [Transducer.accepts_count_iff (recogniser lim) (Phase.chunk m n) (.chunkCR m) n
    (fun k ch hk => ⟨⟨true, false⟩, by simp [recogniser, step, next, Nat.not_le.mpr hk,
      Except.map, bodyExpected, isCompleted], rfl, rfl⟩)
    (fun k ch hk => ⟨⟨true, false⟩, by simp [recogniser, step, next, hk, Except.map,
      bodyExpected, isCompleted], rfl, rfl⟩) 0 hn]
  simp only [accepts_chunkCR_iff, Nat.zero_add]
  constructor
  · rintro ⟨data, _, v', rfl, hlen, rfl, y, rfl, hacc⟩
    exact ⟨data, y, v', rfl, hlen, rfl, hacc⟩
  · rintro ⟨data, y, v', rfl, hlen, rfl, hacc⟩
    exact ⟨data, _, v', rfl, hlen, rfl, y, rfl, hacc⟩

/-- **Chunks**, up to the size line of the last one. -/
theorem accepts_chunks_iff (m : Shown) (w : Bytes) (u : Phase) (v : Bytes) :
    (recogniser lim).Accepts (.chunkSize m []) w u v ↔
      ∃ (chunks : List Chunk) (last : SizeLine) (y v' : Bytes),
        w = chunks.flatMap Chunk.text ++ last.text ++ y ∧ last.size.toNat = 0 ∧
        v = chunks.flatMap Chunk.data ++ v' ∧
        (recogniser lim).Accepts (.header true m) y u v' := by
  induction hw : w.length using Nat.strong_induction_on generalizing w v with
  | h k ih =>
      rw [accepts_chunkSize_iff]
      simp only [accepts_chunkSizeLF_iff]
      constructor
      · rintro ⟨l, _, rfl, y, rfl, hacc⟩
        by_cases hsize : l.size.toNat > 0
        · rw [if_pos hsize, accepts_data_iff m hsize] at hacc
          obtain ⟨data, y, v', rfl, hlen, rfl, hacc⟩ := hacc
          have hshort : y.length < k := by
            simp only [← hw, List.length_append, List.length_cons]
            omega
          obtain ⟨chunks, last, y, v'', rfl, hlast, rfl, hrest⟩ := (ih _ hshort y v' rfl).mp hacc
          have hdata : data ≠ [] := by
            rintro rfl
            simp only [List.length_nil] at hlen
            omega
          exact ⟨⟨l, data, hdata, hlen⟩ :: chunks, last, y, v'',
            by simp [Chunk.text, SizeLine.text], hlast, by simp, hrest⟩
        · rw [if_neg hsize] at hacc
          exact ⟨[], l, y, v, by simp [SizeLine.text], by omega, rfl, hacc⟩
      · rintro ⟨chunks, last, y, v', rfl, hlast, rfl, hacc⟩
        cases chunks with
        | nil =>
            refine ⟨last, LF :: y, by simp [SizeLine.text], y, rfl, ?_⟩
            rw [if_neg (by omega)]
            exact hacc
        | cons c chunks =>
            have hpos : 0 < c.size.toNat := by
              rw [← c.data_length]
              exact List.length_pos_iff.mpr c.data_ne
            have hshort : (chunks.flatMap Chunk.text ++ last.text ++ y).length < k := by
              simp only [← hw, List.flatMap_cons, Chunk.text, SizeLine.text, List.length_append,
                List.length_cons, List.length_nil]
              omega
            refine ⟨c.toSizeLine, LF :: (c.data ++ CR :: LF ::
              (chunks.flatMap Chunk.text ++ last.text ++ y)), by simp [Chunk.text, SizeLine.text],
              _, rfl, ?_⟩
            rw [if_pos hpos, accepts_data_iff m hpos]
            exact ⟨c.data, _, chunks.flatMap Chunk.data ++ v', rfl, c.data_length, by simp,
              (ih _ hshort _ _ rfl).mpr ⟨chunks, last, y, v', rfl, hlast, rfl, hacc⟩⟩

/-! ### Bodies -/

theorem accepts_finalLF_iff (m : Shown) (w : Bytes) (u : Phase) (v : Bytes) :
    (recogniser lim).Accepts (.endOfHeader true m) w u v ↔
      w = [LF] ∧ u = .message m ∧ v = [] := by
  cases w with
  | nil => simp
  | cons ch w =>
      by_cases hlf : ch = LF
      · subst hlf
        have hstep : (recogniser lim).step (.endOfHeader true m) LF =
            .ok (.message m, ⟨false, true⟩) := by
          simp [recogniser, step, next, Except.map, bodyExpected, isCompleted]
        rw [Transducer.accepts_cons_last_iff hstep rfl]
        simp [Transducer.emitted, recogniser]
      · have hstep : (recogniser lim).Refuses (.endOfHeader true m) ch :=
          refuses_of_next .invalidFinalLF (by simp [next, isLineFeed, hlf])
        simp [hstep.not_accepts, hlf]

theorem accepts_message_end_iff {m : Shown} (hbody : beginBody m = .ok (.message m)) (w : Bytes)
    (u : Phase) (v : Bytes) :
    (recogniser lim).Accepts (.endOfHeader false m) (LF :: w) u v ↔
      w = [] ∧ u = .message m ∧ v = [] := by
  have hstep : (recogniser lim).step (.endOfHeader false m) LF =
      .ok (.message m, ⟨false, true⟩) := by
    simp [recogniser, step, next, hbody, Except.map, bodyExpected, isCompleted]
  rw [Transducer.accepts_cons_last_iff hstep rfl]
  simp [Transducer.emitted, recogniser]

theorem accepts_body_begin_iff {m : Shown} {q : Phase} (hbody : beginBody m = .ok q)
    (hq : q.isCompleted = false) (w : Bytes) (u : Phase) (v : Bytes) :
    (recogniser lim).Accepts (.endOfHeader false m) (LF :: w) u v ↔
      (recogniser lim).Accepts q w u v :=
  (silent_of_next (by simp [next, hbody]) rfl hq).accepts_iff w u v

theorem accepts_identityBody_iff (m : Shown) {n : ℕ} (hn : 0 < n) (w : Bytes) (u : Phase)
    (v : Bytes) :
    (recogniser lim).Accepts (.identityBody m n 0) w u v ↔
      w.length = n ∧ u = .message m ∧ v = w := by
  rw [Transducer.accepts_count_last_iff (recogniser lim) (Phase.identityBody m n) (.message m) n
    (fun k ch hk => ⟨⟨true, false⟩, by simp [recogniser, step, next, Nat.not_le.mpr hk,
      Except.map, bodyExpected, isCompleted], rfl, rfl⟩)
    (fun k ch hk => ⟨⟨true, true⟩, by simp [recogniser, step, next, hk, Except.map,
      bodyExpected, isCompleted], rfl, rfl⟩) 0 hn, Nat.zero_add]

theorem accepts_chunked_iff (m : Shown) (hm : m.headers.size ≤ lim.maxHeadersAmount) (w : Bytes)
    (u : Phase) (v : Bytes) :
    (recogniser lim).Accepts (.chunkSize m []) w u v ↔
      ∃ (chunks : List Chunk) (last : SizeLine) (trailers : List (HeaderLine lim)),
        w = chunks.flatMap Chunk.text ++ last.text ++ trailers.flatMap HeaderLine.text ++ [CR, LF] ∧
        last.size.toNat = 0 ∧ m.headers.size + trailers.length ≤ lim.maxHeadersAmount ∧
        u = .message (m.addHeaders trailers) ∧ v = chunks.flatMap Chunk.data := by
  rw [accepts_chunks_iff]
  constructor
  · rintro ⟨chunks, last, y, v', rfl, hlast, rfl, hacc⟩
    obtain ⟨trailers, y, rfl, hamount, hacc⟩ := (accepts_headers_iff true m hm y u v').mp hacc
    obtain ⟨rfl, rfl, rfl⟩ := (accepts_finalLF_iff _ y u v').mp hacc
    exact ⟨chunks, last, trailers, by simp, hlast, hamount, rfl, by simp⟩
  · rintro ⟨chunks, last, trailers, rfl, hlast, hamount, rfl, rfl⟩
    exact ⟨chunks, last, trailers.flatMap HeaderLine.text ++ [CR, LF], [], by simp, hlast,
      by simp, (accepts_headers_iff true m hm _ _ _).mpr ⟨trailers, [LF], rfl, hamount,
        (accepts_finalLF_iff _ _ _ _).mpr ⟨rfl, rfl, rfl⟩⟩⟩

theorem Body.of_length {lines : List (HeaderLine lim)} (hchunked : ¬ AsksChunked lines)
    {value : Bytes} (hlength : contentLength? lines = some value) {n : UInt32}
    (hread : toUnsignedInt value false = .ok n) (body : Body lim lines) :
    body.trailers = [] ∧ body.text = body.data ∧ body.data.length = n.toNat := by
  cases body with
  | empty _ hnone => simp [hlength] at hnone
  | identity value' n' data _ hsome hok hdata =>
      obtain rfl : value = value' := by simpa [hlength] using hsome
      obtain rfl : n = n' := by simpa [hread] using hok
      exact ⟨rfl, rfl, hdata⟩
  | chunked hyes => exact absurd hyes hchunked

/-- A body of a given length, down to none, after the LF of the empty line. -/
theorem accepts_length_iff {m : Shown} {n : ℕ} (hframing : framing m.headers = .ok (.identity n))
    (w : Bytes) (u : Phase) (v : Bytes) :
    (recogniser lim).Accepts (.endOfHeader false m) (LF :: w) u v ↔
      w.length = n ∧ u = .message m ∧ v = w := by
  by_cases hzero : n = 0
  · subst hzero
    have hbody : beginBody m = .ok (.message m) := by simp [beginBody, hframing]
    rw [accepts_message_end_iff hbody, List.length_eq_zero_iff]
    constructor
    · rintro ⟨rfl, rfl, rfl⟩
      exact ⟨rfl, rfl, rfl⟩
    · rintro ⟨rfl, rfl, rfl⟩
      exact ⟨rfl, rfl, rfl⟩
  · have hbody : beginBody m = .ok (.identityBody m n 0) := by
      simp [beginBody, hframing, hzero]
    rw [accepts_body_begin_iff hbody rfl, accepts_identityBody_iff m (Nat.pos_of_ne_zero hzero)]

/-- **A body.** After a header section the machine accepts exactly the bodies that
its lines announce, and ends with their trailers added. -/
theorem accepts_body_iff (lines : List (HeaderLine lim)) (m : Shown)
    (hm : m.headers = stored lines) (hamount : lines.length ≤ lim.maxHeadersAmount) (w : Bytes)
    (u : Phase) (v : Bytes) :
    (recogniser lim).Accepts (.endOfHeader false m) w u v ↔
      ∃ body : Body lim lines, w = LF :: body.text ∧
        lines.length + body.trailers.length ≤ lim.maxHeadersAmount ∧
        u = .message (m.addHeaders body.trailers) ∧ v = body.data := by
  have hsize : m.headers.size = lines.length := by simp [hm, stored]
  cases w with
  | nil => exact iff_of_false (Transducer.not_accepts_nil _ _ _ _) (by simp)
  | cons ch w =>
      by_cases hlf : ch = LF
      swap
      · have hstep : (recogniser lim).Refuses (.endOfHeader false m) ch :=
          refuses_of_next .invalidHeaderLF (by simp [next, isLineFeed, hlf])
        simp [hstep.not_accepts, hlf]
      subst hlf
      by_cases hchunked : AsksChunked lines
      · have hbody : beginBody m = .ok (.chunkSize m []) := by
          simp [beginBody, hm, framing_of_chunked hchunked]
        rw [accepts_body_begin_iff hbody rfl, accepts_chunked_iff m (by omega)]
        constructor
        · rintro ⟨chunks, last, trailers, rfl, hlast, htotal, rfl, rfl⟩
          exact ⟨.chunked hchunked chunks last hlast trailers, rfl, hsize ▸ htotal, rfl, rfl⟩
        · rintro ⟨body, heq, htotal, rfl, rfl⟩
          cases body with
          | empty hno => exact absurd hchunked hno
          | identity _ _ _ hno => exact absurd hchunked hno
          | chunked _ chunks last hlast trailers =>
              exact ⟨chunks, last, trailers, by simpa [Body.text] using heq, hlast,
                by rw [hsize]; exact htotal, rfl, rfl⟩
      -- no header asks for chunks: the first length decides, if there is one
      cases hlength : contentLength? lines with
      | none =>
          have hbody : beginBody m = .ok (.message m) := by
            simp [beginBody, hm, framing_of_no_length hchunked hlength]
          rw [accepts_message_end_iff hbody]
          constructor
          · rintro ⟨rfl, rfl, rfl⟩
            exact ⟨.empty hchunked hlength, rfl, hamount, rfl, rfl⟩
          · rintro ⟨body, heq, htotal, rfl, rfl⟩
            cases body with
            | empty => exact ⟨by simpa [Body.text] using heq, rfl, rfl⟩
            | identity _ _ _ _ hsome => simp [hlength] at hsome
            | chunked hyes => exact absurd hyes hchunked
      | some value =>
          cases hread : toUnsignedInt value false with
          | error e =>
              have hbody : beginBody m = .error .invalidContentLength := by
                simp [beginBody, hm, framing_of_length hchunked hlength, hread, Except.map]
              have hstep : (recogniser lim).Refuses (.endOfHeader false m) LF :=
                refuses_of_next .invalidContentLength (by simp [next, hbody])
              refine iff_of_false (hstep.not_accepts w u v) ?_
              rintro ⟨body, -⟩
              cases body with
              | empty _ hnone => simp [hlength] at hnone
              | identity value' n data _ hsome hok =>
                  obtain rfl : value = value' := by simpa [hlength] using hsome
                  simp [hread] at hok
              | chunked hyes => exact absurd hyes hchunked
          | ok n =>
              have hframing : framing m.headers = .ok (.identity n.toNat) := by
                simp [hm, framing_of_length hchunked hlength, hread, Except.map]
              rw [accepts_length_iff hframing]
              constructor
              · rintro ⟨hlen, rfl, rfl⟩
                exact ⟨.identity value n v hchunked hlength hread hlen, rfl, hamount, rfl, rfl⟩
              · rintro ⟨body, heq, -, rfl, rfl⟩
                obtain ⟨htrailers, htext, hlen⟩ := body.of_length hchunked hlength hread
                obtain rfl : w = body.text := by simpa using heq
                rw [htrailers, htext]
                exact ⟨hlen, rfl, rfl⟩

end Httpxx.Grammar
