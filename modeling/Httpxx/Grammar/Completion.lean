import Httpxx.Grammar.DeadEnds

/-!
A message is completed from every phase that can end: the size line of a last chunk
after a chunk, the bytes of an identity body, the header that makes the headers delimit
a body. With `DeadEnds.lean` this says exactly when a parser is at a dead end.
-/

namespace Httpxx

open Library Grammar

namespace Phase

variable {lim : Limits}

theorem isSpaceOrTab_SP : isSpaceOrTab SP = true := rfl

theorem live_of_next {q q' : Phase} {ch : Byte} (h : q.next lim ch = .ok q')
    (hq : q'.isCompleted = true ∨ (recogniser lim).Live q') : (recogniser lim).Live q :=
  .of_step (step_ok_iff.mpr ⟨h, rfl⟩) hq

/-! ### Bodies and trailers -/

theorem live_endOfTrailers (m : Shown) : (recogniser lim).Live (endOfHeader true m) := by
  have h : (endOfHeader true m).next lim LF = .ok (message m) := by simp [next]
  exact live_of_next h (.inl rfl)

theorem live_header_of_end {isTrailer : Bool} {m : Shown}
    (h : (recogniser lim).Live (endOfHeader isTrailer m)) :
    (recogniser lim).Live (header isTrailer m) := by
  have hnext : (header isTrailer m).next lim CR = .ok (endOfHeader isTrailer m) := by
    simp [next, beginHeader]
  exact live_of_next hnext (.inr h)

theorem live_identityBody (m : Shown) (length parsed : ℕ) :
    (recogniser lim).Live (identityBody m length parsed) := by
  induction hn : length - parsed using Nat.strong_induction_on generalizing parsed with
  | h n ih =>
      by_cases hdone : parsed + 1 ≥ length
      · have h : (identityBody m length parsed).next lim 0 = .ok (message m) := by
          simp [next, hdone]
        exact live_of_next h (.inl rfl)
      · have h : (identityBody m length parsed).next lim 0 =
            .ok (identityBody m length (parsed + 1)) := by
          simp [next, hdone]
        exact live_of_next h (.inr (ih _ (by omega) _ rfl))

theorem live_chunkSizeLF_zero (m : Shown) : (recogniser lim).Live (chunkSizeLF m 0) := by
  have h : (chunkSizeLF m 0).next lim LF = .ok (header true m) := by simp [next]
  exact live_of_next h (.inr (live_header_of_end (live_endOfTrailers m)))

theorem live_chunkSize_of_reads {m : Shown} {digits : Bytes} {size : UInt32}
    (hne : digits ≠ []) (hread : toUnsignedInt digits true = .ok size)
    (h : (recogniser lim).Live (chunkSizeLF m size.toNat)) :
    (recogniser lim).Live (chunkSize m digits) := by
  have hcr : isHexDigit CR = false := by decide
  have hnext : (chunkSize m digits).next lim CR = .ok (chunkSizeLF m size.toNat) := by
    simp [next, hcr, hne, hread]
  exact live_of_next hnext (.inr h)

theorem live_chunkSize (m : Shown) : (recogniser lim).Live (chunkSize m []) := by
  have hdigit : isHexDigit 0x30 = true := by decide
  have hnext : (chunkSize m []).next lim 0x30 = .ok (chunkSize m [0x30]) := by
    simp [next, hdigit]
  have hread : toUnsignedInt [0x30] true = .ok 0 := by decide
  exact live_of_next hnext
    (.inr (live_chunkSize_of_reads (by simp) hread (live_chunkSizeLF_zero m)))

theorem live_chunkLF (m : Shown) : (recogniser lim).Live (chunkLF m) := by
  have h : (chunkLF m).next lim LF = .ok (chunkSize m []) := by simp [next]
  exact live_of_next h (.inr (live_chunkSize m))

theorem live_chunkCR (m : Shown) : (recogniser lim).Live (chunkCR m) := by
  have h : (chunkCR m).next lim CR = .ok (chunkLF m) := by simp [next]
  exact live_of_next h (.inr (live_chunkLF m))

theorem live_chunk (m : Shown) (size parsed : ℕ) : (recogniser lim).Live (chunk m size parsed) := by
  induction hn : size - parsed using Nat.strong_induction_on generalizing parsed with
  | h n ih =>
      by_cases hdone : parsed + 1 ≥ size
      · have h : (chunk m size parsed).next lim 0 = .ok (chunkCR m) := by simp [next, hdone]
        exact live_of_next h (.inr (live_chunkCR m))
      · have h : (chunk m size parsed).next lim 0 = .ok (chunk m size (parsed + 1)) := by
          simp [next, hdone]
        exact live_of_next h (.inr (ih _ (by omega) _ rfl))

theorem live_chunkSizeLF (m : Shown) (size : ℕ) : (recogniser lim).Live (chunkSizeLF m size) := by
  cases size with
  | zero => exact live_chunkSizeLF_zero m
  | succ n =>
      have h : (chunkSizeLF m (n + 1)).next lim LF = .ok (chunk m (n + 1) 0) := by simp [next]
      exact live_of_next h (.inr (live_chunk m _ _))

theorem live_chunkExtension (m : Shown) (size : ℕ) :
    (recogniser lim).Live (chunkExtension m size) := by
  have h : (chunkExtension m size).next lim CR = .ok (chunkSizeLF m size) := by simp [next]
  exact live_of_next h (.inr (live_chunkSizeLF m size))

theorem live_endOfHeader {m : Shown} (h : m.Framed) :
    (recogniser lim).Live (endOfHeader false m) := by
  obtain ⟨f, hf⟩ := h
  have hnext : (endOfHeader false m).next lim LF = beginBody m := by simp [next]
  rw [beginBody, hf] at hnext
  cases f with
  | none => exact live_of_next hnext (.inl rfl)
  | identity n =>
      refine live_of_next hnext ?_
      split_ifs
      · exact .inl rfl
      · exact .inr (live_identityBody m n 0)
  | chunked => exact live_of_next hnext (.inr (live_chunkSize m))

/-! ### Header sections -/

section

variable {isTrailer : Bool} {m : Shown} {name value : Bytes}

/-- What begins the line after a header goes on behind it too. -/
theorem live_headerValueLWS (hsize : m.headers.size < lim.maxHeadersAmount)
    (h : (recogniser lim).Live (header isTrailer (m.addHeader name value))) :
    (recogniser lim).Live (headerValueLWS isTrailer m name value) := by
  obtain ⟨w, u, v, hacc⟩ := h
  cases w with
  | nil => exact absurd hacc (Transducer.not_accepts_nil _ _ _ _)
  | cons ch w =>
      have hsp := (isSpaceOrTab_of_accepts_header hacc).2
      exact ⟨ch :: w, u, v, (accepts_headerValueLWS_iff _ _ _ _ hsp w u v).mpr ⟨hsize, hacc⟩⟩

theorem live_headerValueLF
    (h : (recogniser lim).Live (headerValueLWS isTrailer m name value)) :
    (recogniser lim).Live (headerValueLF isTrailer m name value) := by
  have hnext : (headerValueLF isTrailer m name value).next lim LF =
      .ok (headerValueLWS isTrailer m name value) := by simp [next]
  exact live_of_next hnext (.inr h)

/-- A value that goes on with the characters `x`. -/
theorem live_headerValue_of_append {x : Bytes} (hx : ∀ ch ∈ x, isControl ch = false)
    (hroom : (value ++ x).length ≤ lim.maxHeaderValueLength)
    (hsize : m.headers.size < lim.maxHeadersAmount)
    (h : (recogniser lim).Live (header isTrailer (m.addHeader name (value ++ x)))) :
    (recogniser lim).Live (headerValue isTrailer m name value) := by
  induction x generalizing value with
  | nil =>
      rw [List.append_nil] at h
      have hnext : (headerValue isTrailer m name value).next lim CR =
          .ok (headerValueLF isTrailer m name value) := by simp [next]
      exact live_of_next hnext (.inr (live_headerValueLF (live_headerValueLWS hsize h)))
  | cons ch x ih =>
      obtain ⟨hch, hx⟩ := List.forall_mem_cons.mp hx
      have hnotcr : isCarriageReturn ch = false := by
        simpa [isCarriageReturn] using ne_CR_of_not_isControl hch
      have hlt : value.length < lim.maxHeaderValueLength := by
        rw [List.length_append, List.length_cons] at hroom
        omega
      have hnext : (headerValue isTrailer m name value).next lim ch =
          .ok (headerValue isTrailer m name (value ++ [ch])) := by
        simp [next, hnotcr, hch, hlt]
      refine live_of_next hnext (.inr (ih hx ?_ ?_))
      · simpa using hroom
      · simpa using h

theorem live_headerName_of_append {x : Bytes} (hx : ∀ ch ∈ x, isToken ch = true)
    (hroom : x = [] ∨ (name ++ x).length ≤ lim.maxHeaderNameLength)
    (h : (recogniser lim).Live (headerValue isTrailer m (name ++ x) [])) :
    (recogniser lim).Live (headerName isTrailer m name) := by
  induction x generalizing name with
  | nil =>
      rw [List.append_nil] at h
      have hnext : (headerName isTrailer m name).next lim colon =
          .ok (headerValue isTrailer m name []) := by simp [next]
      exact live_of_next hnext (.inr h)
  | cons ch x ih =>
      obtain ⟨hch, hx⟩ := List.forall_mem_cons.mp hx
      have hroom := hroom.resolve_left (by simp)
      have hnotcr : isCarriageReturn ch = false := by
        simpa [isCarriageReturn] using ne_CR_of_isToken hch
      have hlt : name.length < lim.maxHeaderNameLength := by
        rw [List.length_append, List.length_cons] at hroom
        omega
      have hnext : (headerName isTrailer m name).next lim ch =
          .ok (headerName isTrailer m (name ++ [ch])) := by
        simp [next, hnotcr, ne_colon_of_isToken hch, hch, hlt]
      refine live_of_next hnext (.inr (ih hx (.inr ?_) ?_))
      · simpa using hroom
      · simpa using h

theorem live_headerValue_chunked (hname : NameSafe lim name)
    (hsame : sameName name (str "Transfer-Encoding") = true)
    (hsize : m.headers.size < lim.maxHeadersAmount) (h : BeginsChunked lim value) :
    (recogniser lim).Live (headerValue isTrailer m name value) := by
  obtain ⟨⟨x, hx⟩, hlength⟩ := h
  have hsplit : value ++ x = value.takeWhile isTrimmed ++ str "chunked" := by
    rw [← hx, ← List.append_assoc, List.takeWhile_append_dropWhile]
  have hplain : ∀ ch ∈ str "chunked", isControl ch = false := by decide
  refine live_headerValue_of_append (x := x) (fun ch hch => hplain ch ?_) ?_ hsize ?_
  · rw [← hx]
    exact List.mem_append_right _ hch
  · rw [hsplit, List.length_append]
    exact hlength
  · refine live_header_of_end ?_
    cases isTrailer with
    | true => exact live_endOfTrailers _
    | false =>
        refine live_endOfHeader ((framed_addHeader_iff _ _ _).mpr (.inr (.inl ⟨?_, ?_⟩)))
        · rwa [hname.trim_eq]
        · have hlead : ∀ ch ∈ value.takeWhile isTrimmed, ch ∈ charsToTrim := fun ch hch =>
            (isTrimmed_iff ch).mp (List.mem_takeWhile_imp hch)
          rw [hsplit, trim_append_left hlead]
          decide

theorem live_fold (hname : NameSafe lim name)
    (hsame : sameName name (str "Transfer-Encoding") = true)
    (hsize : m.headers.size < lim.maxHeadersAmount) (h : BeginsChunked lim (value ++ [SP])) :
    (recogniser lim).Live (headerValueLWS isTrailer m name value) := by
  have hroom : value.length < lim.maxHeaderValueLength := by
    have hlength := congrArg List.length
      (List.takeWhile_append_dropWhile (p := isTrimmed) (l := value ++ [SP]))
    rw [List.length_append, List.length_append, List.length_singleton] at hlength
    have hle := h.1.length_le
    have hbound := h.2
    omega
  have hnext : (headerValueLWS isTrailer m name value).next lim SP =
      .ok (headerValue isTrailer m name (value ++ [SP])) := by simp [next, isSpaceOrTab_SP, hroom]
  exact live_of_next hnext (.inr (live_headerValue_chunked hname hsame hsize h))

/-- A name that can go on to `Transfer-Encoding`. -/
theorem live_headerName_chunked (hname : NameSafe lim name)
    (hsize : m.headers.size < lim.maxHeadersAmount) (h : BeginsTransferEncoding lim name) :
    (recogniser lim).Live (headerName isTrailer m name) := by
  obtain ⟨hbegins, hnameRoom, hvalueRoom⟩ := h
  have htokens : ∀ ch ∈ str "Transfer-Encoding", isToken ch = true := by decide
  have hwhole : EqIgnoringCase (name ++ (str "Transfer-Encoding").drop name.length)
      (str "Transfer-Encoding") := by
    have hmap := congrArg (· ++ ((str "Transfer-Encoding").drop name.length).map tolower) hbegins
    simp only [← List.map_append, List.take_append_drop] at hmap
    exact hmap
  have hsafe : NameSafe lim (name ++ (str "Transfer-Encoding").drop name.length) := by
    refine ⟨⟨hwhole.isToken htokens, ?_⟩, by simp [hname.ne_nil]⟩
    rw [hwhole.length_eq]
    exact hnameRoom.trans (le_max_right _ _)
  refine live_headerName_of_append
    (fun ch hch => htokens ch (List.mem_of_mem_drop hch)) (.inr ?_)
    (live_headerValue_chunked hsafe ?_ hsize ⟨by simp, by simpa using hvalueRoom⟩)
  · rw [hwhole.length_eq]
    exact hnameRoom
  · exact (sameName_iff_eqIgnoringCase (hwhole.isToken htokens) htokens).mpr hwhole

/-- **A header section can be completed** when its headers delimit the body, or one
more line makes them. -/
theorem live_header (h : isTrailer = true ∨ m.CanFrame lim) :
    (recogniser lim).Live (header isTrailer m) := by
  cases isTrailer with
  | true => exact live_header_of_end (live_endOfTrailers m)
  | false =>
      rcases h.resolve_left (by simp) with hframed | ⟨hsize, hnameRoom, hvalueRoom⟩
      · exact live_header_of_end (live_endOfHeader hframed)
      · have hnext : (header false m).next lim 0x54 = .ok (headerName false m [0x54]) := by
          have htoken : isToken 0x54 = true := by decide
          have hcr : isCarriageReturn 0x54 = false := by decide
          have hcolon : ((0x54 : Byte) == colon) = false := by decide
          simp [next, beginHeader, htoken, hcr, hcolon]
        refine live_of_next hnext (.inr (live_headerName_chunked (nameSafe_singleton (by decide))
          hsize ⟨by decide, hnameRoom, hvalueRoom⟩))

/-- The header under way is stored as it stands, or its value goes on. -/
theorem live_of_canStore {goesOn : Prop} {q : Phase}
    (h : m.CanStore lim isTrailer name value goesOn)
    (hstore : (recogniser lim).Live (header isTrailer (m.addHeader name value)) →
      (recogniser lim).Live q)
    (hmore : goesOn → (recogniser lim).Live q) : (recogniser lim).Live q := by
  obtain ⟨-, htrailer | hframe | hgoes⟩ := h
  · exact hstore (live_header (.inl htrailer))
  · exact hstore (live_header (.inr hframe))
  · exact hmore hgoes

end

/-! ### First lines -/

theorem live_firstLineLF {m : Shown} (h : m.CanFrame lim) :
    (recogniser lim).Live (firstLineLF m) := by
  have hnext : (firstLineLF m).next lim LF = .ok (header false m) := by simp [next]
  exact live_of_next hnext (.inr (live_header (.inr h)))

theorem live_thirdToken (t₁ t₂ t₃ : Bytes) : (recogniser lim).Live (thirdToken t₁ t₂ t₃) := by
  have hnext : (thirdToken t₁ t₂ t₃).next lim CR = .ok (firstLineLF ⟨t₁, t₂, t₃, ∅⟩) := by
    simp [next]
  exact live_of_next hnext (.inr (live_firstLineLF (.inl ⟨.none, rfl⟩)))

theorem visible_one : isSpaceOrTab 0x31 = false ∧ (isChar 0x31 && !isControl 0x31) = true := by
  decide

theorem live_secondTokenSP (t₁ t₂ : Bytes) : (recogniser lim).Live (secondTokenSP t₁ t₂) := by
  have hnext : (secondTokenSP t₁ t₂).next lim 0x31 = .ok (thirdToken t₁ t₂ [0x31]) := by
    simp only [next, visible_one, if_true, Bool.false_eq_true, if_false]
  exact live_of_next hnext (.inr (live_thirdToken _ _ _))

theorem live_secondToken (t₁ t₂ : Bytes) : (recogniser lim).Live (secondToken t₁ t₂) := by
  have hnext : (secondToken t₁ t₂).next lim SP = .ok (secondTokenSP t₁ t₂) := by
    simp [next, isSpaceOrTab_SP]
  exact live_of_next hnext (.inr (live_secondTokenSP _ _))

theorem live_firstTokenSP (t₁ : Bytes) : (recogniser lim).Live (firstTokenSP t₁) := by
  have hnext : (firstTokenSP t₁).next lim 0x31 = .ok (secondToken t₁ [0x31]) := by
    simp only [next, visible_one, if_true, Bool.false_eq_true, if_false]
  exact live_of_next hnext (.inr (live_secondToken _ _))

theorem live_firstToken (t₁ : Bytes) : (recogniser lim).Live (firstToken t₁) := by
  have hnext : (firstToken t₁).next lim SP = .ok (firstTokenSP t₁) := by
    simp [next, isSpaceOrTab_SP]
  exact live_of_next hnext (.inr (live_firstTokenSP _))

theorem live_leadingSP : (recogniser lim).Live leadingSP := by
  have hnext : leadingSP.next lim 0x31 = .ok (firstToken [0x31]) := by
    simp only [next, visible_one, if_true, Bool.false_eq_true, if_false]
  exact live_of_next hnext (.inr (live_firstToken _))

theorem live_message (m : Shown) : (recogniser lim).Live (message m) := by
  have hnext : (message m).next lim 0x31 = .ok (firstToken [0x31]) := by
    simp only [next, visible_one, if_true, Bool.false_eq_true, if_false]
  exact live_of_next hnext (.inr (live_firstToken _))

/-- **From a phase that can end some word is accepted.** -/
theorem live_of_canEnd {q : Phase} (hsafe : q.Safe lim) (h : q.CanEnd lim) :
    (recogniser lim).Live q := by
  cases q with
  | message m => exact live_message m
  | leadingSP => exact live_leadingSP
  | firstToken t₁ => exact live_firstToken t₁
  | firstTokenSP t₁ => exact live_firstTokenSP t₁
  | secondToken t₁ t₂ => exact live_secondToken t₁ t₂
  | secondTokenSP t₁ t₂ => exact live_secondTokenSP t₁ t₂
  | thirdToken t₁ t₂ t₃ => exact live_thirdToken t₁ t₂ t₃
  | firstLineLF m => exact live_firstLineLF h
  | header isTrailer m => exact live_header h
  | headerName isTrailer m name =>
      refine live_of_canStore h (fun hlive => ?_) (live_headerName_chunked hsafe.reading h.1)
      refine live_headerName_of_append (x := []) (by simp) (.inl rfl) ?_
      rw [List.append_nil]
      exact live_headerValue_of_append (x := []) (by simp) (by simp) h.1 hlive
  | headerValue isTrailer m name value =>
      have hname := hsafe.reading.1
      refine live_of_canStore h (fun hlive => ?_)
        fun hgoes => live_headerValue_chunked hname hgoes.1 h.1 hgoes.2
      exact live_headerValue_of_append (x := []) (by simp) (by simpa using hsafe.reading.2.length)
        h.1 (by simpa using hlive)
  | headerValueLF isTrailer m name value =>
      refine live_headerValueLF (live_of_canStore h (live_headerValueLWS h.1) fun hgoes => ?_)
      exact live_fold hsafe.reading.1 hgoes.1 h.1 hgoes.2
  | headerValueLWS isTrailer m name value =>
      refine live_of_canStore h (live_headerValueLWS h.1) fun hgoes => ?_
      exact live_fold hsafe.reading.1 hgoes.1 h.1 hgoes.2
  | endOfHeader isTrailer m =>
      cases isTrailer with
      | true => exact live_endOfTrailers m
      | false => exact live_endOfHeader (h.resolve_left (by simp))
  | identityBody m length parsed => exact live_identityBody m length parsed
  | chunkSize m digits =>
      obtain ⟨size, hread⟩ := h
      cases digits with
      | nil => exact live_chunkSize m
      | cons ch digits =>
          exact live_chunkSize_of_reads (List.cons_ne_nil _ _) hread (live_chunkSizeLF m _)
  | chunkExtension m size => exact live_chunkExtension m size
  | chunkSizeLF m size => exact live_chunkSizeLF m size
  | chunk m size parsed => exact live_chunk m size parsed
  | chunkCR m => exact live_chunkCR m
  | chunkLF m => exact live_chunkLF m

end Phase

namespace Session

/-- **The dead ends of the parser.** However a parser was called, bytes can still follow
with which it completes the message under way if and only if its phase can end: in the
first line, the body and the trailer section always, as long as the trailer being read
can be stored and the chunk size fits; in the header section only while the headers so
far delimit a body, or `Transfer-Encoding: chunked` can still be among them. -/
theorem completable_iff (lim : Limits) (calls : List Call) :
    (∃ z u v, MessageParser.machine.Accepts (after lim calls).parser z u v) ↔
      (after lim calls).parser.view.CanEnd lim := by
  have hsafe := (view_after lim calls).1
  calc (∃ z u v, MessageParser.machine.Accepts (after lim calls).parser z u v)
      ↔ (Phase.recogniser lim).Live (after lim calls).parser.view :=
        (MessageParser.machine_simulates lim).live_iff (clean_after lim calls)
    _ ↔ (after lim calls).parser.view.CanEnd lim :=
        ⟨Phase.canEnd_of_live hsafe, Phase.live_of_canEnd hsafe⟩

-- A length that is no number, and no room for a second header: the parser reads on.
example :
    ¬ (after ⟨9, 9, 9, 17, 9, 1⟩
      ((str "A B C\r\nContent-Length: x\r\n").map .parse)).parser.view.CanEnd
        ⟨9, 9, 9, 17, 9, 1⟩ := by
  decide +kernel

end Session

end Httpxx
