import Httpxx.Grammar.FirstLine

/-!
The machine over phases reads a header section, and a trailer section in the same
phases, exactly when it is a list of header lines followed by an empty line. A line
is recognised as ended only by the byte after it, which may go on with the value:
`accepts_headerValue_iff` reads a value with all its folds up to that byte, and
there the phase after a line behaves as the beginning of the next one.
-/

namespace Httpxx

open Library

def Shown.addHeaders {lim : Limits} (m : Shown) (hs : List (Grammar.HeaderLine lim)) : Shown :=
  { m with headers := m.headers.insertAll (hs.map Grammar.HeaderLine.entry) }

namespace Grammar

open Phase

variable {lim : Limits}

@[simp] theorem addHeaders_nil (m : Shown) : m.addHeaders ([] : List (HeaderLine lim)) = m := rfl

theorem addHeaders_cons (m : Shown) (h : HeaderLine lim) (hs : List (HeaderLine lim)) :
    m.addHeaders (h :: hs) = (m.addHeader h.name h.unfolded).addHeaders hs := by
  simp [Shown.addHeaders, Shown.addHeader, HeaderLine.entry, h.name_safe.trim_eq]

@[simp] theorem size_addHeader (m : Shown) (name value : Bytes) :
    (m.addHeader name value).headers.size = m.headers.size + 1 :=
  Multimap.size_insert _ _

/-! ### Names -/

theorem accepts_headerName_iff (isTrailer : Bool) (m : Shown) (a : Byte) (w : Bytes) (u : Phase)
    (v : Bytes) :
    (recogniser lim).Accepts (.headerName isTrailer m [a]) w u v ↔
      ∃ x y, w = x ++ colon :: y ∧ (∀ ch ∈ x, isToken ch = true) ∧
        ([a] ++ x).length ≤ max 1 lim.maxHeaderNameLength ∧
          (recogniser lim).Accepts (.headerValue isTrailer m ([a] ++ x) []) y u v := by
  have hscan := Transducer.accepts_scan_iff (recogniser lim) (Phase.headerName isTrailer m)
    (fun name _ => .headerValue isTrailer m name []) (fun ch => isToken ch = true)
    (fun name => name.length < lim.maxHeaderNameLength) (fun _ ch => ch = colon)
    (fun name ch hch hroom => by
      have hcr : isCarriageReturn ch = false := by
        simpa [isCarriageReturn] using ne_CR_of_isToken hch
      exact silent_of_next (by simp [next, hcr, ne_colon_of_isToken hch, hch, hroom]) rfl rfl)
    (fun name ch hch hroom => by
      have hcr : isCarriageReturn ch = false := by
        simpa [isCarriageReturn] using ne_CR_of_isToken hch
      exact refuses_of_next .headerNameIsTooLong
        (by simp [next, hcr, ne_colon_of_isToken hch, hch, hroom]))
    (fun name ch hch => silent_of_next (by simp [next, hch]) rfl rfl)
    (fun name ch htoken hcolon => by
      by_cases hcr : isCarriageReturn ch = true
      · exact refuses_of_next .headerIsMissingColon (by simp [next, hcr])
      · exact refuses_of_next .invalidHeaderName (by simp [next, hcr, hcolon, htoken]))
    (fun name ch hch htoken => by simp [hch] at htoken) [a] w u v
  rw [hscan]
  constructor
  · rintro ⟨x, b, y, rfl, hx, hroom, rfl, hacc⟩
    exact ⟨x, y, rfl, hx, (room_iff a x _).mp hroom, hacc⟩
  · rintro ⟨x, y, rfl, hx, hroom, hacc⟩
    exact ⟨x, colon, y, rfl, hx, (room_iff a x _).mpr hroom, rfl, hacc⟩

/-! ### Values -/

theorem isSpaceOrTab_of_accepts_header {isTrailer : Bool} {m : Shown} {ch : Byte} {w : Bytes}
    {u : Phase} {v : Bytes}
    (h : (recogniser lim).Accepts (.header isTrailer m) (ch :: w) u v) :
    (isCarriageReturn ch || isToken ch) = true ∧ isSpaceOrTab ch = false := by
  have hok : (isCarriageReturn ch || isToken ch) = true := by
    by_contra hno
    cases hnext : beginHeader isTrailer m ch with
    | ok q => exact hno (beginHeader_ok hnext)
    | error code =>
        have hrefuses : (recogniser lim).Refuses (.header isTrailer m) ch :=
          refuses_of_next code hnext
        exact hrefuses.not_accepts w u v h
  refine ⟨hok, ?_⟩
  rcases Bool.or_eq_true _ _ ▸ hok with hcr | htoken
  · rw [isCarriageReturn_iff] at hcr
    subst hcr
    rfl
  · exact isSpaceOrTab_of_isToken htoken

/-- After a line, a byte that does not continue its value begins the next line,
when there is room for the header. -/
theorem accepts_headerValueLWS_iff (isTrailer : Bool) (m : Shown) (name value : Bytes)
    {ch : Byte} (hsp : isSpaceOrTab ch = false) (w : Bytes) (u : Phase) (v : Bytes) :
    (recogniser lim).Accepts (.headerValueLWS isTrailer m name value) (ch :: w) u v ↔
      m.headers.size < lim.maxHeadersAmount ∧
        (recogniser lim).Accepts (.header isTrailer (m.addHeader name value)) (ch :: w) u v := by
  by_cases hroom : m.headers.size < lim.maxHeadersAmount
  · have hstep : (recogniser lim).step (.headerValueLWS isTrailer m name value) ch =
        (recogniser lim).step (.header isTrailer (m.addHeader name value)) ch := by
      simp [recogniser, step, next, bodyExpected, hsp, Nat.not_le.mpr hroom]
    rw [Transducer.accepts_cons_congr hstep]
    simp [hroom]
  · refine iff_of_false ?_ fun h => hroom h.1
    have hfull : lim.maxHeadersAmount ≤ m.headers.size := Nat.not_lt.mp hroom
    cases hok : isCarriageReturn ch || isToken ch with
    | true =>
        exact (refuses_of_next .tooManyHeaders
          (by simp [next, hsp, hok, hfull])).not_accepts w u v
    | false =>
        rw [Bool.or_eq_false_iff] at hok
        by_cases hcolon : ch = colon
        · exact (refuses_of_next .emptyHeaderName
            (by simp [next, beginHeader, hcolon])).not_accepts w u v
        · exact (refuses_of_next .invalidHeaderName
            (by simp [next, beginHeader, hsp, hok, hcolon])).not_accepts w u v

theorem accepts_headerValueLF_iff (isTrailer : Bool) (m : Shown) (name value : Bytes) (w : Bytes)
    (u : Phase) (v : Bytes) :
    (recogniser lim).Accepts (.headerValueLF isTrailer m name value) w u v ↔
      ∃ y, w = LF :: y ∧
        (recogniser lim).Accepts (.headerValueLWS isTrailer m name value) y u v :=
  Transducer.accepts_expect_iff (silent_of_next (by simp [next]) rfl rfl)
    (fun ch hch => refuses_of_next .invalidHeaderLF (by simp [next, isLineFeed, hch])) w u v

theorem accepts_headerValue_char_iff (isTrailer : Bool) (m : Shown) (name value : Bytes)
    {ch : Byte} (hcr : ch ≠ CR) (w : Bytes) (u : Phase) (v : Bytes) :
    (recogniser lim).Accepts (.headerValue isTrailer m name value) (ch :: w) u v ↔
      isControl ch = false ∧ value.length < lim.maxHeaderValueLength ∧
        (recogniser lim).Accepts (.headerValue isTrailer m name (value ++ [ch])) w u v := by
  cases hcontrol : isControl ch with
  | true =>
      have hstep : (recogniser lim).Refuses (.headerValue isTrailer m name value) ch :=
        refuses_of_next .invalidHeaderValue (by simp [next, isCarriageReturn, hcr, hcontrol])
      simp [hstep.not_accepts]
  | false =>
      by_cases hroom : value.length < lim.maxHeaderValueLength
      · have hstep : (recogniser lim).Silent (.headerValue isTrailer m name value) ch
            (.headerValue isTrailer m name (value ++ [ch])) :=
          silent_of_next (by simp [next, isCarriageReturn, hcr, hcontrol, hroom]) rfl rfl
        simp [hstep.accepts_iff, hroom]
      · have hstep : (recogniser lim).Refuses (.headerValue isTrailer m name value) ch :=
          refuses_of_next .headerValueIsTooLong
            (by simp [next, isCarriageReturn, hcr, hcontrol, hroom])
        simp [hstep.not_accepts, hroom]

theorem accepts_headerValueLWS_fold_iff (isTrailer : Bool) (m : Shown) (name value : Bytes)
    {ws : Byte} (hsp : isSpaceOrTab ws = true) (w : Bytes) (u : Phase) (v : Bytes) :
    (recogniser lim).Accepts (.headerValueLWS isTrailer m name value) (ws :: w) u v ↔
      value.length < lim.maxHeaderValueLength ∧
        (recogniser lim).Accepts (.headerValue isTrailer m name (value ++ [SP])) w u v := by
  by_cases hroom : value.length < lim.maxHeaderValueLength
  · have hstep : (recogniser lim).Silent (.headerValueLWS isTrailer m name value) ws
        (.headerValue isTrailer m name (value ++ [SP])) :=
      silent_of_next (by simp [next, hsp, hroom]) rfl rfl
    simp [hstep.accepts_iff, hroom]
  · have hstep : (recogniser lim).Refuses (.headerValueLWS isTrailer m name value) ws :=
      refuses_of_next .headerValueIsTooLong (by simp [next, hsp, hroom])
    simp [hstep.not_accepts, hroom]

/-- A value whose text begins with a CR is over, or begins with a fold. -/
theorem items_text_CR {items : List ValueItem} {w y : Bytes}
    (h : CR :: w = items.flatMap ValueItem.text ++ CR :: LF :: y) :
    (items = [] ∧ w = LF :: y) ∨
      ∃ ws hws rest, items = .fold ws hws :: rest ∧
        w = LF :: ws :: (rest.flatMap ValueItem.text ++ CR :: LF :: y) := by
  cases items with
  | nil => exact .inl ⟨rfl, by simpa using h⟩
  | cons i rest =>
      cases i with
      | char ch hch =>
          obtain ⟨rfl, -⟩ : CR = ch ∧ _ := by simpa [ValueItem.text] using h
          cases hch
      | fold ws hws => exact .inr ⟨ws, hws, rest, rfl, by simpa [ValueItem.text] using h⟩

theorem items_text_of_ne_CR {items : List ValueItem} {ch : Byte} {w y : Bytes} (hne : ch ≠ CR)
    (h : ch :: w = items.flatMap ValueItem.text ++ CR :: LF :: y) :
    ∃ hch rest, items = .char ch hch :: rest ∧
      w = rest.flatMap ValueItem.text ++ CR :: LF :: y := by
  cases items with
  | nil => exact absurd (by simpa using h : ch = CR ∧ _).1 hne
  | cons i rest =>
      cases i with
      | char c hc =>
          obtain ⟨rfl, hw⟩ : ch = c ∧ _ := by simpa [ValueItem.text] using h
          exact ⟨hc, rest, rfl, hw⟩
      | fold ws hws => exact absurd (by simpa [ValueItem.text] using h : ch = CR ∧ _).1 hne

/-- **A header value.** From inside a value the machine accepts a word exactly when
it goes on with elements that fit, a line break, and a word accepted as the rest of
the section after the header. -/
theorem accepts_headerValue_iff (isTrailer : Bool) (m : Shown) (name value : Bytes)
    (hvalue : value.length ≤ lim.maxHeaderValueLength) (w : Bytes) (u : Phase) (v : Bytes) :
    (recogniser lim).Accepts (.headerValue isTrailer m name value) w u v ↔
      ∃ (items : List ValueItem) (y : Bytes), w = items.flatMap ValueItem.text ++ CR :: LF :: y ∧
        value.length + items.length ≤ lim.maxHeaderValueLength ∧
        m.headers.size < lim.maxHeadersAmount ∧
        (recogniser lim).Accepts
          (.header isTrailer (m.addHeader name (value ++ items.map ValueItem.unfolded))) y u v := by
  induction hn : w.length using Nat.strong_induction_on generalizing value w with
  | h n ih =>
      cases w with
      | nil => exact iff_of_false (Transducer.not_accepts_nil _ _ _ _) (by simp)
      | cons ch w =>
          by_cases hcr : ch = CR
          · subst hcr
            have hstep : (recogniser lim).Silent (.headerValue isTrailer m name value) CR
                (.headerValueLF isTrailer m name value) :=
              silent_of_next (by simp [next]) rfl rfl
            rw [hstep.accepts_iff, accepts_headerValueLF_iff]
            constructor
            · rintro ⟨w, rfl, hacc⟩
              cases w with
              | nil => exact absurd hacc (Transducer.not_accepts_nil _ _ _ _)
              | cons c w =>
                  cases hsp : isSpaceOrTab c with
                  | true =>
                      -- the value goes on with a fold
                      obtain ⟨hroom, hacc⟩ :=
                        (accepts_headerValueLWS_fold_iff _ _ _ _ hsp w u v).mp hacc
                      obtain ⟨items, y, rfl, hlen, hsize, hacc⟩ :=
                        (ih w.length (by simp [← hn]; omega) (value ++ [SP]) (by simpa using hroom)
                          w rfl).mp hacc
                      refine ⟨.fold c hsp :: items, y, by simp [ValueItem.text], ?_, hsize, ?_⟩
                      · simp only [List.length_append, List.length_cons, List.length_nil] at hlen ⊢
                        omega
                      · simpa [ValueItem.unfolded] using hacc
                  | false =>
                      -- the value is over, and so is its line
                      obtain ⟨hsize, hacc⟩ :=
                        (accepts_headerValueLWS_iff _ _ _ _ hsp w u v).mp hacc
                      exact ⟨[], c :: w, rfl, by simpa using hvalue, hsize, by simpa using hacc⟩
            · rintro ⟨items, y, heq, hlen, hsize, hacc⟩
              rcases items_text_CR heq with ⟨rfl, rfl⟩ | ⟨ws, hws, rest, rfl, rfl⟩
              · refine ⟨y, rfl, ?_⟩
                cases y with
                | nil => exact absurd hacc (Transducer.not_accepts_nil _ _ _ _)
                | cons c y =>
                    have hsp := (isSpaceOrTab_of_accepts_header hacc).2
                    exact (accepts_headerValueLWS_iff _ _ _ _ hsp y u v).mpr
                      ⟨hsize, by simpa using hacc⟩
              · rw [List.length_cons] at hlen
                refine ⟨_, rfl, (accepts_headerValueLWS_fold_iff _ _ _ _ hws _ u v).mpr
                  ⟨by omega, ?_⟩⟩
                refine (ih _ ?_ (value ++ [SP]) (by simp; omega) _ rfl).mpr
                  ⟨rest, y, rfl, by simp; omega, hsize, by simpa [ValueItem.unfolded] using hacc⟩
                rw [← hn]
                simp only [List.length_cons]
                omega
          · rw [accepts_headerValue_char_iff _ _ _ _ hcr]
            constructor
            · rintro ⟨hchar, hroom, hacc⟩
              obtain ⟨items, y, rfl, hlen, hsize, hacc⟩ :=
                (ih w.length (by simp [← hn]) (value ++ [ch]) (by simpa using hroom) w rfl).mp hacc
              refine ⟨.char ch hchar :: items, y, by simp [ValueItem.text], ?_, hsize, ?_⟩
              · simp only [List.length_append, List.length_cons, List.length_nil] at hlen ⊢
                omega
              · simpa [ValueItem.unfolded] using hacc
            · rintro ⟨items, y, heq, hlen, hsize, hacc⟩
              obtain ⟨hch, rest, rfl, rfl⟩ := items_text_of_ne_CR hcr heq
              rw [List.length_cons] at hlen
              refine ⟨hch, by omega, ?_⟩
              exact (ih _ (by simp [← hn]) (value ++ [ch]) (by simp; omega) _ rfl).mpr
                ⟨rest, y, rfl, by simp; omega, hsize, by simpa [ValueItem.unfolded] using hacc⟩

/-! ### Sections -/

theorem accepts_header_CR_iff (isTrailer : Bool) (m : Shown) (w : Bytes) (u : Phase) (v : Bytes) :
    (recogniser lim).Accepts (.header isTrailer m) (CR :: w) u v ↔
      (recogniser lim).Accepts (.endOfHeader isTrailer m) w u v :=
  (silent_of_next (by simp [next, beginHeader]) rfl rfl).accepts_iff w u v

/-- **A header line.** A header section goes on with a line exactly when it does not
end, and when there is room for the header. -/
theorem accepts_header_iff_line (isTrailer : Bool) (m : Shown) {ch : Byte} (hcr : ch ≠ CR)
    (w : Bytes) (u : Phase) (v : Bytes) :
    (recogniser lim).Accepts (.header isTrailer m) (ch :: w) u v ↔
      ∃ (h : HeaderLine lim) (y : Bytes), ch :: w = h.text ++ y ∧
        m.headers.size < lim.maxHeadersAmount ∧
        (recogniser lim).Accepts (.header isTrailer (m.addHeader h.name h.unfolded)) y u v := by
  by_cases htoken : isToken ch = true
  · have hnotcr : isCarriageReturn ch = false := by simpa [isCarriageReturn] using hcr
    have hstep : (recogniser lim).Silent (.header isTrailer m) ch
        (.headerName isTrailer m [ch]) :=
      silent_of_next (by simp [next, beginHeader, hnotcr, ne_colon_of_isToken htoken, htoken])
        rfl rfl
    rw [hstep.accepts_iff, accepts_headerName_iff]
    constructor
    · rintro ⟨x, y, rfl, hx, hlen, hacc⟩
      obtain ⟨items, y, rfl, hitems, hsize, hacc⟩ :=
        (accepts_headerValue_iff isTrailer m _ [] (by simp) y u v).mp hacc
      have hname : NameSafe lim ([ch] ++ x) :=
        ⟨⟨List.forall_mem_cons.mpr ⟨htoken, hx⟩, hlen⟩, by simp⟩
      exact ⟨⟨[ch] ++ x, items, hname, by simpa using hitems⟩, y, by simp [HeaderLine.text], hsize,
        hacc⟩
    · rintro ⟨h, y, heq, hsize, hacc⟩
      obtain ⟨c, x, hname⟩ := List.exists_cons_of_ne_nil h.name_safe.ne_nil
      obtain ⟨rfl, rfl⟩ : ch = c ∧ w = x ++ colon :: (h.value.flatMap ValueItem.text ++
          CR :: LF :: y) := by simpa [HeaderLine.text, hname] using heq
      have hchars := h.name_safe.chars
      have hlen := h.name_safe.length
      rw [hname] at hchars hlen
      refine ⟨x, _, rfl, (List.forall_mem_cons.mp hchars).2, hlen,
        (accepts_headerValue_iff isTrailer m _ [] (by simp) _ u v).mpr
          ⟨h.value, y, rfl, by simpa using h.value_length, hsize, ?_⟩⟩
      rw [hname] at hacc
      exact hacc
  · refine iff_of_false ?_ ?_
    · intro hacc
      have hok := (isSpaceOrTab_of_accepts_header hacc).1
      simp [isCarriageReturn, hcr, htoken] at hok
    · rintro ⟨h, y, heq, -⟩
      obtain ⟨c, x, hname⟩ := List.exists_cons_of_ne_nil h.name_safe.ne_nil
      obtain ⟨rfl, -⟩ : ch = c ∧ _ := by simpa [HeaderLine.text, hname] using heq
      exact htoken (h.name_safe.chars ch (by simp [hname]))

/-- **A header section.** The machine reads it exactly when it is a list of header
lines, not too many of them, up to the CR of an empty line. -/
theorem accepts_headers_iff (isTrailer : Bool) (m : Shown)
    (hm : m.headers.size ≤ lim.maxHeadersAmount) (w : Bytes) (u : Phase) (v : Bytes) :
    (recogniser lim).Accepts (.header isTrailer m) w u v ↔
      ∃ (hs : List (HeaderLine lim)) (y : Bytes), w = hs.flatMap HeaderLine.text ++ CR :: y ∧
        m.headers.size + hs.length ≤ lim.maxHeadersAmount ∧
        (recogniser lim).Accepts (.endOfHeader isTrailer (m.addHeaders hs)) y u v := by
  induction hn : w.length using Nat.strong_induction_on generalizing m w with
  | h n ih =>
      cases w with
      | nil => exact iff_of_false (Transducer.not_accepts_nil _ _ _ _) (by simp)
      | cons ch w =>
          by_cases hcr : ch = CR
          · subst hcr
            rw [accepts_header_CR_iff]
            constructor
            · exact fun hacc => ⟨[], w, rfl, by simpa using hm, hacc⟩
            · rintro ⟨hs, y, heq, -, hacc⟩
              cases hs with
              | nil =>
                  obtain rfl : w = y := by simpa using heq
                  exact hacc
              | cons h hs =>
                  obtain ⟨c, x, hname⟩ := List.exists_cons_of_ne_nil h.name_safe.ne_nil
                  obtain ⟨rfl, -⟩ : CR = c ∧ _ := by simpa [HeaderLine.text, hname] using heq
                  exact absurd (h.name_safe.chars CR (by simp [hname])) (by simp)
          · rw [accepts_header_iff_line isTrailer m hcr]
            constructor
            · rintro ⟨h, y, heq, hsize, hacc⟩
              have hshort : y.length < n := by
                have hpos := h.length_text_pos
                rw [← hn, heq, List.length_append]
                omega
              obtain ⟨hs, y, rfl, hamount, hacc⟩ :=
                (ih _ hshort (m.addHeader h.name h.unfolded) (by rw [size_addHeader]; omega)
                  y rfl).mp hacc
              rw [size_addHeader] at hamount
              exact ⟨h :: hs, y, by rw [heq]; simp, by rw [List.length_cons]; omega,
                by rw [addHeaders_cons]; exact hacc⟩
            · rintro ⟨hs, y, heq, hamount, hacc⟩
              cases hs with
              | nil => exact absurd (by simpa using heq : ch = CR ∧ _).1 hcr
              | cons h hs =>
                  rw [List.length_cons] at hamount
                  rw [addHeaders_cons] at hacc
                  have heq' : ch :: w = h.text ++ (hs.flatMap HeaderLine.text ++ CR :: y) := by
                    rw [heq]
                    simp
                  have hshort : (hs.flatMap HeaderLine.text ++ CR :: y).length < n := by
                    have hpos := h.length_text_pos
                    simp only [← hn, heq', List.length_append]
                    omega
                  exact ⟨h, _, heq', by omega,
                    (ih _ hshort (m.addHeader h.name h.unfolded) (by rw [size_addHeader]; omega)
                      _ rfl).mpr ⟨hs, y, rfl, by rw [size_addHeader]; omega, hacc⟩⟩

end Grammar

end Httpxx
