import Httpxx.Grammar.Reading
import Httpxx.Library.Split
import Httpxx.RoundTrip.Written

/-!
The limits of the header section, at the boundary. Names and the number of headers may
be as large as their limits. A value is measured before it is trimmed, and the composer
has written a space before it, so a value may be as long as its limit less one: the last
byte of a longer one is refused.
-/

namespace Httpxx

open Library Grammar MessageComposer

variable {lim : Limits}

def limitCodes : List Code := [.tooManyHeaders, .headerNameIsTooLong, .headerValueIsTooLong]

/-- No limit of the header section is what a run along the string ends at. -/
def MessageParser.RefusedByNoLimit (p : MessageParser) (w : Bytes) : Prop :=
  ∀ code ∈ p.refusal w, code ∉ limitCodes

instance (p : MessageParser) (w : Bytes) : Decidable (p.RefusedByNoLimit w) :=
  Option.decidableForallMem (p.refusal w)

theorem refusal_final_LF (lim : Limits) (m : Shown) :
    (Phase.recogniser lim).refusal (.endOfHeader false m) [LF] = none ∨
      (Phase.recogniser lim).refusal (.endOfHeader false m) [LF] = some .invalidContentLength := by
  cases hnext : Phase.next lim (.endOfHeader false m) LF with
  | error code =>
      obtain rfl : code = .invalidContentLength := by
        simp only [Phase.next, isLineFeed_LF, if_true, Phase.beginBody] at hnext
        split at hnext <;> simp_all
      exact .inr (refusal_of_next hnext [])
  | ok q =>
      left
      rw [Transducer.refusal_cons]
      simp [Phase.recogniser, Phase.step, hnext, Except.map, Transducer.refusal]

def Phase.NoHeaderYet : Phase → Prop
  | firstLineLF m | header false m => m.headers = ∅
  | _ => True

theorem Phase.Moves.noHeaderYet {q q' : Phase} {ch : Byte} (h : Moves lim q ch q')
    (hq : q.NoHeaderYet) : q'.NoHeaderYet := by
  cases h with
  | thirdEnd => rfl
  | firstLine => exact hq
  | store _ hnext => cases hnext <;> trivial
  | _ => trivial

theorem Session.noHeaderYet_after (lim : Limits) (calls : List Call) :
    (after lim calls).parser.view.NoHeaderYet :=
  (message_induction (J := fun q _ => q.NoHeaderYet) (fun _ _ => trivial)
    (fun hmoves => hmoves.noHeaderYet trivial)
    (fun hq _ _ hmoves => hmoves.noHeaderYet hq) calls).2

/-- A byte of a value that is refused after what fits of the value is refused in the line
of the header, after the lines of the headers before it. -/
theorem refusal_in_line (isTrailer : Bool) {m : Shown} {lines : List (HeaderLine lim)}
    {e : Bytes × Bytes} {items : List ValueItem} {ch : Byte} {z : Bytes} {code : Code}
    (hamount : m.headers.size + lines.length ≤ lim.maxHeadersAmount) (hname : NameSafe lim e.1)
    (hvalue : SP :: e.2 = items.flatMap ValueItem.text ++ ch :: z)
    (hfits : items.length ≤ lim.maxHeaderValueLength)
    (hrefused : Phase.next lim (.headerValue isTrailer (m.addHeaders lines) e.1
      (items.map ValueItem.unfolded)) ch = .error code) (rest : Bytes) :
    (Phase.recogniser lim).refusal (.header isTrailer m)
      (lines.flatMap HeaderLine.text ++ (headerLine e ++ rest)) = some code := by
  have hread := (reads_name isTrailer (m.addHeaders lines) hname).append_silent
    (reads_items isTrailer (m.addHeaders lines) e.1 items [] (by simpa using hfits))
  obtain ⟨a, x, hcons⟩ := List.exists_cons_of_ne_nil hname.ne_nil
  have hnotspace : isSpaceOrTab a = false :=
    isSpaceOrTab_of_isToken (hname.chars a (by simp [hcons]))
  have hline : headerLine e ++ rest =
      (e.1 ++ [colon] ++ items.flatMap ValueItem.text) ++ ch :: (z ++ [CR, LF] ++ rest) := by
    rw [headerLine, hvalue]
    simp
  rw [hline, ← List.append_assoc]
  rw [hcons, List.cons_append, List.cons_append] at hread ⊢
  rw [(reads_lines isTrailer hamount hnotspace hread).refusal_append, ← hcons]
  exact refusal_of_next hrefused _

namespace MessageComposer

/-- The header section that is composed for some headers: their lines, and an empty
one. -/
def composedSection (headers : Headers) : Bytes :=
  (composeHeader .fresh headers).contents ++ [CR, LF]

theorem composedSection_eq (headers : Headers) :
    composedSection headers = headers.entries.flatMap headerLine ++ [CR, LF] := by
  rw [composedSection, composeHeader_eq rfl]
  rfl

/-- A value that is longer than the limit less one is refused at the first byte that does
not fit. -/
theorem refusal_of_long {m : Shown} {es : List (Bytes × Bytes)} (hes : ∀ e ∈ es, Writable e)
    (hname : ∀ e ∈ es, e.1.length ≤ max 1 lim.maxHeaderNameLength)
    (hamount : m.headers.size + es.length ≤ lim.maxHeadersAmount)
    (hlong : ∃ e ∈ es, lim.maxHeaderValueLength ≤ e.2.length) (rest : Bytes) :
    (Phase.recogniser lim).refusal (.header false m) (es.flatMap headerLine ++ rest) =
      some .headerValueIsTooLong := by
  obtain ⟨before, e, after, rfl, hlong, hbefore⟩ := exists_first hlong
  rw [List.forall_mem_append] at hes hname
  obtain ⟨hwritable, -⟩ := List.forall_mem_cons.mp hes.2
  obtain ⟨hname_e, -⟩ := List.forall_mem_cons.mp hname.2
  obtain ⟨lines, hentries, hlines⟩ := exists_headerLines hes.1 hname.1
    fun b hb => Nat.lt_of_not_le (hbefore b hb)
  have hroom : m.headers.size + lines.length ≤ lim.maxHeadersAmount := by
    have hlength := length_of_entries hentries
    rw [List.length_append] at hamount
    omega
  -- what fits of the value, and the byte after it
  obtain ⟨fits, ch, z, hvalue, hfits⟩ : ∃ fits ch z, SP :: e.2 = fits ++ ch :: z ∧
      fits.length = lim.maxHeaderValueLength := by
    have hlt : lim.maxHeaderValueLength < (SP :: e.2).length := by
      rw [List.length_cons]
      omega
    refine ⟨(SP :: e.2).take lim.maxHeaderValueLength, (SP :: e.2)[lim.maxHeaderValueLength],
      (SP :: e.2).drop (lim.maxHeaderValueLength + 1), ?_, ?_⟩
    · rw [List.getElem_cons_drop, List.take_append_drop]
    · rw [List.length_take, Nat.min_eq_left hlt.le]
  have hcontrol : ∀ ch ∈ SP :: e.2, isControl ch = false :=
    List.forall_mem_cons.mpr ⟨rfl, hwritable.value_noControl⟩
  rw [hvalue, List.forall_mem_append, List.forall_mem_cons] at hcontrol
  obtain ⟨hfits_text, hch, -⟩ := hcontrol
  let items : List ValueItem := fits.pmap ValueItem.char hfits_text
  have htext : SP :: e.2 = items.flatMap ValueItem.text ++ ch :: z := by
    rw [hvalue, text_pmap_char]
  have hfull : Phase.next lim (.headerValue false (m.addHeaders lines) e.1
      (items.map ValueItem.unfolded)) ch = .error .headerValueIsTooLong := by
    have hcr : isCarriageReturn ch = false := by
      simpa [isCarriageReturn] using ne_CR_of_not_isControl hch
    rw [unfolded_pmap_char]
    simp [Phase.next, hcr, hch, hfits]
  have hrefusal := refusal_in_line false hroom ⟨⟨hwritable.name_token, hname_e⟩, hwritable.name_ne⟩
    htext (by simp [items, hfits]) hfull (after.flatMap headerLine ++ rest)
  rw [hlines] at hrefusal
  simpa [List.flatMap_append] using hrefusal

/-- **What the limits refuse.** At the start of the header section of any message, let
headers be composed with names and values as they are to be, none longer than its limit
and not too many of them. No limit refuses the composed section if and only if every
value is shorter than its limit; the parser then takes the section up to its last CR. -/
theorem refusedByNoLimit_iff (lim : Limits) (calls : List Call) (headers : Headers)
    (hstate : (Session.after lim calls).parser.state = .parsingHeader)
    (hheaders : ∀ e ∈ headers.entries, Writable e)
    (hname : ∀ e ∈ headers.entries, e.1.length ≤ lim.maxHeaderNameLength)
    (hvalue : ∀ e ∈ headers.entries, e.2.length ≤ lim.maxHeaderValueLength)
    (hamount : headers.entries.length ≤ lim.maxHeadersAmount) :
    ((Session.after lim calls).parser.RefusedByNoLimit (composedSection headers) ↔
        ∀ e ∈ headers.entries, e.2.length < lim.maxHeaderValueLength) ∧
      ((Session.after lim calls).parser.RefusedByNoLimit (composedSection headers) →
        (Session.after lim calls).parser.refusal (composedSection headers).dropLast = none) := by
  obtain ⟨hclean, hlimits⟩ := Session.clean_after lim calls
  have hempty := Session.noHeaderYet_after lim calls
  generalize (Session.after lim calls).parser = p at *
  subst hlimits
  have hview : p.view = .header false p.shown := by simp [MessageParser.view, hstate]
  rw [hview] at hempty
  have hroom : ∀ n ≤ p.limits.maxHeadersAmount,
      p.shown.headers.size + n ≤ p.limits.maxHeadersAmount := fun n hn => by
    rw [show p.shown.headers = ∅ from hempty]
    simpa using hn
  have hname' : ∀ e ∈ headers.entries, e.1.length ≤ max 1 p.limits.maxHeaderNameLength :=
    fun e he => (hname e he).trans (le_max_right _ _)
  by_cases hshort : ∀ e ∈ headers.entries, e.2.length < p.limits.maxHeaderValueLength
  · obtain ⟨lines, hentries, hlines⟩ := exists_headerLines hheaders hname' hshort
    have hlength : lines.length ≤ p.limits.maxHeadersAmount := by
      rw [length_of_entries hentries]
      exact hamount
    have hread := reads_headers false (hroom _ hlength)
    have htext : composedSection headers = headers.entries.flatMap headerLine ++ [CR] ++ [LF] := by
      rw [composedSection_eq]
      simp
    rw [← hlines] at htext
    have hnone : p.RefusedByNoLimit (composedSection headers) := by
      intro code hcode
      rw [MessageParser.refusal_eq hclean, hview, htext, hread.refusal_append] at hcode
      rcases refusal_final_LF p.limits (p.shown.addHeaders lines) with h | h
      · cases h.symm.trans hcode
      · obtain rfl := Option.some.inj (h.symm.trans hcode)
        decide
    refine ⟨iff_of_true hnone hshort, fun _ => ?_⟩
    rw [htext, List.dropLast_concat, MessageParser.refusal_eq hclean, hview]
    exact hread.refusal_eq_none
  · have hlong : ∃ e ∈ headers.entries, p.limits.maxHeaderValueLength ≤ e.2.length := by
      simpa using hshort
    have hnot : ¬ p.RefusedByNoLimit (composedSection headers) := by
      intro h
      refine h .headerValueIsTooLong ?_ (by decide)
      rw [MessageParser.refusal_eq hclean, hview, composedSection_eq]
      exact refusal_of_long hheaders hname' (hroom _ hamount) hlong [CR, LF]
    exact ⟨iff_of_false hnot hshort, fun h => absurd h hnot⟩

theorem refusedByNoLimit_smallest :
    (Session.after ⟨1, 1, 1, 2, 3, 2⟩ ((str "a b c\r\n").map .parse)).parser.RefusedByNoLimit
      (composedSection ((∅ : Headers).insertAll [(str "X", str "yz"), (str "AB", str "")])) :=
  (refusedByNoLimit_iff ⟨1, 1, 1, 2, 3, 2⟩ ((str "a b c\r\n").map .parse)
    ((∅ : Headers).insertAll [(str "X", str "yz"), (str "AB", str "")]) (by decide +kernel)
    (by decide) (by decide) (by decide) (by decide)).1.mpr (by decide)

/-- A value of exactly the maximum length is refused. -/
theorem refused_at_limit :
    (∀ e ∈ ((∅ : Headers).insert (str "X", str "yz")).entries, Writable e ∧ e.2.length ≤ 2) ∧
      ¬ (Session.after ⟨1, 1, 1, 1, 2, 1⟩
        ((str "a b c\r\n").map .parse)).parser.RefusedByNoLimit
          (composedSection ((∅ : Headers).insert (str "X", str "yz"))) := by
  decide +kernel

end MessageComposer

end Httpxx
