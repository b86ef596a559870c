import Httpxx.RoundTrip.FirstLine
import Httpxx.RoundTrip.Identity
import Httpxx.Server.Connection

/-!
What a client makes of a response. The task repeats the third token of the request as the
version of its response, and that token may contain spaces, behind which a client looks
for the status. The first line that comes out is well formed all the same: its words are
parted anew, and the last ones take up `OK`. So every response is a message with the
listing as its body, and it says `200 OK` exactly when the third token has no space.
-/

namespace Httpxx

open Library MessageComposer

namespace HttpTask

def status : Bytes := str "200 OK"

def responseLimits : Limits := .withDefaults 31 31 31

/-- A part of a first line that ends with the status, from the start of a word on. -/
structure Tail (t : Bytes) : Prop where
  ends : t = status ∨ ∃ before, before ≠ [] ∧ t = before ++ SP :: status
  head : ∀ ch ∈ t.head?, ch ≠ SP

theorem Tail.ne_nil {t : Bytes} (h : Tail t) : t ≠ [] := by
  rcases h.ends with rfl | ⟨before, hne, rfl⟩
  · decide
  · simp

theorem tail_status : Tail status := ⟨.inl rfl, by decide⟩

/-- A word before the status is parted from what follows by spaces, and the status is not
touched. -/
theorem exists_word {t : Bytes} (h : Tail t) (hstatus : t ≠ status) :
    ∃ word gap rest, t = word ++ gap ++ rest ∧ word ≠ [] ∧ SP ∉ word ∧ gap ≠ [] ∧
      (∀ ch ∈ gap, ch = SP) ∧ Tail rest := by
  rcases h.ends with rfl | ⟨before, hne, rfl⟩
  · exact absurd rfl hstatus
  have hhead : ∀ ch ∈ before.head?, ch ≠ SP := by
    intro ch hch
    refine h.head ch ?_
    rw [List.head?_append, hch]
    rfl
  rcases not_mem_or_exists_first SP before with hspace | ⟨word, after, hword, rfl⟩
  · exact ⟨before, [SP], status, by simp, hne, hspace, by simp, by simp, tail_status⟩
  · obtain ⟨gap, rest, rfl, hgap, hrest⟩ := exists_gap after
    have hword_ne : word ≠ [] := by
      rintro rfl
      exact hhead SP (by simp) rfl
    by_cases hempty : rest = []
    · subst hempty
      refine ⟨word, SP :: gap ++ [SP], status, by simp, hword_ne, hword, by simp, ?_, tail_status⟩
      simpa [or_imp, forall_and] using hgap
    · refine ⟨word, SP :: gap, rest ++ SP :: status, by simp, hword_ne, hword, by simp, ?_,
        .inr ⟨rest, hempty, rfl⟩, ?_⟩
      · simpa using hgap
      · rwa [List.head?_append_of_ne_nil _ hempty]

/-- There are two words at least, since the status itself is two. -/
theorem Tail.exists_two {t : Bytes} (h : Tail t) :
    ∃ word gap rest, t = word ++ gap ++ rest ∧ word ≠ [] ∧ SP ∉ word ∧ gap ≠ [] ∧
      (∀ ch ∈ gap, ch = SP) ∧ rest ≠ [] ∧ ∀ ch ∈ rest.head?, ch ≠ SP := by
  by_cases hstatus : t = status
  · exact ⟨str "200", [SP], str "OK", hstatus, by decide, by decide, by decide, by decide,
      by decide, by decide⟩
  · obtain ⟨word, gap, rest, heq, hword, hspace, hne, hgap, htail⟩ := exists_word h hstatus
    exact ⟨word, gap, rest, heq, hword, hspace, hne, hgap, htail.ne_nil, htail.head⟩

section FirstLine

open Grammar

variable {third : Bytes} (hne : third ≠ []) (hprintable : ∀ ch ∈ third, Printable ch)
  (hhead : ∀ ch ∈ third.head?, ch ≠ SP) (hlength : third.length ≤ 24)
include hne hprintable hhead hlength

theorem exists_firstLine :
    ∃ l : FirstLine responseLimits, l.text = third ++ SP :: status ++ [CR, LF] := by
  have hwhole : Tail (third ++ SP :: status) := by
    refine ⟨.inr ⟨third, hne, rfl⟩, ?_⟩
    rwa [List.head?_append_of_ne_nil _ hne]
  have hchars : ∀ ch ∈ third ++ SP :: status, Printable ch := by
    intro ch hch
    rcases List.mem_append.mp hch with hch | hch
    · exact hprintable ch hch
    · exact (by decide : ∀ ch ∈ SP :: status, Printable ch) ch hch
  have htotal : (third ++ SP :: status).length ≤ 31 := by
    rw [List.length_append]
    exact Nat.add_le_add hlength (by decide : (SP :: status).length ≤ 7)
  have hfirst : third ++ SP :: status ≠ status := by
    intro heq
    have hsame := congrArg List.length heq
    rw [List.length_append, List.length_cons] at hsame
    omega
  obtain ⟨w₁, g₁, r₁, heq₁, hw₁, hs₁, hg₁, hgap₁, htail₁⟩ := exists_word hwhole hfirst
  obtain ⟨w₂, g₂, r₂, heq₂, hw₂, hs₂, hg₂, hgap₂, hr₂, hhead₂⟩ := htail₁.exists_two
  have htext : third ++ SP :: status = w₁ ++ g₁ ++ (w₂ ++ g₂ ++ r₂) := by rw [heq₁, heq₂]
  rw [htext] at hchars htotal
  simp only [List.length_append] at htotal
  have hvisible : ∀ w : Bytes, SP ∉ w → (∀ ch ∈ w, Printable ch) → ∀ ch ∈ w, Visible ch :=
    fun w hs hw ch hch =>
      (visible_iff_printable_ne_SP ch).mpr ⟨hw ch hch, fun hsp => hs (hsp ▸ hch)⟩
  have hspaces : ∀ g : Bytes, (∀ ch ∈ g, ch = SP) → ∀ ch ∈ g, isSpaceOrTab ch = true :=
    fun g hg ch hch => (isSpaceOrTab_iff ch).mpr (.inl (hg ch hch))
  have hroom : ∀ n, n ≤ 31 → n ≤ max 1 31 := fun n hn => hn.trans (le_max_right 1 31)
  refine ⟨⟨[], w₁, g₁, w₂, g₂, r₂, by simp, hw₁,
    ⟨hvisible w₁ hs₁ fun ch hch => hchars ch (by simp [hch]), hroom _ (by omega)⟩, hg₁,
    hspaces g₁ hgap₁, hw₂,
    ⟨hvisible w₂ hs₂ fun ch hch => hchars ch (by simp [hch]), hroom _ (by omega)⟩, hg₂,
    hspaces g₂ hgap₂, hr₂, ⟨fun ch hch => hchars ch (by simp [hch]), hroom _ (by omega)⟩,
    hhead₂⟩, ?_⟩
  rw [htext]
  simp [FirstLine.text]

end FirstLine

/-- Behind any first line with the status the headers and the listing are read. -/
theorem accepted_response {third : Bytes} (l : Grammar.FirstLine responseLimits)
    (hl : l.text = third ++ SP :: status ++ [CR, LF]) :
    MessageParser.Accepted responseLimits (response third)
      ⟨l.firstToken, l.secondToken, l.thirdToken, responseHeaders⟩ listing := by
  have hheaders : identityHeaders responseHeaders listing.length = responseHeaders := by
    decide +kernel
  obtain ⟨lines, hentries, hlines⟩ : ∃ lines : List (Grammar.HeaderLine responseLimits),
      lines.map Grammar.HeaderLine.entry = responseHeaders.entries ∧
        lines.flatMap Grammar.HeaderLine.text = responseHeaders.entries.flatMap headerLine :=
    Grammar.exists_headerLines (by decide +kernel) (by decide +kernel) (by decide +kernel)
  have hstored := Grammar.stored_of_entries hentries
  have hsize : listing.length < 2 ^ 32 := by
    rw [length_listing]
    decide
  obtain ⟨body, htext, hdata, htrailers⟩ :=
    Grammar.exists_identityBody (hstored.trans hheaders.symm) hsize
  have hamount : lines.length + body.trailers.length ≤ responseLimits.maxHeadersAmount := by
    rw [htrailers, Grammar.length_of_entries hentries]
    decide +kernel
  have hacc := MessageParser.accepted_text (⟨l, lines, body, hamount⟩ : Grammar.Message _)
  have hwhole : (⟨l, lines, body, hamount⟩ : Grammar.Message _).text = response third := by
    rw [Grammar.Message.text, hl, hlines, htext, response, afterVersion_eq]
    simp [status, str]
  have hshown : (⟨l, lines, body, hamount⟩ : Grammar.Message _).shown =
      ⟨l.firstToken, l.secondToken, l.thirdToken, responseHeaders⟩ := by
    rw [Grammar.Message.shown, htrailers, List.append_nil]
    exact congrArg (Shown.mk _ _ _) hstored
  rw [hwhole, hshown, hdata] at hacc
  exact hacc

/-- What the parser promises of the third token of a request. -/
structure Repeatable (third : Bytes) : Prop where
  ne : third ≠ []
  printable : ∀ ch ∈ third, Printable ch
  head : ∀ ch ∈ third.head?, ch ≠ SP
  length : third.length ≤ 24

theorem repeatable_of_accepted {w body : Bytes} {m : Shown}
    (h : MessageParser.Accepted requestLimits w m body) : Repeatable m.thirdToken := by
  obtain ⟨msg, -, rfl, -⟩ := MessageParser.exists_message_of_accepted h
  have hvalid := msg.composer_valid
  exact ⟨hvalid.thirdToken_ne, hvalid.thirdToken_printable, hvalid.thirdToken_head,
    msg.shown_safe.thirdToken.length⟩

variable {third : Bytes}

theorem Repeatable.accepted_of_no_space (h : Repeatable third) (hspace : SP ∉ third) :
    MessageParser.Accepted responseLimits (response third)
      ⟨third, str "200", str "OK", responseHeaders⟩ listing := by
  have hvisible : ∀ ch ∈ third, Visible ch := fun ch hch =>
    (visible_iff_printable_ne_SP ch).mpr ⟨h.printable ch hch, fun hsp => hspace (hsp ▸ hch)⟩
  have hlength : third.length ≤ max 1 31 := h.length.trans (by decide)
  refine accepted_response ⟨[], third, [SP], str "200", [SP], str "OK", by simp, h.ne,
    ⟨hvisible, hlength⟩, by simp, by decide, by decide, ⟨by decide, by decide⟩, by simp, by decide,
    by decide, ⟨by decide, by decide⟩, by decide⟩ ?_
  simp [Grammar.FirstLine.text, status, str]

theorem Repeatable.exists_accepted (h : Repeatable third) :
    ∃ m, MessageParser.Accepted responseLimits (response third) m listing ∧
      m.headers = responseHeaders := by
  obtain ⟨l, hl⟩ := exists_firstLine h.ne h.printable h.head h.length
  exact ⟨_, accepted_response l hl, rfl⟩

theorem Repeatable.tokens_iff (h : Repeatable third) {lim : Limits} {m : Shown} {body : Bytes}
    (hm : MessageParser.Accepted lim (response third) m body) :
    (m.firstToken = third ∧ m.secondToken = str "200" ∧ m.thirdToken = str "OK") ↔
      SP ∉ third := by
  constructor
  · rintro ⟨hfirst, -⟩ hmem
    obtain ⟨msg, -, rfl, -⟩ := MessageParser.exists_message_of_accepted hm
    rw [← hfirst] at hmem
    have hvisible := msg.shown_safe.firstToken.chars SP hmem
    exact absurd rfl ((visible_iff_printable_ne_SP SP).mp hvisible).2
  · intro hspace
    obtain ⟨rfl, -⟩ := (h.accepted_of_no_space hspace).agrees hm
    exact ⟨rfl, rfl, rfl⟩

/-- **A response is always a message.** Whatever the first request is, a client with room
for it reads the response as a message with the listing as its body and the three headers;
all clients that read it agree; and they read the third token of the request, `200` and
`OK` if and only if that token has no space. -/
theorem response_read (s : Bytes) (m : Shown) (h : Connection.BeginsWith s m) :
    (∃ n, MessageParser.Accepted responseLimits (response m.thirdToken) n listing) ∧
    ∀ lim n body, MessageParser.Accepted lim (response m.thirdToken) n body →
      body = listing ∧ n.headers = responseHeaders ∧
        ((n.firstToken = m.thirdToken ∧ n.secondToken = str "200" ∧ n.thirdToken = str "OK") ↔
          SP ∉ m.thirdToken) := by
  obtain ⟨w, rest, data, -, hacc⟩ := h
  have hthird := repeatable_of_accepted hacc
  obtain ⟨n, hn, hheaders⟩ := hthird.exists_accepted
  refine ⟨⟨n, hn⟩, fun lim n' body hn' => ?_⟩
  obtain ⟨rfl, rfl⟩ := hn.agrees hn'
  exact ⟨rfl, hheaders, hthird.tokens_iff hn'⟩

/-- A request whose third token has a space: the client is told of another status. -/
theorem response_read_shifted :
    ∃ n, MessageParser.Accepted responseLimits (response (str "a 404")) n listing ∧
      ¬ (n.firstToken = str "a 404" ∧ n.secondToken = str "200" ∧ n.thirdToken = str "OK") := by
  have hrequest : Connection.BeginsWith (str "a b a 404\r\n\r\n")
      ⟨str "a", str "b", str "a 404", ∅⟩ :=
    ⟨str "a b a 404\r\n\r\n", [], [], by decide, by decide +kernel⟩
  obtain ⟨⟨n, hn⟩, hall⟩ := response_read _ _ hrequest
  refine ⟨n, hn, fun htokens => ?_⟩
  exact absurd ((hall _ _ _ hn).2.2.mp htokens) (by decide)

end HttpTask

namespace Connection

open HttpTask

/-- **Every request is answered, and the answer is read.** A request that the parser
accepts arrives in any pieces that the buffer has room for, with anything behind it in the
last of them, and the sends take any numbers of bytes, none of them zero, that make up the
response. Then the connection is over, and a client that is between messages is told of
exactly one message, in whatever buffers the response arrives: the listing, with the three
headers and, unless the third token of the request has a space, that token as its version
and `200 OK`. -/
theorem request_answered (memory : Memory Byte) (w rest : Bytes) (m : Shown) (body : Bytes)
    (h : MessageParser.Accepted requestLimits w m body) (data : List Bytes) (last : Bytes)
    (hdata : data.flatten ++ last = w ++ rest) (hlast : data.flatten.length < w.length)
    (hfits : ∀ d ∈ last :: data, d.length ≤ BufferSize) (ns : List ℕ)
    (hpos : ∀ n ∈ ns, 0 < n) (hsum : ns.sum = (response m.thirdToken).length)
    (p : MessageParser) (hp : MessageParser.BetweenMessages responseLimits p) (os : OStream) :
    ∃ c n, runSteps step (start memory) (exchange data last ns) = some c ∧
      c.task.pending = .nothing ∧ n.headers = responseHeaders ∧
      (SP ∉ m.thirdToken →
        n.firstToken = m.thirdToken ∧ n.secondToken = str "200" ∧ n.thirdToken = str "OK") ∧
      ∀ bufs : List Bytes, bufs.flatten = c.sent →
        ∃ r, (Reception.start p os).receiveBuffers bufs = .ok r ∧
          r.reports = [⟨c.sent.length, n, listing⟩] ∧ r.os.out = os.out ++ listing ∧
          r.parser.isCompleted = true := by
  obtain ⟨c, hrun, hsent, hover⟩ :=
    run_request memory w rest m body h data last hdata hlast hfits ns hpos hsum
  have hthird := repeatable_of_accepted h
  obtain ⟨n, hn, hheaders⟩ := hthird.exists_accepted
  refine ⟨c, n, hrun, hover, hheaders, (hthird.tokens_iff hn).mpr, fun bufs hbufs => ?_⟩
  rw [hsent] at hbufs ⊢
  have hds : ∀ d ∈ [(⟨response m.thirdToken, n, listing⟩ : Delivered)],
      MessageParser.Accepted responseLimits d.wire d.shown d.body := by simpa using hn
  have hwhole : bufs.flatten =
      [(⟨response m.thirdToken, n, listing⟩ : Delivered)].flatMap Delivered.wire := by
    simpa using hbufs
  obtain ⟨r, hr, hreports, -, hall⟩ := Reception.told_of_arrived hp os hds (by rw [hwhole])
  obtain ⟨hout, hcompleted⟩ := hall hwhole
  refine ⟨r, hr, ?_, ?_, hcompleted⟩
  · rw [hreports, hwhole, Delivered.filter_reportsFrom]
    simp [Delivered.reportsFrom]
  · simpa using hout

theorem request_answered_pipelined : ∃ c,
    runSteps step (start fun _ => 0)
        (exchange [str "a b"] (str " c\r\n\r\na b") [100, 92]) = some c ∧
      c.task.pending = .nothing ∧
      ∃ r, (Reception.start (.create responseLimits) .fresh).receiveBuffers [c.sent] = .ok r ∧
        r.os.out = listing := by
  obtain ⟨c, n, hrun, hover, -, -, hread⟩ := request_answered (fun _ => 0)
    (str "a b c\r\n\r\n") (str "a b") ⟨str "a", str "b", str "c", ∅⟩ [] (by decide +kernel)
    [str "a b"] (str " c\r\n\r\na b") (by decide) (by decide) (by decide) [100, 92] (by decide)
    (by decide +kernel) _ (.reset []) .fresh
  obtain ⟨r, hr, -, hout, -⟩ := hread [c.sent] (List.append_nil _)
  exact ⟨c, hrun, hover, r, hr, hout⟩

end Connection

end Httpxx
