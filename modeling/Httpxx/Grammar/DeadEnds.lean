import Mathlib.Data.List.Infix
import Httpxx.Grammar.Body
import Httpxx.Library.Reading

/-!
Where a parser reads on though no continuation is a message. It does not refuse at the
first byte after which none is: how the headers delimit the body is decided behind the
header section, the number of headers and the size of a chunk behind the line.
`Phase.CanEnd` says of every phase, by what has been gathered in it, whether the message
can still be completed. Here no step is found to lead out of the phases where it does
not hold; `Completion.lean` completes the message from all others.
-/

namespace Httpxx

open Library Grammar

/-! ### Longer strings -/

theorem dropWhile_prefix_append (p : Byte → Bool) (s x : Bytes) :
    s.dropWhile p <+: (s ++ x).dropWhile p := by
  rw [List.dropWhile_append]
  split
  · rename_i h
    rw [List.isEmpty_iff.mp h]
    exact List.nil_prefix
  · exact List.prefix_append _ _

theorem takeWhile_length_le_append (p : Byte → Bool) (s x : Bytes) :
    (s.takeWhile p).length ≤ ((s ++ x).takeWhile p).length := by
  rw [List.takeWhile_append]
  split
  · rw [List.length_append]
    have hle := (List.takeWhile_prefix (l := s) p).length_le
    omega
  · exact le_refl _

theorem trim_append_singleton {s : Bytes} {ch : Byte} (h : ch ∈ charsToTrim) :
    trim (s ++ [ch]) = trim s := by
  rw [trim, List.rdropWhile_concat_pos _ _ _ ((isTrimmed_iff ch).mpr h), trim]

theorem trim_prefix_append (s x : Bytes) : trim s <+: trim (s ++ x) := by
  induction x using List.reverseRecOn with
  | nil => simp
  | append_singleton x ch ih =>
      by_cases hch : ch ∈ charsToTrim
      · rwa [← List.append_assoc, trim_append_singleton hch]
      · -- nothing is trimmed at the end, so the whole string follows the white space
        have hright : ((s ++ x) ++ [ch]).rdropWhile isTrimmed = (s ++ x) ++ [ch] :=
          List.rdropWhile_concat_neg _ _ _ (by simpa [isTrimmed_iff] using hch)
        obtain ⟨y, hy⟩ := List.rdropWhile_prefix isTrimmed s
        rw [← List.append_assoc, trim, trim, hright]
        have heq : (s ++ x) ++ [ch] = s.rdropWhile isTrimmed ++ (y ++ (x ++ [ch])) := by
          rw [← List.append_assoc, hy, List.append_assoc]
        rw [heq]
        exact dropWhile_prefix_append _ _ _

theorem hexLoop_of_append {s x : Bytes} {curPos : ℕ} {r n : UInt32}
    (h : hexLoop curPos r (s ++ x) = .ok n) : ∃ n', hexLoop curPos r s = .ok n' := by
  induction s generalizing curPos r with
  | nil => exact ⟨r, rfl⟩
  | cons ch s ih =>
      simp only [List.cons_append, hexLoop] at h ⊢
      split_ifs at h ⊢ <;> exact ih h

theorem decimalLoop_of_append {s x : Bytes} {curPos : ℕ} {r n : UInt32}
    (h : decimalLoop curPos r (s ++ x) = .ok n) : ∃ n', decimalLoop curPos r s = .ok n' := by
  induction s generalizing curPos r with
  | nil => exact ⟨r, rfl⟩
  | cons ch s ih =>
      simp only [List.cons_append, decimalLoop] at h ⊢
      split_ifs at h ⊢
      exact ih h

/-- **A number that is read has been read of every beginning of it.** -/
theorem toUnsignedInt_of_append {s x : Bytes} {isHex : Bool} {n : UInt32}
    (h : toUnsignedInt (s ++ x) isHex = .ok n) : ∃ n', toUnsignedInt s isHex = .ok n' := by
  obtain ⟨y, hy⟩ := trim_prefix_append s x
  simp only [toUnsignedInt, ← hy] at h ⊢
  cases htrim : trim s with
  | nil => exact ⟨0, rfl⟩
  | cons ch rest =>
      simp only [htrim, List.cons_append] at h ⊢
      split_ifs at h ⊢ with hhex hplus
      · exact hexLoop_of_append (s := ch :: rest) h
      · exact decimalLoop_of_append h
      · exact decimalLoop_of_append (s := ch :: rest) h

/-! ### Headers that delimit the body -/

instance decidableExistsOk {ε α : Type} (x : Except ε α) : Decidable (∃ a, x = .ok a) :=
  match x with
  | .ok a => isTrue ⟨a, rfl⟩
  | .error _ => isFalse (by simp)

/-- The headers say how the body is delimited. -/
def Shown.Framed (m : Shown) : Prop := ∃ f, framing m.headers = .ok f

instance (m : Shown) : Decidable m.Framed :=
  inferInstanceAs (Decidable (∃ f, framing m.headers = .ok f))

def SaysChunked (name value : Bytes) : Prop :=
  sameName (trim name) (str "Transfer-Encoding") = true ∧ trim value = str "chunked"

instance (name value : Bytes) : Decidable (SaysChunked name value) :=
  inferInstanceAs (Decidable (_ ∧ _))

def ReadsLength (value : Bytes) : Prop := ∃ n, toUnsignedInt value false = .ok n

instance (value : Bytes) : Decidable (ReadsLength value) :=
  inferInstanceAs (Decidable (∃ n, toUnsignedInt value false = .ok n))

theorem framed_iff (m : Shown) :
    m.Framed ↔ m.headers.haveValue (str "Transfer-Encoding") (str "chunked") = true ∨
      m.headers.haveHeader (str "Content-Length") = false ∨
        ReadsLength (m.headers.value (str "Content-Length")) := by
  simp only [Shown.Framed, framing, ReadsLength]
  split_ifs with hchunked hlength
  · simp [hchunked]
  · cases toUnsignedInt (m.headers.value (str "Content-Length")) false with
    | ok n => simp [Except.map]
    | error e => simp [Except.map, hchunked, hlength]
  · simp [hlength]

/-- What one more header does to the framing. A first `Content-Length` stays the first. -/
theorem framed_addHeader_iff (m : Shown) (name value : Bytes) :
    (m.addHeader name value).Framed ↔
      m.headers.haveValue (str "Transfer-Encoding") (str "chunked") = true ∨
      SaysChunked name value ∨
      if m.headers.haveHeader (str "Content-Length") then
        ReadsLength (m.headers.value (str "Content-Length"))
      else sameName (trim name) (str "Content-Length") = true → ReadsLength (trim value) := by
  have hvalues : ∀ q, (m.addHeader name value).headers.values q =
      m.headers.values q ++ if sameName (trim name) q then [trim value] else [] := by
    intro q
    have hrange := Multimap.equalRange_insert m.headers (trim name, trim value) q
    rw [Shown.addHeader, Headers.values, hrange, List.map_append, Headers.values, sameName]
    split_ifs <;> rfl
  rw [framed_iff]
  simp only [Headers.haveValue_eq, Headers.haveHeader_eq, Headers.value_eq, hvalues,
    List.any_append, Bool.or_eq_true, SaysChunked, or_assoc]
  refine or_congr Iff.rfl (or_congr ?_ ?_)
  · cases sameName (trim name) (str "Transfer-Encoding") <;> simp
  · generalize m.headers.values (str "Content-Length") = lengths
    cases lengths with
    | nil => cases sameName (trim name) (str "Content-Length") <;> simp
    | cons length rest => simp

theorem readsLength_trim_of_append {value x : Bytes} (h : ReadsLength (trim (value ++ x))) :
    ReadsLength (trim value) := by
  obtain ⟨y, hy⟩ := trim_prefix_append value x
  obtain ⟨n, hn⟩ := h
  rw [← hy] at hn
  exact toUnsignedInt_of_append hn

/-- Of all headers only `Transfer-Encoding: chunked` mends what the headers before it
say, or a beginning of its own value. -/
theorem framed_of_addHeader_append {m : Shown} {name value x : Bytes}
    (h : (m.addHeader name (value ++ x)).Framed) :
    (m.addHeader name value).Framed ∨ SaysChunked name (value ++ x) := by
  rw [framed_addHeader_iff] at h ⊢
  rcases h with h | h | h
  · exact .inl (.inl h)
  · exact .inr h
  · refine .inl (.inr (.inr ?_))
    split_ifs at h ⊢
    · exact h
    · exact fun hname => readsLength_trim_of_append (h hname)

theorem framed_addHeader_nil_iff (m : Shown) (name : Bytes) :
    (m.addHeader name []).Framed ↔ m.Framed := by
  have hchunked : ¬ SaysChunked name [] := fun h => absurd h.2 (by decide)
  have hlength : ReadsLength (trim []) := ⟨0, rfl⟩
  rw [framed_addHeader_iff, framed_iff]
  cases m.headers.haveHeader (str "Content-Length") <;> simp [hchunked, hlength]

/-! ### Phases that can end -/

/-- After `n` headers there is room for the line `Transfer-Encoding: chunked`. -/
def RoomForChunked (lim : Limits) (n : ℕ) : Prop :=
  n < lim.maxHeadersAmount ∧ (str "Transfer-Encoding").length ≤ lim.maxHeaderNameLength ∧
    (str "chunked").length ≤ lim.maxHeaderValueLength

instance (lim : Limits) (n : ℕ) : Decidable (RoomForChunked lim n) :=
  inferInstanceAs (Decidable (_ ∧ _))

/-- The headers delimit the body, or one more can make them. -/
def Shown.CanFrame (lim : Limits) (m : Shown) : Prop :=
  m.Framed ∨ RoomForChunked lim m.headers.size

instance (lim : Limits) (m : Shown) : Decidable (m.CanFrame lim) :=
  inferInstanceAs (Decidable (_ ∨ _))

/-- The name can go on to `Transfer-Encoding`, and its value can be `chunked`. -/
def BeginsTransferEncoding (lim : Limits) (name : Bytes) : Prop :=
  EqIgnoringCase name ((str "Transfer-Encoding").take name.length) ∧
    (str "Transfer-Encoding").length ≤ lim.maxHeaderNameLength ∧
    (str "chunked").length ≤ lim.maxHeaderValueLength

instance (lim : Limits) (name : Bytes) : Decidable (BeginsTransferEncoding lim name) :=
  inferInstanceAs (Decidable (_ ∧ _))

def BeginsChunked (lim : Limits) (value : Bytes) : Prop :=
  value.dropWhile isTrimmed <+: str "chunked" ∧
    (value.takeWhile isTrimmed).length + (str "chunked").length ≤ lim.maxHeaderValueLength

instance (lim : Limits) (value : Bytes) : Decidable (BeginsChunked lim value) :=
  inferInstanceAs (Decidable (_ ∧ _))

/-- The header under way can be stored, and delimits the body or leaves room for it, as
far as it is read or by the way it goes on. -/
def Shown.CanStore (lim : Limits) (isTrailer : Bool) (m : Shown) (name value : Bytes)
    (goesOn : Prop) : Prop :=
  m.headers.size < lim.maxHeadersAmount ∧
    (isTrailer = true ∨ (m.addHeader name value).CanFrame lim ∨ goesOn)

instance (lim : Limits) (isTrailer : Bool) (m : Shown) (name value : Bytes) (goesOn : Prop)
    [Decidable goesOn] : Decidable (m.CanStore lim isTrailer name value goesOn) :=
  inferInstanceAs (Decidable (_ ∧ _))

namespace Phase

/-- From this phase some continuation is a message. Behind the CR of a header line a
value goes on with a fold only. -/
def CanEnd (lim : Limits) : Phase → Prop
  | firstLineLF m => m.CanFrame lim
  | header isTrailer m => isTrailer = true ∨ m.CanFrame lim
  | endOfHeader isTrailer m => isTrailer = true ∨ m.Framed
  | headerName isTrailer m name =>
      m.CanStore lim isTrailer name [] (BeginsTransferEncoding lim name)
  | headerValue isTrailer m name value =>
      m.CanStore lim isTrailer name value
        (sameName name (str "Transfer-Encoding") = true ∧ BeginsChunked lim value)
  | headerValueLF isTrailer m name value | headerValueLWS isTrailer m name value =>
      m.CanStore lim isTrailer name value
        (sameName name (str "Transfer-Encoding") = true ∧ BeginsChunked lim (value ++ [SP]))
  | chunkSize _ digits => ∃ size, toUnsignedInt digits true = .ok size
  | _ => True

instance (lim : Limits) : DecidablePred (CanEnd lim)
  | firstLineLF m => inferInstanceAs (Decidable (m.CanFrame lim))
  | header .. => inferInstanceAs (Decidable (_ ∨ _))
  | endOfHeader .. => inferInstanceAs (Decidable (_ ∨ _))
  | headerName .. => inferInstanceAs (Decidable (Shown.CanStore ..))
  | headerValue .. => inferInstanceAs (Decidable (Shown.CanStore ..))
  | headerValueLF .. => inferInstanceAs (Decidable (Shown.CanStore ..))
  | headerValueLWS .. => inferInstanceAs (Decidable (Shown.CanStore ..))
  | chunkSize _ digits => inferInstanceAs (Decidable (∃ size, toUnsignedInt digits true = .ok size))
  | message _ | leadingSP | firstToken _ | firstTokenSP _ | secondToken .. | secondTokenSP ..
  | thirdToken .. | identityBody .. | chunkExtension .. | chunkSizeLF ..
  | chunk .. | chunkCR _ | chunkLF _ => isTrue trivial

end Phase

/-! ### No step leaves a dead end -/

section

variable {lim : Limits} {m : Shown} {name value : Bytes}

theorem RoomForChunked.of_succ {n : ℕ} (h : RoomForChunked lim (n + 1)) : RoomForChunked lim n :=
  ⟨(Nat.lt_succ_self n).trans h.1, h.2⟩

theorem BeginsTransferEncoding.of_append {ch : Byte}
    (h : BeginsTransferEncoding lim (name ++ [ch])) : BeginsTransferEncoding lim name := by
  refine ⟨?_, h.2⟩
  have htake := congrArg (List.take name.length) h.1
  simp only [EqIgnoringCase, ← List.map_take, List.take_take, List.length_append] at htake ⊢
  simpa using htake

theorem BeginsChunked.of_append {x : Bytes} (h : BeginsChunked lim (value ++ x)) :
    BeginsChunked lim value :=
  ⟨(dropWhile_prefix_append isTrimmed value x).trans h.1,
    (Nat.add_le_add_right (takeWhile_length_le_append isTrimmed value x) _).trans h.2⟩

/-- A value that a character completes to `chunked` begins so, or is `chunked` before
white space. -/
theorem beginsChunked_of_trim {ch : Byte} (h : trim (value ++ [ch]) = str "chunked")
    (hroom : value.length < lim.maxHeaderValueLength) :
    trim value = str "chunked" ∨ BeginsChunked lim value := by
  by_cases hch : ch ∈ charsToTrim
  · rw [trim_append_singleton hch] at h
    exact .inl h
  · right
    have hright : (value ++ [ch]).rdropWhile isTrimmed = value ++ [ch] :=
      List.rdropWhile_concat_neg _ _ _ (by simpa [isTrimmed_iff] using hch)
    rw [trim, hright] at h
    refine BeginsChunked.of_append (x := [ch]) ⟨by rw [h], ?_⟩
    have hlength := congrArg List.length
      (List.takeWhile_append_dropWhile (p := isTrimmed) (l := value ++ [ch]))
    rw [List.length_append, h, List.length_append, List.length_singleton] at hlength
    omega

theorem framed_or_room_of_addHeader (h : (m.addHeader name value).CanFrame lim) :
    (m.addHeader name value).Framed ∨ RoomForChunked lim m.headers.size :=
  h.imp_right fun hroom => by
    rw [size_addHeader] at hroom
    exact hroom.of_succ

namespace Phase

/-- **A step does not lead out of a dead end.** -/
theorem CanEnd.of_moves {q q' : Phase} {ch : Byte} (hsafe : q.Safe lim) (h : Moves lim q ch q')
    (hframed : ∀ m, q = endOfHeader false m → m.Framed) (hend : q'.CanEnd lim) :
    q.CanEnd lim := by
  induction h with
  | firstLine => exact hend.resolve_left (by simp)
  | @headersEnd isTrailer m => exact hend.imp_right .inl
  | @name isTrailer m ch hch =>
      obtain ⟨hsize, htrailer | hframe | hbegins⟩ := hend
      · exact .inl htrailer
      · refine .inr ?_
        rcases framed_or_room_of_addHeader hframe with hframe | hroom
        · exact .inl ((framed_addHeader_nil_iff m _).mp hframe)
        · exact .inr hroom
      · exact .inr (.inr ⟨hsize, hbegins.2⟩)
  | @nameMore isTrailer m name ch hch hroom =>
      refine ⟨hend.1, hend.2.imp_right (Or.imp ?_ BeginsTransferEncoding.of_append)⟩
      simp only [Shown.CanFrame, framed_addHeader_nil_iff, size_addHeader]
      exact id
  | @nameEnd isTrailer m name =>
      refine ⟨hend.1, hend.2.imp_right (Or.imp_right ?_)⟩
      rintro ⟨hname, hbegins⟩
      have hsame := (sameName_iff_eqIgnoringCase hsafe.reading.chars (by decide)).mp hname
      have hlength := hsame.length_eq
      refine ⟨?_, ?_, by simpa [BeginsChunked] using hbegins.2⟩
      · rwa [hlength, List.take_length]
      · have hbound := hsafe.reading.length
        rw [hlength] at hbound
        exact (le_max_iff.mp hbound).resolve_left (by decide)
  | @valueMore isTrailer m name value ch hch hroom =>
      have hname := NameSafe.trim_eq hsafe.reading.1
      refine ⟨hend.1, hend.2.imp_right ?_⟩
      rintro ((hframe | hmore) | ⟨hsame, hbegins⟩)
      · rcases framed_of_addHeader_append hframe with hframe | ⟨hsame, hvalue⟩
        · exact .inl (.inl hframe)
        · rcases beginsChunked_of_trim hvalue hroom with hvalue | hbegins
          · have hchunked : SaysChunked name value := ⟨hsame, hvalue⟩
            exact .inl (.inl ((framed_addHeader_iff m name value).mpr (.inr (.inl hchunked))))
          · exact .inr ⟨hname ▸ hsame, hbegins⟩
      · rw [size_addHeader] at hmore
        exact .inl (.inr (by rwa [size_addHeader]))
      · exact .inr ⟨hsame, hbegins.of_append⟩
  | @valueCR isTrailer m name value =>
      exact ⟨hend.1, hend.2.imp_right (Or.imp_right (And.imp_right BeginsChunked.of_append))⟩
  | valueLF => exact hend
  | @fold isTrailer m name value ch hch hroom =>
      have hstored : m.addHeader name (value ++ [SP]) = m.addHeader name value := by
        rw [Shown.addHeader, trim_append_singleton (by decide), Shown.addHeader]
      rw [CanEnd, Shown.CanStore, hstored] at hend
      exact hend
  | @store isTrailer m name value ch q hroom hnext ih =>
      have hkept : (header isTrailer (m.addHeader name value)).Safe lim :=
        ⟨hsafe.shown.addHeader hsafe.reading.1 hsafe.reading.2 hroom, trivial⟩
      exact ⟨hroom, (ih hkept (by simp) hend).imp_right .inl⟩
  | noBody | identity | chunked => exact .inr (hframed _ rfl)
  | trailersEnd => exact .inl rfl
  | sizeMore =>
      obtain ⟨size, hsize⟩ := hend
      exact toUnsignedInt_of_append hsize
  | sizeEnd hread | sizeExtension hread => exact ⟨_, hread⟩
  | _ => trivial

theorem framed_of_next {m : Shown} {ch : Byte} {q : Phase}
    (h : (endOfHeader false m).next lim ch = .ok q) : m.Framed := by
  simp only [next, beginBody] at h
  split_ifs at h
  split at h
  · cases h
  all_goals exact ⟨_, ‹_›⟩

/-- **A phase from which some word is accepted can end.** -/
theorem canEnd_of_live {q : Phase} (hsafe : q.Safe lim) (h : (recogniser lim).Live q) :
    q.CanEnd lim := by
  refine Transducer.Live.induction (L := fun q => q.Safe lim → q.CanEnd lim) ?_ h hsafe
  intro q q' ch flags hstep hend hsafe
  obtain ⟨hnext, rfl⟩ := step_ok_iff.mp hstep
  have hmoves := moves_of_next hnext
  refine CanEnd.of_moves hsafe hmoves (fun m hq => framed_of_next (hq ▸ hnext)) ?_
  rcases hend with hdone | hend
  · have hdone : q'.isCompleted = true := hdone
    cases q' with
    | message m => trivial
    | _ => cases hdone
  · exact hend (hsafe.next hmoves)

end Phase

end

end Httpxx
