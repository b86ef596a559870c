import Httpxx.Parser.Session

/-!
Where an error is said to be. The parser keeps `_pos`, `_line` and `_col` of the
next byte and puts them into every exception. Here they are compared with the
place of that byte counted from the bytes of its message alone.

The fields are right about the message the parser is in. Two things come between
them and the exceptions: they are cleared only by the first accepted byte of the
next message, so that a byte rejected between messages is reported at the end of
the message before, and the exception takes them as `int`s.
-/

namespace Httpxx

open Library

@[ext] structure Place where
  pos : ℕ
  line : ℕ
  col : ℕ
  deriving DecidableEq, Repr

namespace Place

def origin : Place := ⟨0, 1, 1⟩

/-- The place of the byte that follows the bytes `m` of a message: their number,
one more than the number of LFs among them, and one more than the number of bytes
since the last LF. -/
def following (m : Bytes) : Place :=
  ⟨m.length, 1 + m.count LF, 1 + (m.rtakeWhile fun ch => ch != LF).length⟩

@[simp] theorem following_nil : following [] = origin := rfl

theorem following_append_LF (m : Bytes) :
    following (m ++ [LF]) = ⟨(following m).pos + 1, (following m).line + 1, 1⟩ := by
  simp [following, Nat.add_assoc]

theorem following_append_of_ne {ch : Byte} (h : ch ≠ LF) (m : Bytes) :
    following (m ++ [ch]) =
      ⟨(following m).pos + 1, (following m).line, (following m).col + 1⟩ := by
  have hcount : List.count LF [ch] = 0 := by simp [h]
  simp [following, h, hcount, Nat.add_assoc]

def Below (a : Place) (bound : ℕ) : Prop := a.pos < bound ∧ a.line < bound ∧ a.col < bound

instance (a : Place) (bound : ℕ) : Decidable (a.Below bound) :=
  inferInstanceAs (Decidable (_ ∧ _ ∧ _))

/-- Two places whose counts differ by multiples of `m`. -/
def Congruent (m : ℕ) (a b : Place) : Prop :=
  a.pos % m = b.pos % m ∧ a.line % m = b.line % m ∧ a.col % m = b.col % m

instance (m : ℕ) (a b : Place) : Decidable (a.Congruent m b) :=
  inferInstanceAs (Decidable (_ ∧ _ ∧ _))

def wrapped (a : Place) : Place := ⟨a.pos % 2 ^ 64, a.line % 2 ^ 64, a.col % 2 ^ 64⟩

theorem wrapped_eq_iff (a : Place) : a.wrapped = a ↔ a.Below (2 ^ 64) := by
  simp only [wrapped, Place.ext_iff, Below]
  omega

end Place

def Exception.At (e : Exception) (a : Place) : Prop :=
  e.pos = a.pos ∧ e.line = a.line ∧ e.col = a.col

instance (e : Exception) (a : Place) : Decidable (e.At a) :=
  inferInstanceAs (Decidable (_ ∧ _ ∧ _))

/-- An `int` holds the number `b` after the conversion of the `size_t` that holds
`a` exactly when `b` fits and the two agree modulo `2 ^ 32`. -/
theorem toInt_wrapped_eq_iff (a b : ℕ) :
    toInt (a % 2 ^ 64) = b ↔ a % 2 ^ 32 = b % 2 ^ 32 ∧ b < 2 ^ 31 := by
  have hwidth : ((2 ^ 32 : ℕ) : ℤ) = 4294967296 := by norm_num
  have hbmod := Int.bmod_def ((a % 2 ^ 64 : ℕ) : ℤ) (2 ^ 32)
  rw [hwidth] at hbmod
  unfold toInt
  rw [hbmod]
  split <;> omega

namespace MessageParser

def place (p : MessageParser) : Place := ⟨p.pos, p.line, p.col⟩

/-- Whatever is thrown, a parser that is returned reports the same place. -/
def KeepsPlace (p : MessageParser) (r : Except Thrown MessageParser) : Prop :=
  ∀ p', r = .ok p' → p'.place = p.place

namespace KeepsPlace

variable {p : MessageParser} {r s : Except Thrown MessageParser}

theorem throwing (q : MessageParser) (ch : Byte) (code : Code) :
    p.KeepsPlace (q.throwing ch code) := by
  intro p' h
  simp [MessageParser.throwing] at h

theorem ok {q : MessageParser} (h : q.place = p.place) : p.KeepsPlace (.ok q) := by
  rintro p' ⟨⟩
  exact h

theorem ite {c : Prop} [Decidable c] (hr : p.KeepsPlace r) (hs : p.KeepsPlace s) :
    p.KeepsPlace (if c then r else s) := by
  split
  · exact hr
  · exact hs

theorem bind {k : MessageParser → Except Thrown MessageParser} (hr : p.KeepsPlace r)
    (hk : ∀ q : MessageParser, q.KeepsPlace (k q)) : p.KeepsPlace (r >>= k) := by
  intro p' h
  cases r with
  | error e => cases h
  | ok q => exact (hk q p' h).trans (hr q rfl)

end KeepsPlace

theorem appendHeader_keepsPlace (p : MessageParser) (ch : Byte) :
    p.KeepsPlace (p.appendHeader ch) := by
  unfold appendHeader
  exact .ite (.throwing _ _ _) (.ok rfl)

theorem parseHeader_keepsPlace (p : MessageParser) (ch : Byte) (isTrailer : Bool) :
    p.KeepsPlace (p.parseHeader ch isTrailer) := by
  unfold parseHeader
  exact .ite (.ok rfl) (.ite (.throwing _ _ _) (.ite (.ok rfl) (.throwing _ _ _)))

theorem parseHeaderName_keepsPlace (p : MessageParser) (ch : Byte) (isTrailer : Bool) :
    p.KeepsPlace (p.parseHeaderName ch isTrailer) := by
  unfold parseHeaderName
  exact .ite (.throwing _ _ _) (.ite (.ok rfl)
    (.ite (.ite (.ok rfl) (.throwing _ _ _)) (.throwing _ _ _)))

theorem parseHeaderValue_keepsPlace (p : MessageParser) (ch : Byte) (isTrailer : Bool) :
    p.KeepsPlace (p.parseHeaderValue ch isTrailer) := by
  unfold parseHeaderValue
  exact .ite (.ok rfl) (.ite (.ite (.ok rfl) (.throwing _ _ _)) (.throwing _ _ _))

theorem parseHeaderValueLF_keepsPlace (p : MessageParser) (ch : Byte) (isTrailer : Bool) :
    p.KeepsPlace (p.parseHeaderValueLF ch isTrailer) := by
  unfold parseHeaderValueLF
  exact .ite (.ok rfl) (.throwing _ _ _)

theorem parseHeaderValueLWS_keepsPlace (p : MessageParser) (ch : Byte) (isTrailer : Bool) :
    p.KeepsPlace (p.parseHeaderValueLWS ch isTrailer) := by
  have happend := appendHeader_keepsPlace p ch
  unfold parseHeaderValueLWS
  exact .ite (happend.bind fun _ => .ok rfl) (.ite (.throwing _ _ _)
    (.ite (.ite (.ok rfl) (.throwing _ _ _))
      (.ite (happend.bind fun _ => .ok rfl) (.throwing _ _ _))))

theorem parseEndOfHeader_keepsPlace (p : MessageParser) (ch : Byte) :
    p.KeepsPlace (p.parseEndOfHeader ch) := by
  unfold parseEndOfHeader
  refine .ite (.ite (.ok rfl) (.ite ?_ (.ok rfl))) (.throwing _ _ _)
  split
  · exact .throwing _ _ _
  · exact .ite (.ok rfl) (.ok rfl)

theorem parseChunkSize_keepsPlace (p : MessageParser) (ch : Byte) :
    p.KeepsPlace (p.parseChunkSize ch) := by
  unfold parseChunkSize
  refine .ite (.ok rfl) (.ite (.throwing _ _ _) ?_)
  split
  · exact .throwing _ _ _
  · exact .ite (.ok rfl) (.ok rfl)

/-- Only the first byte of a message touches the place within the `switch`: it
clears it. -/
theorem place_of_parseState {p p' : MessageParser} {ch : Byte} (h : p.parseState ch = .ok p') :
    p'.place = if p.isCompleted then Place.origin else p.place := by
  by_cases hdone : p.isCompleted = true
  · have hstate : p.state = .parsingMessage := by simpa [isCompleted] using hdone
    rw [if_pos hdone]
    simp only [parseState, hstate] at h
    split_ifs at h
    · injection h with h
      subst h
      rfl
    · injection h with h
      subst h
      rfl
    · simp [throwing] at h
  · rw [if_neg hdone]
    have hstate : p.state ≠ .parsingMessage := by simpa [isCompleted] using hdone
    refine (?_ : p.KeepsPlace (p.parseState ch)) p' h
    unfold parseState
    cases hcase : p.state with
    | parsingMessage => exact absurd hcase hstate
    | parsingLeadingSP | parsingFirstTokenSP | parsingSecondTokenSP =>
        exact .ite (.ok rfl) (.ite (.ok rfl) (.throwing _ _ _))
    | parsingFirstToken | parsingSecondToken | parsingThirdToken =>
        exact .ite (.ok rfl) (.ite (.ite (.throwing _ _ _) (.ok rfl)) (.throwing _ _ _))
    | parsingFirstLineLF | parsingChunkSizeLF | parsingChunkCR | parsingChunkLF | parsingFinalLF =>
        exact .ite (.ok rfl) (.throwing _ _ _)
    | parsingHeader => exact parseHeader_keepsPlace p ch false
    | parsingHeaderName => exact parseHeaderName_keepsPlace p ch false
    | parsingHeaderValue => exact parseHeaderValue_keepsPlace p ch false
    | parsingHeaderValueLF => exact parseHeaderValueLF_keepsPlace p ch false
    | parsingHeaderValueLWS => exact parseHeaderValueLWS_keepsPlace p ch false
    | parsingEndOfHeader => exact parseEndOfHeader_keepsPlace p ch
    | parsingIdentityBody | parsingChunkExtension | parsingChunk => exact .ite (.ok rfl) (.ok rfl)
    | parsingChunkSize => exact parseChunkSize_keepsPlace p ch
    | parsingTrailerHeader => exact parseHeader_keepsPlace p ch true
    | parsingTrailerHeaderName => exact parseHeaderName_keepsPlace p ch true
    | parsingTrailerHeaderValue => exact parseHeaderValue_keepsPlace p ch true
    | parsingTrailerHeaderValueLF => exact parseHeaderValueLF_keepsPlace p ch true
    | parsingTrailerHeaderValueLWS => exact parseHeaderValueLWS_keepsPlace p ch true

theorem place_updatePosition {p : MessageParser} {m : Bytes}
    (h : p.place = (Place.following m).wrapped) (ch : Byte) :
    (p.updatePosition ch).place = (Place.following (m ++ [ch])).wrapped := by
  obtain ⟨hpos, hline, hcol⟩ := Place.ext_iff.mp h
  simp only [place, Place.wrapped] at hpos hline hcol
  by_cases hlf : ch = LF
  · subst hlf
    simp [updatePosition, Place.following_append_LF, place, Place.wrapped, hpos, hline]
  · have hnot : isLineFeed ch = false := by simpa [isLineFeed] using hlf
    simp [updatePosition, Place.following_append_of_ne hlf, place, Place.wrapped, hnot, hpos,
      hline, hcol]

end MessageParser

namespace Session

/-- The bytes already read of the message that the next byte belongs to; between
messages that byte begins a new one. -/
def begun (s : Session) : Bytes :=
  if s.parser.isCompleted then [] else s.message.map Prod.fst

/-- In every session the parser reports the place that follows the bytes read,
until the first byte of the next message. -/
theorem place_after (lim : Limits) (calls : List Call) :
    (after lim calls).parser.place =
      (Place.following ((after lim calls).message.map Prod.fst)).wrapped := by
  refine (after_induction (I := fun s => s.parser.Clean ∧
    s.parser.place = (Place.following (s.message.map Prod.fst)).wrapped)
    ⟨MessageParser.clean_create lim, rfl⟩ ?_ calls).2
  rintro s call ⟨hclean, hs⟩
  cases call with
  | reset => exact ⟨MessageParser.clean_reset _, rfl⟩
  | parse ch =>
      rcases MessageParser.parse_cases hclean ch with
        ⟨code, hthrow, -⟩ | ⟨p, flags, hok, hp, -, -⟩
      · rw [step_parse_of_error hthrow]
        exact ⟨hclean, hs⟩
      · rw [step_parse_of_ok hok]
        refine ⟨hp, ?_⟩
        obtain ⟨p', hstate, rfl, -⟩ := MessageParser.parse_ok_iff.mp hok
        simp only [List.map_append, List.map_cons, List.map_nil]
        have hplace : p'.place = (Place.following s.begun).wrapped := by
          rw [MessageParser.place_of_parseState hstate, begun]
          split
          · rfl
          · exact hs
        rw [begun] at hplace
        split at hplace <;> simp_all [MessageParser.place_updatePosition hplace ch]

/-- What an exception at the next byte can say of the bytes read. Inside a
message the counts fit into an `int`; between messages those of the message
before do not show in one. -/
def CountsFit (s : Session) : Prop :=
  if s.parser.isCompleted then
    (Place.following (s.message.map Prod.fst)).Congruent (2 ^ 32) .origin
  else (Place.following (s.message.map Prod.fst)).Below (2 ^ 31)

/-- Every byte rejected along the calls is reported at its place in its message. -/
def ErrorsLocated (lim : Limits) (calls : List Call) : Prop :=
  ∀ pre ch thrown, pre ++ [.parse ch] <+: calls →
    (after lim pre).parser.parse ch = .error thrown →
      thrown.exception.At (Place.following (after lim pre).begun)

/-- After every byte accepted along the calls the parser reports the place that
follows it. -/
def AcceptedLocated (lim : Limits) (calls : List Call) : Prop :=
  ∀ pre ch p flags, pre ++ [.parse ch] <+: calls →
    (after lim pre).parser.parse ch = .ok (p, flags) →
      p.place = Place.following ((after lim pre).begun ++ [ch])

theorem at_begun_iff {lim : Limits} {calls : List Call} {ch : Byte} {thrown : Thrown}
    (h : (after lim calls).parser.parse ch = .error thrown) :
    thrown.exception.At (Place.following (after lim calls).begun) ↔
      (after lim calls).CountsFit := by
  obtain ⟨hpos, hline, hcol⟩ := Place.ext_iff.mp (place_after lim calls)
  simp only [MessageParser.place, Place.wrapped] at hpos hline hcol
  rcases MessageParser.parse_cases (clean_after lim calls).1 ch with
    ⟨code, hthrow, -⟩ | ⟨p, flags, hok, -⟩
  · obtain rfl : _ = thrown := Except.error.inj (hthrow.symm.trans h)
    simp only [Exception.At, hpos, hline, hcol, toInt_wrapped_eq_iff, begun, CountsFit]
    split
    · simp [Place.Congruent, Place.origin]
    · simp [Place.Below]
  · simp [hok] at h

theorem place_eq_following_iff {lim : Limits} {calls : List Call} {ch : Byte}
    {p : MessageParser} {flags : Flags}
    (h : (after lim calls).parser.parse ch = .ok (p, flags)) :
    p.place = Place.following ((after lim calls).begun ++ [ch]) ↔
      (Place.following ((after lim calls).begun ++ [ch])).Below (2 ^ 64) := by
  have hplace := place_after lim (calls ++ [.parse ch])
  rw [after_append_singleton, step_parse_of_ok h] at hplace
  have hbytes : ((if (after lim calls).parser.isCompleted then [] else (after lim calls).message) ++
      [(ch, flags.isBodyChar)]).map Prod.fst = (after lim calls).begun ++ [ch] := by
    unfold begun
    split <;> simp
  rw [hbytes] at hplace
  rw [hplace, Place.wrapped_eq_iff]

/-- Places are reported right along a run exactly when, at every rejected byte of
it, the counts fit, and no place after an accepted byte exceeds a `size_t`. -/
theorem located_iff_countsFit (lim : Limits) (calls : List Call) :
    ErrorsLocated lim calls ∧ AcceptedLocated lim calls ↔
      (∀ pre ch thrown, pre ++ [.parse ch] <+: calls →
        (after lim pre).parser.parse ch = .error thrown → (after lim pre).CountsFit) ∧
      ∀ pre ch p flags, pre ++ [.parse ch] <+: calls →
        (after lim pre).parser.parse ch = .ok (p, flags) →
          (Place.following ((after lim pre).begun ++ [ch])).Below (2 ^ 64) := by
  refine and_congr ?_ ?_
  · exact forall_congr' fun pre => forall_congr' fun ch => forall_congr' fun thrown =>
      forall_congr' fun _ => forall_congr' fun h => at_begun_iff h
  · exact forall_congr' fun pre => forall_congr' fun ch => forall_congr' fun p =>
      forall_congr' fun flags => forall_congr' fun _ => forall_congr' fun h =>
        place_eq_following_iff h

/-- A complete message, and then a byte that cannot begin another one. -/
theorem not_located_after_message :
    ¬ ErrorsLocated ⟨9, 9, 9, 9, 9, 9⟩
      ((str "A B C\r\n\r\n").map Call.parse ++ [.parse 0x00]) := by
  intro h
  have hat := h ((str "A B C\r\n\r\n").map Call.parse) 0x00 _ (List.prefix_rfl) rfl
  exact absurd hat (by decide)

end Session

end Httpxx
