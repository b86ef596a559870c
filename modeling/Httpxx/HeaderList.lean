import Httpxx.MessageComposer

/-!
The header container as what it is for: a list of headers in the order in which they
were added, whose names are compared without regard to letter case. The container keeps
a tree sorted by its comparator instead; `apply_eq` says that every call on the tree is
the call on the list, and `run_eq` that every sequence of calls is. On the list the
lookups are plain searches from the front.

The comparator sees a name only up to its first NUL, so names without one are assumed.
-/

namespace Httpxx

open Library

/-- A call that changes the container. -/
inductive HeadersCall
  | add (name value : Bytes)
  | erase (name : Bytes)
  deriving DecidableEq, Repr

namespace HeadersCall

def name : HeadersCall → Bytes
  | add name _ | erase name => name

def apply (hs : Headers) : HeadersCall → Headers
  | add name value => Headers.add hs name value
  | erase name => hs.erase name

def applyList (l : List (Bytes × Bytes)) : HeadersCall → List (Bytes × Bytes)
  | add name value => l ++ [(name, value)]
  | erase name => l.filter fun e => !decide (EqIgnoringCase e.1 name)

def run (calls : List HeadersCall) : Headers := calls.foldl apply ∅

/-- The list of headers after some calls: those that survive, the earliest first. -/
def runList (calls : List HeadersCall) : List (Bytes × Bytes) := calls.foldl applyList []

end HeadersCall

/-- A list of headers whose names the comparator sees to their end. -/
def NamesNulFree (l : List (Bytes × Bytes)) : Prop := ∀ e ∈ l, NulFree e.1

theorem sameName_eq_decide {a b : Bytes} (ha : NulFree a) (hb : NulFree b) :
    sameName a b = decide (EqIgnoringCase a b) := by
  rw [Bool.eq_iff_iff, decide_eq_true_eq]
  exact ha.sameName_iff hb

def Headers.ofList (l : List (Bytes × Bytes)) : Headers := (∅ : Headers).insertAll l

section Lookups

variable {l : List (Bytes × Bytes)} {q : Bytes}

theorem equalRange_ofList (hl : NamesNulFree l) (hq : NulFree q) :
    (Headers.ofList l).equalRange q = l.filter fun e => decide (EqIgnoringCase e.1 q) := by
  rw [Headers.ofList, Multimap.equalRange_insertAll_empty]
  exact List.filter_congr fun e he => sameName_eq_decide (hl e he) hq

theorem haveHeader_ofList (hl : NamesNulFree l) (hq : NulFree q) :
    (Headers.ofList l).haveHeader q = true ↔ ∃ e ∈ l, EqIgnoringCase e.1 q := by
  rw [Headers.haveHeader, equalRange_ofList hl hq]
  simp

theorem haveValue_ofList (hl : NamesNulFree l) (hq : NulFree q) (v : Bytes) :
    (Headers.ofList l).haveValue q v = true ↔ ∃ e ∈ l, EqIgnoringCase e.1 q ∧ e.2 = v := by
  rw [Headers.haveValue, equalRange_ofList hl hq]
  simp

theorem value_ofList (hl : NamesNulFree l) (hq : NulFree q) :
    (Headers.ofList l).value q =
      ((l.find? fun e => decide (EqIgnoringCase e.1 q)).map Prod.snd).getD [] := by
  rw [Headers.value, equalRange_ofList hl hq, ← List.head?_filter]
  cases l.filter fun e => decide (EqIgnoringCase e.1 q) <;> rfl

theorem erase_ofList (hl : NamesNulFree l) (hq : NulFree q) :
    (Headers.ofList l).erase q =
      Headers.ofList (l.filter fun e => !decide (EqIgnoringCase e.1 q)) := by
  rw [Headers.ofList, Multimap.erase_insertAll]
  refine congrArg Headers.ofList (List.filter_congr fun e he => ?_)
  rw [← sameName_eq_decide (hl e he) hq]
  rfl

theorem entries_erase_ofList (hl : NamesNulFree l) (hq : NulFree q) :
    ((Headers.ofList l).erase q).entries =
      (Headers.ofList l).entries.filter fun e => !decide (EqIgnoringCase e.1 q) := by
  rw [Multimap.erase_eq_filter, Multimap.entries_filter]
  refine List.filter_congr fun e he => ?_
  have hmem : e ∈ l := by simpa [Headers.ofList] using he
  rw [← sameName_eq_decide (hl e hmem) hq]
  rfl

end Lookups

namespace HeadersCall

/-- **Every call on the container is the call on the list.** -/
theorem apply_eq {l : List (Bytes × Bytes)} (hl : NamesNulFree l) {call : HeadersCall}
    (hcall : NulFree call.name) :
    apply (Headers.ofList l) call = Headers.ofList (applyList l call) ∧
      NamesNulFree (applyList l call) := by
  cases call with
  | add name value =>
      refine ⟨?_, fun e he => ?_⟩
      · rw [applyList, Headers.ofList, Headers.ofList, Multimap.insertAll_append]
        rfl
      · rcases List.mem_append.mp he with he | he
        · exact hl e he
        · obtain rfl := List.mem_singleton.mp he
          exact hcall
  | erase name =>
      exact ⟨erase_ofList hl hcall, fun e he => hl e (List.mem_of_mem_filter he)⟩

theorem run_eq {calls : List HeadersCall} (h : ∀ call ∈ calls, NulFree call.name) :
    run calls = Headers.ofList (runList calls) ∧ NamesNulFree (runList calls) := by
  induction calls using List.reverseRecOn with
  | nil => exact ⟨rfl, by simp [NamesNulFree, runList]⟩
  | append_singleton calls call ih =>
      rw [List.forall_mem_append, List.forall_mem_singleton] at h
      obtain ⟨hrun, hnames⟩ := ih h.1
      rw [run, runList, List.foldl_append, List.foldl_append, ← run, ← runList, hrun]
      exact apply_eq hnames h.2

end HeadersCall

open HeadersCall in
/-- **The container is the list of the headers that survive.** The comparator is a strict
weak order, which on names without NUL tells apart what differs in more than letter
case. After any calls with such names every lookup is the search of the list, erasing
removes the headers of a name in whatever spelling and no other, and `composedSize` is
the number of bytes that `compose` writes. -/
theorem Headers.behaves_as_list (calls : List HeadersCall)
    (h : ∀ call ∈ calls, NulFree call.name) :
    (IsStrictWeakOrder Bytes fun a b => CaseInsensitiveComparator a b = true) ∧
    (∀ a b, NulFree a → NulFree b →
      ((CaseInsensitiveComparator a b = false ∧ CaseInsensitiveComparator b a = false) ↔
        EqIgnoringCase a b)) ∧
    (run calls).entries.Perm (runList calls) ∧
    (∀ q, NulFree q →
      ((run calls).haveHeader q = true ↔ ∃ e ∈ runList calls, EqIgnoringCase e.1 q) ∧
      (∀ v, (run calls).haveValue q v = true ↔
        ∃ e ∈ runList calls, EqIgnoringCase e.1 q ∧ e.2 = v) ∧
      (run calls).value q =
        (((runList calls).find? fun e => decide (EqIgnoringCase e.1 q)).map Prod.snd).getD [] ∧
      ((run calls).erase q).entries =
        (run calls).entries.filter fun e => !decide (EqIgnoringCase e.1 q)) ∧
    ∀ target : OStream, target.width = 0 → ∃ text,
      (run calls).compose target = target.append text ∧
        text.length = (run calls).composedSize := by
  obtain ⟨hrun, hnames⟩ := run_eq h
  refine ⟨inferInstance, fun a b ha hb => ?_, ?_, fun q hq => ?_, fun target hwidth => ?_⟩
  · rw [← ha.sameName_iff hb]
    simp [sameName, equivalent]
  · rw [hrun]
    simpa [Headers.ofList] using Multimap.perm_insertAll (∅ : Headers) (runList calls)
  · rw [hrun]
    exact ⟨haveHeader_ofList hnames hq, haveValue_ofList hnames hq, value_ofList hnames hq,
      entries_erase_ofList hnames hq⟩
  · exact MessageComposer.compose_eq hwidth (run calls)

open HeadersCall in
/-- Two cookies in different spelling, and a header that is erased in a third one. -/
theorem Headers.behaves_as_list_cookies :
    (run [.add (str "Set-Cookie") (str "a"), .add (str "Age") (str "1"),
        .add (str "set-cookie") (str "b"), .erase (str "AGE")]).value (str "SET-COOKIE") =
      str "a" := by
  have hvalue := ((Headers.behaves_as_list [.add (str "Set-Cookie") (str "a"),
    .add (str "Age") (str "1"), .add (str "set-cookie") (str "b"), .erase (str "AGE")]
    (by decide)).2.2.2.1 (str "SET-COOKIE") (by decide)).2.2.1
  rw [hvalue]
  decide +kernel

end Httpxx
