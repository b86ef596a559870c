import Httpxx.Library.Multimap
import Httpxx.Library.Split
import Httpxx.Uri

/-!
The parameters of `include/httpxx/params.h` and `src/params.cpp`, a
`std::multimap` from names to values. The position in the parsed string is the
suffix that is left to parse. `parse` reads one parameter after another with two
inner loops over that suffix: the name ends at the first `'='`, which is consumed,
or at an `'&'`, which is left to the value; the value ends at the first `'&'`,
which is consumed.
-/

namespace Httpxx

open Library

/-- `operator<` of `std::string`: lexicographic, the characters compared as bytes. -/
def stringLess (lhs rhs : Bytes) : Bool :=
  decide (lhs.map UInt8.toNat < rhs.map UInt8.toNat)

theorem stringLess_iff (a b : Bytes) :
    stringLess a b = true ↔ a.map UInt8.toNat < b.map UInt8.toNat := by
  rw [stringLess, decide_eq_true_eq]

instance : IsStrictWeakOrder Bytes fun a b => stringLess a b = true :=
  isStrictWeakOrder_of_lt_iff stringLess_iff

abbrev Params := Multimap Bytes Bytes stringLess

namespace Params

def haveName (params : Params) (name : Bytes) : Bool := !(params.equalRange name).isEmpty

def haveValue (params : Params) (name value : Bytes) : Bool :=
  (params.equalRange name).any fun i => i.2 == value

def value (params : Params) (name : Bytes) : Bytes :=
  match params.equalRange name with
  | [] => []
  | i :: _ => i.2

def add (params : Params) (name value : Bytes) : Params := params.insert (name, value)

def parseName (paramName : Bytes) : Bytes → Bytes × Bytes
  | [] => (paramName, [])
  | ch :: rest =>
      if ch == equalsSign then (paramName, rest)
      else if ch == ampersand then (paramName, ch :: rest)
      else parseName (paramName ++ [ch]) rest

def parseValue (paramValue : Bytes) : Bytes → Bytes × Bytes
  | [] => (paramValue, [])
  | ch :: rest =>
      if ch == ampersand then (paramValue, rest)
      else parseValue (paramValue ++ [ch]) rest

/-- One iteration of the outer loop: the name/value pair it adds to the result and
what it leaves to parse. -/
def parseParam (s : Bytes) : (Bytes × Bytes) × Bytes :=
  let (paramName, s) := parseName [] s
  let (paramValue, s) := parseValue [] s
  ((decodePercent paramName, decodePercent paramValue), s)

/-- One iteration of the loop of `compose`, on the stream and the size so far. -/
def composeParam (state : OStream × ℕ) (i : Bytes × Bytes) : OStream × ℕ :=
  if i.1.isEmpty then state
  else
    let (target, composedSize) :=
      if state.2 > 0 then (state.1.putString (str "&"), state.2 + 1) else state
    let encodedName := encodePercent i.1
    let encodedValue := encodePercent i.2
    (((target.putString encodedName).putString (str "=")).putString encodedValue,
      composedSize + (encodedName.length + 1 + encodedValue.length))

def compose (params : Params) (target : OStream) : OStream × ℕ :=
  params.entries.foldl composeParam (target, 0)

def composedSize (params : Params) : ℕ := (params.compose OStream.fresh).2

/-! ### The two inner loops -/

theorem parseName_append {x : Bytes} (hequals : equalsSign ∉ x) (hamp : ampersand ∉ x)
    (acc rest : Bytes) : parseName acc (x ++ rest) = parseName (acc ++ x) rest := by
  induction x generalizing acc with
  | nil => rw [List.nil_append, List.append_nil]
  | cons ch x ih =>
      rw [List.mem_cons, not_or] at hequals hamp
      rw [List.cons_append, parseName, if_neg (by simpa using Ne.symm hequals.1),
        if_neg (by simpa using Ne.symm hamp.1), ih hequals.2 hamp.2, List.append_assoc]
      rfl

theorem parseValue_append {x : Bytes} (hamp : ampersand ∉ x) (acc rest : Bytes) :
    parseValue acc (x ++ rest) = parseValue (acc ++ x) rest := by
  induction x generalizing acc with
  | nil => rw [List.nil_append, List.append_nil]
  | cons ch x ih =>
      rw [List.mem_cons, not_or] at hamp
      rw [List.cons_append, parseValue, if_neg (by simpa using Ne.symm hamp.1), ih hamp.2,
        List.append_assoc]
      rfl

/-- The name/value pair that a piece between two `'&'` stands for: the texts before
and after its first `'='`, decoded. -/
def entry (piece : Bytes) : Bytes × Bytes :=
  (decodePercent (cut equalsSign piece).1, decodePercent (cut equalsSign piece).2)

inductive Ends : Bytes → Bytes → Prop
  | done : Ends [] []
  | separator (rest : Bytes) : Ends (ampersand :: rest) rest

/-- One iteration consumes one piece and its `'&'`, whatever the piece contains. -/
theorem parseParam_append {x t rest : Bytes} (hamp : ampersand ∉ x) (ht : Ends t rest) :
    parseParam (x ++ t) = (entry x, rest) := by
  have hvalue : ∀ y, ampersand ∉ y → parseValue [] (y ++ t) = (y, rest) := by
    intro y hy
    rw [parseValue_append hy]
    cases ht <;> rfl
  rcases not_mem_or_exists_first equalsSign x with hequals | ⟨name, value, hname, rfl⟩
  · -- the name loop leaves the `'&'`, so that the value is empty
    have hparse : parseName [] (x ++ t) = (x, t) := by
      rw [parseName_append hequals hamp]
      cases ht <;> rfl
    have hempty := hvalue [] (by simp)
    rw [List.nil_append] at hempty
    simp only [parseParam, hparse, hempty, entry, cut_of_not_mem hequals]
  · simp only [List.mem_append, List.mem_cons, not_or] at hamp
    have hparse : parseName [] (name ++ equalsSign :: value ++ t) = (name, value ++ t) := by
      rw [List.append_assoc, parseName_append hname hamp.1]
      rfl
    simp only [parseParam, hparse, hvalue value hamp.2.2, entry, cut_append_cons hname]

example : parseParam (str "a&=b&") = ((str "a", []), str "=b&") := by decide

/-- An iteration on what is left to parse adds the entry of its first field, goes on
with the other fields, and consumes at least one character. -/
theorem parseParam_spec {s : Bytes} (h : s ≠ []) :
    ∃ used piece, used ≠ [] ∧ s = used ++ (parseParam s).2 ∧ (parseParam s).1 = entry piece ∧
      fields ampersand s = piece :: fields ampersand (parseParam s).2 := by
  rcases not_mem_or_exists_first ampersand s with hamp | ⟨piece, rest, hamp, rfl⟩
  · have hparse := parseParam_append hamp .done
    rw [List.append_nil] at hparse
    rw [hparse, fields_of_not_mem hamp h, fields_nil]
    exact ⟨s, s, h, (List.append_nil s).symm, rfl, rfl⟩
  · rw [parseParam_append hamp (.separator rest), fields_append_cons hamp]
    exact ⟨piece ++ [ampersand], piece, by simp, by simp, rfl, rfl⟩

theorem parseParam_length_lt {s : Bytes} (h : s ≠ []) : (parseParam s).2.length < s.length := by
  obtain ⟨used, -, hused, hs, -⟩ := parseParam_spec h
  have hlength := congrArg List.length hs
  rw [List.length_append] at hlength
  have hpos := List.length_pos_iff.mpr hused
  omega

/-! ### The outer loop -/

def parse (params : Params) (s : Bytes) : Params :=
  if _ : s = [] then params
  else parse (params.insert (parseParam s).1) (parseParam s).2
termination_by s.length
decreasing_by exact parseParam_length_lt ‹_›

def ofString (s : Bytes) : Params := parse ∅ s

def ofUri (uri : Uri) : Params := parse ∅ uri.query

theorem parse_eq_insertAll (params : Params) (s : Bytes) :
    parse params s = params.insertAll ((fields ampersand s).map entry) := by
  induction params, s using parse.induct with
  | case1 params =>
      rw [parse, dif_pos rfl, fields_nil]
      rfl
  | case2 params s h ih =>
      obtain ⟨-, piece, -, -, hentry, hfields⟩ := parseParam_spec h
      rw [parse, dif_neg h, ih, hfields, List.map_cons, Multimap.insertAll_cons, hentry]

/-- A string stands for its fields: `parse` splits it at every `'&'`, drops the last
piece when it is empty, and adds for every other piece, in order, the decoded texts
before and after its first `'='`. Every iteration on a string that is not parsed to
its end consumes at least one character. -/
theorem ofString_eq_insertAll (s : Bytes) :
    ofString s = (∅ : Params).insertAll ((fields ampersand s).map entry) ∧
      (ofString s).size = (fields ampersand s).length ∧
      ∀ params left, left ≠ [] → ∃ used, used ≠ [] ∧ left = used ++ (parseParam left).2 ∧
        parse params left = parse (params.insert (parseParam left).1) (parseParam left).2 := by
  refine ⟨parse_eq_insertAll ∅ s, ?_, fun params left h => ?_⟩
  · rw [ofString, parse_eq_insertAll, Multimap.size_insertAll, Multimap.size_empty,
      List.length_map, Nat.zero_add]
  · obtain ⟨used, -, hused, hleft, -⟩ := parseParam_spec h
    exact ⟨used, hused, hleft, by rw [parse, dif_neg h]⟩

end Params

end Httpxx
