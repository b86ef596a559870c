import Httpxx.Params

/-!
Parameters survive composition. `compose` writes the encoded parameters that have
a name, joined by `'&'`; no encoded text contains a separator, so that the fields of
the output are these texts again, and every text is decoded to its parameter.
-/

namespace Httpxx

open Library

namespace Params

/-- The parameters that have a name. -/
def named (params : Params) : Params := params.filter fun i => !i.1.isEmpty

def composed (params : Params) : Bytes := (params.compose OStream.fresh).1.contents

def encodedParam (i : Bytes × Bytes) : Bytes :=
  encodePercent i.1 ++ equalsSign :: encodePercent i.2

def encodedParams (is : List (Bytes × Bytes)) : List Bytes :=
  (is.filter fun i => !i.1.isEmpty).map encodedParam

theorem encodedParams_skip {i : Bytes × Bytes} (h : i.1.isEmpty = true)
    (is : List (Bytes × Bytes)) : encodedParams (i :: is) = encodedParams is := by
  rw [encodedParams, List.filter_cons_of_neg (by simp [h])]
  rfl

theorem encodedParams_cons {i : Bytes × Bytes} (h : i.1.isEmpty = false)
    (is : List (Bytes × Bytes)) :
    encodedParams (i :: is) = encodedParam i :: encodedParams is := by
  rw [encodedParams, List.filter_cons_of_pos (by simp [h])]
  rfl

theorem ampersand_not_mem_encodedParam (i : Bytes × Bytes) : ampersand ∉ encodedParam i := by
  simp only [encodedParam, List.mem_append, List.mem_cons, not_or]
  exact ⟨not_mem_encodePercent rfl i.1, by decide, not_mem_encodePercent rfl i.2⟩

theorem encodedParam_ne_nil (i : Bytes × Bytes) : encodedParam i ≠ [] := by
  simp [encodedParam]

/-- The entry of a composed parameter is that parameter. -/
theorem entry_encodedParam (i : Bytes × Bytes) : entry (encodedParam i) = i := by
  rw [entry, encodedParam, cut_append_cons (not_mem_encodePercent rfl i.1),
    decodePercent_encodePercent, decodePercent_encodePercent]

/-! ### What `compose` writes -/

variable {target : OStream}

theorem putString_param (hwidth : target.width = 0) (i : Bytes × Bytes) :
    ((target.putString (encodePercent i.1)).putString (str "=")).putString
      (encodePercent i.2) = target.append (encodedParam i) := by
  have hwritten : ∀ t, (target.append t).width = 0 := fun _ => hwidth
  rw [OStream.putString_of_width hwidth, OStream.putString_of_width (hwritten _),
    OStream.append_append, OStream.putString_of_width (hwritten _), OStream.append_append,
    List.append_assoc]
  rfl

theorem length_encodedParam (i : Bytes × Bytes) :
    (encodedParam i).length = (encodePercent i.1).length + 1 + (encodePercent i.2).length := by
  rw [encodedParam, List.length_append, List.length_cons]
  omega

theorem composeParam_first {i : Bytes × Bytes} (h : i.1.isEmpty = false)
    (hwidth : target.width = 0) :
    composeParam (target, 0) i = (target.append (encodedParam i), (encodedParam i).length) := by
  have hzero : ¬ 0 > 0 := Nat.lt_irrefl 0
  simp only [composeParam, h, Bool.false_eq_true, if_false, hzero, putString_param hwidth,
    length_encodedParam, Nat.zero_add]

theorem composeParam_next {i : Bytes × Bytes} (h : i.1.isEmpty = false)
    (hwidth : target.width = 0) {size : ℕ} (hsize : 0 < size) :
    composeParam (target, size) i =
      (target.append (ampersand :: encodedParam i),
        size + (ampersand :: encodedParam i).length) := by
  have hput : target.putString (str "&") = target.append [ampersand] :=
    OStream.putString_of_width hwidth _
  have hwidth' : (target.append [ampersand]).width = 0 := hwidth
  have hlength : size + 1 + (encodedParam i).length =
      size + (ampersand :: encodedParam i).length := by
    rw [List.length_cons]
    omega
  simp only [composeParam, h, Bool.false_eq_true, if_false, gt_iff_lt, hsize, if_true, hput,
    putString_param hwidth', ← length_encodedParam, hlength, OStream.append_append]
  rfl

/-- After the first parameter the loop writes the others, each behind an `'&'`, and
adds their lengths to the size. -/
theorem foldl_composeParam_next (is : List (Bytes × Bytes)) (hwidth : target.width = 0)
    {size : ℕ} (hsize : 0 < size) :
    is.foldl composeParam (target, size) =
      (target.append ((encodedParams is).flatMap (ampersand :: ·)),
        size + ((encodedParams is).flatMap (ampersand :: ·)).length) := by
  induction is generalizing target size with
  | nil => simp [encodedParams, OStream.append]
  | cons i is ih =>
      rw [List.foldl_cons]
      cases h : i.1.isEmpty with
      | true => rw [composeParam, if_pos h, ih hwidth hsize, encodedParams_skip h]
      | false =>
          have hwritten : (target.append (ampersand :: encodedParam i)).width = 0 := hwidth
          rw [composeParam_next h hwidth hsize, ih hwritten (by omega), OStream.append_append,
            encodedParams_cons h, List.flatMap_cons, List.length_append, Nat.add_assoc]

theorem foldl_composeParam (is : List (Bytes × Bytes)) (hwidth : target.width = 0) :
    is.foldl composeParam (target, 0) =
      (target.append ([ampersand].intercalate (encodedParams is)),
        ([ampersand].intercalate (encodedParams is)).length) := by
  induction is with
  | nil => simp [encodedParams, OStream.append]
  | cons i is ih =>
      rw [List.foldl_cons]
      cases h : i.1.isEmpty with
      | true => rw [composeParam, if_pos h, ih, encodedParams_skip h]
      | false =>
          have hpos : 0 < (encodedParam i).length :=
            List.length_pos_iff.mpr (encodedParam_ne_nil i)
          have hwritten : (target.append (encodedParam i)).width = 0 := hwidth
          rw [composeParam_first h hwidth, foldl_composeParam_next is hwritten hpos,
            OStream.append_append, encodedParams_cons h, intercalate_cons_eq_flatMap,
            List.length_append]

theorem composed_eq (params : Params) :
    params.composed = [ampersand].intercalate (encodedParams params.entries) :=
  congrArg (·.1.contents) (foldl_composeParam params.entries rfl)

/-- Onto any stream without a pending field width `compose` writes what it writes to
a new one, and returns its length. -/
theorem compose_eq (params : Params) (hwidth : target.width = 0) :
    params.compose target = (target.append params.composed, params.composed.length) := by
  rw [composed_eq]
  exact foldl_composeParam params.entries hwidth

theorem composedSize_eq (params : Params) : params.composedSize = params.composed.length := by
  have hfresh : OStream.fresh.width = 0 := rfl
  rw [composedSize, compose_eq params hfresh]

/-! ### Parsing it again -/

/-- Parsing what was composed gives the parameters that have a name, in their order. -/
theorem ofString_composed (params : Params) : ofString params.composed = params.named := by
  have hfields : fields ampersand params.composed = params.named.entries.map encodedParam := by
    rw [composed_eq]
    refine fields_intercalate (fun l hl => ?_) fun l hl => ?_
    · obtain ⟨i, -, rfl⟩ := List.mem_map.mp hl
      exact ampersand_not_mem_encodedParam i
    · obtain ⟨i, -, rfl⟩ := List.mem_map.mp hl
      exact encodedParam_ne_nil i
  have hentry : (params.named.entries.map encodedParam).map entry = params.named.entries := by
    rw [List.map_map]
    exact List.map_id'' entry_encodedParam _
  rw [ofString, parse_eq_insertAll, hfields, hentry, Multimap.insertAll_entries]

theorem composed_named (params : Params) : params.named.composed = params.composed := by
  have hentries : encodedParams params.named.entries = encodedParams params.entries := by
    simp [encodedParams, named]
  rw [composed_eq, composed_eq, hentries]

/-- Parameters survive composition, alone and in the query of a URI: what `compose`
writes, and counts, is parsed to the parameters that have a name. Composing what was
parsed is therefore stable. -/
theorem compose_parse (params : Params) :
    ofString params.composed = params.named ∧
      (∀ target : OStream, target.width = 0 →
        params.compose target = (target.append params.composed, params.composed.length)) ∧
      (∀ path, questionMark ∉ path →
        ofUri (Uri.ofString (path ++ questionMark :: params.composed)) = params.named) ∧
      ∀ s, (ofString (ofString s).composed).composed = (ofString s).composed := by
  refine ⟨ofString_composed params, fun target hwidth => compose_eq params hwidth,
    fun path hpath => ?_, fun s => ?_⟩
  · rw [ofUri, Uri.ofString_append hpath]
    exact ofString_composed params
  · rw [ofString_composed, composed_named]

theorem compose_parse_escaped :
    composed ((∅ : Params).insertAll [(str "a&b", str "= "), ([], str "x")]) =
        str "a%26b=%3D+" ∧
      ofUri (Uri.ofString (str "/p?a%26b=%3D+")) =
        (∅ : Params).insertAll [(str "a&b", str "= ")] := by
  have hcomposed : composed ((∅ : Params).insertAll [(str "a&b", str "= "), ([], str "x")]) =
      str "a%26b=%3D+" := by decide +kernel
  have hnamed : named ((∅ : Params).insertAll [(str "a&b", str "= "), ([], str "x")]) =
      (∅ : Params).insertAll [(str "a&b", str "= ")] := by decide +kernel
  have huri := (compose_parse ((∅ : Params).insertAll
    [(str "a&b", str "= "), ([], str "x")])).2.2.1 (str "/p") (by decide)
  rw [hnamed, hcomposed] at huri
  exact ⟨hcomposed, huri⟩

/-! ### Looking parameters up -/

/-- The parameters a string stands for, and behind them those that were added. -/
def listed (s : Bytes) (added : List (Bytes × Bytes)) : List (Bytes × Bytes) :=
  (fields ampersand s).map entry ++ added

def withAdded (s : Bytes) (added : List (Bytes × Bytes)) : Params :=
  added.foldl (fun params i => params.add i.1 i.2) (ofString s)

theorem withAdded_eq_insertAll (s : Bytes) (added : List (Bytes × Bytes)) :
    withAdded s added = (∅ : Params).insertAll (listed s added) := by
  rw [listed, Multimap.insertAll_append, ← parse_eq_insertAll]
  rfl

theorem equivalent_stringLess (a b : Bytes) : equivalent stringLess a b = decide (a = b) := by
  rw [Bool.eq_iff_iff, decide_eq_true_eq, equivalent_iff_of_lt_iff stringLess_iff]
  exact (List.map_injective_iff.mpr fun x y => UInt8.toNat_inj.mp).eq_iff

theorem equalRange_insertAll_eq (is : List (Bytes × Bytes)) (q : Bytes) :
    ((∅ : Params).insertAll is).equalRange q = is.filter fun i => decide (i.1 = q) := by
  rw [Multimap.equalRange_insertAll_empty]
  exact List.filter_congr fun i _ => equivalent_stringLess i.1 q

/-- Parameters without a name are lost on the way, and no other. -/
theorem equalRange_named (params : Params) (q : Bytes) :
    params.named.equalRange q = if q = [] then [] else params.equalRange q := by
  rw [Multimap.equalRange_eq_filter, Multimap.equalRange_eq_filter, named,
    Multimap.entries_filter, List.filter_filter]
  split
  · rename_i hq
    refine List.filter_eq_nil_iff.mpr fun i _ => ?_
    rw [equivalent_stringLess, hq]
    simp
  · rename_i hq
    refine List.filter_congr fun i _ => ?_
    rw [equivalent_stringLess]
    by_cases hi : i.1 = q
    · simp [hi, hq]
    · simp [hi]

/-- **A lookup finds the parameter that was written first.** The parameters of a string,
with any others added to them, are looked up as in the list of the fields of the string,
decoded, and the added ones behind them: byte for byte, from the front. When they are
composed and parsed again, every lookup of a name answers as before, and the empty name
is not found. -/
theorem looked_up_as_list (s : Bytes) (added : List (Bytes × Bytes)) (q : Bytes) :
    ((withAdded s added).haveName q = true ↔ ∃ i ∈ listed s added, i.1 = q) ∧
    (∀ v, (withAdded s added).haveValue q v = true ↔ (q, v) ∈ listed s added) ∧
    (withAdded s added).value q =
      (((listed s added).find? fun i => decide (i.1 = q)).map Prod.snd).getD [] ∧
    ((ofString (withAdded s added).composed).haveName q =
      (!q.isEmpty && (withAdded s added).haveName q)) ∧
    (∀ v, (ofString (withAdded s added).composed).haveValue q v =
      (!q.isEmpty && (withAdded s added).haveValue q v)) ∧
    (ofString (withAdded s added).composed).value q =
      if q = [] then [] else (withAdded s added).value q := by
  have hrange := withAdded_eq_insertAll s added ▸ equalRange_insertAll_eq (listed s added) q
  have hback := equalRange_named (withAdded s added) q
  rw [← ofString_composed] at hback
  refine ⟨?_, fun v => ?_, ?_, ?_, fun v => ?_, ?_⟩
  · rw [haveName, hrange]
    simp
  · rw [haveValue, hrange]
    simp
  · rw [value, hrange, ← List.head?_filter]
    cases (listed s added).filter fun i => decide (i.1 = q) <;> rfl
  · rw [haveName, hback, haveName]
    cases q <;> simp
  · rw [haveValue, hback, haveValue]
    cases q <;> simp
  · rw [value, hback]
    split_ifs <;> rfl

example : (withAdded (str "a=1&%61=2&=3") [(str "b", str "4")]).value (str "a") = str "1" := by
  decide +kernel

end Params

end Httpxx
