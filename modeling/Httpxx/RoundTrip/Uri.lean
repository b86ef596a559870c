import Httpxx.Uri

/-!
A URI survives composition. `compose` writes the raw path and, when there is one, the
query behind a question mark. An empty query counts as none, so that a question mark
at the very end, if it is the first, is the only byte that can be lost.
-/

namespace Httpxx

open Library

namespace Uri

def composed (uri : Uri) : Bytes := (uri.compose OStream.fresh).1.contents

/-- The first question mark is the last byte. -/
def HasEmptyQuery (s : Bytes) : Prop :=
  ∃ path, questionMark ∉ path ∧ s = path ++ [questionMark]

/-! ### What `compose` writes -/

variable {target : OStream}

theorem compose_of_query_empty {uri : Uri} (h : uri.query = []) (hwidth : target.width = 0) :
    uri.compose target = (target.append uri.encodedPath, uri.encodedPath.length) := by
  rw [compose, h, OStream.putString_of_width hwidth]
  rfl

theorem compose_of_query_ne_nil {uri : Uri} (h : uri.query ≠ []) (hwidth : target.width = 0) :
    uri.compose target =
      (target.append (uri.encodedPath ++ questionMark :: uri.query),
        (uri.encodedPath ++ questionMark :: uri.query).length) := by
  have hquery : (!uri.query.isEmpty) = true := by simp [h]
  have hwritten : ∀ t, (target.append t).width = 0 := fun _ => hwidth
  have hbytes : uri.encodedPath ++ str "?" ++ uri.query =
      uri.encodedPath ++ questionMark :: uri.query := by
    rw [List.append_assoc]
    rfl
  rw [compose, if_pos hquery, OStream.putString_of_width hwidth,
    OStream.putString_of_width (hwritten _), OStream.append_append,
    OStream.putString_of_width (hwritten _), OStream.append_append, hbytes,
    List.length_append, List.length_cons]

theorem composed_of_query_empty {uri : Uri} (h : uri.query = []) :
    uri.composed = uri.encodedPath :=
  congrArg (·.1.contents) (compose_of_query_empty h rfl)

theorem composed_of_query_ne_nil {uri : Uri} (h : uri.query ≠ []) :
    uri.composed = uri.encodedPath ++ questionMark :: uri.query :=
  congrArg (·.1.contents) (compose_of_query_ne_nil h rfl)

/-- Onto any stream without a pending field width `compose` writes what it writes to
a new one, and returns its length. -/
theorem compose_eq (uri : Uri) (hwidth : target.width = 0) :
    uri.compose target = (target.append uri.composed, uri.composed.length) := by
  by_cases h : uri.query = []
  · rw [composed_of_query_empty h, compose_of_query_empty h hwidth]
  · rw [composed_of_query_ne_nil h, compose_of_query_ne_nil h hwidth]

theorem composedSize_eq (uri : Uri) : uri.composedSize = uri.composed.length := by
  by_cases h : uri.query = []
  · rw [composed_of_query_empty h, composedSize, h]
    rfl
  · have hquery : ¬ uri.query.isEmpty = true := by simp [h]
    rw [composed_of_query_ne_nil h, composedSize, if_neg hquery, List.length_append,
      List.length_cons]
    omega

/-! ### Parsing it again -/

theorem composed_ofString {s : Bytes} (h : ¬ HasEmptyQuery s) : (ofString s).composed = s := by
  rcases not_mem_or_exists_first questionMark s with hmark | ⟨path, query, hpath, rfl⟩
  · rw [ofString_of_not_mem hmark, composed_of_query_empty rfl]
  · have hquery : query ≠ [] := by
      rintro rfl
      exact h ⟨path, hpath, rfl⟩
    rw [ofString_append hpath, composed_of_query_ne_nil hquery]

theorem composed_ofString_emptyQuery {path : Bytes} (h : questionMark ∉ path) :
    (ofString (path ++ [questionMark])).composed = path := by
  rw [ofString_append h, composed_of_query_empty rfl]

theorem ofString_composed (s : Bytes) : ofString (ofString s).composed = ofString s := by
  by_cases h : HasEmptyQuery s
  · obtain ⟨path, hpath, rfl⟩ := h
    rw [composed_ofString_emptyQuery hpath, ofString_of_not_mem hpath, ofString_append hpath]
  · rw [composed_ofString h]

/-- **A URI survives composition.** What `compose` writes, and both sizes count, is
the text that was parsed, less the question mark of an empty query; it is parsed to the
same URI. -/
theorem ofString_compose (s : Bytes) :
    (∀ target : OStream, target.width = 0 →
        (ofString s).compose target =
          (target.append (ofString s).composed, (ofString s).composed.length)) ∧
      (ofString s).composedSize = (ofString s).composed.length ∧
      (¬ HasEmptyQuery s → (ofString s).composed = s) ∧
      (∀ path, questionMark ∉ path → s = path ++ [questionMark] →
        (ofString s).composed = path) ∧
      ofString (ofString s).composed = ofString s := by
  refine ⟨fun target hwidth => compose_eq _ hwidth, composedSize_eq _, composed_ofString,
    fun path hpath heq => ?_, ofString_composed s⟩
  rw [heq]
  exact composed_ofString_emptyQuery hpath

theorem ofString_compose_slash :
    (ofString (str "/?")).composed = str "/" ∧ (ofString (str "/?a?")).composed = str "/?a?" ∧
      (ofString (str "/?a?")).compose OStream.fresh =
        (OStream.fresh.append (str "/?a?"), 4) := by
  have hquery : ¬ HasEmptyQuery (str "/?a?") := by
    rintro ⟨path, hpath, heq⟩
    have hpath' : path = str "/?a" := (List.append_inj_left' heq rfl).symm
    rw [hpath'] at hpath
    exact hpath (by decide)
  have hslash := (ofString_compose (str "/?")).2.2.2.1 (str "/") (by decide) rfl
  have hsame := (ofString_compose (str "/?a?")).2.2.1 hquery
  have hcompose := (ofString_compose (str "/?a?")).1 OStream.fresh rfl
  rw [hsame] at hcompose
  exact ⟨hslash, hsame, hcompose⟩

/-- The question mark of an empty query is not written. -/
theorem empty_query_lost :
    ((ofString (str "/?")).compose OStream.fresh).1.contents ≠ str "/?" ∧
      (ofString (str "/?")).composedSize ≠ (str "/?").length := by
  decide

end Uri

end Httpxx
