import Httpxx.Library.Split
import Httpxx.PercentEncoding

/-!
The URI of `include/httpxx/uri.h` and `src/uri.cpp`: a path and a query, parted by
the first question mark.
-/

namespace Httpxx

open Library

structure Uri where
  encodedPath : Bytes
  path : Bytes
  query : Bytes
  deriving DecidableEq, Repr

namespace Uri

def ofString (s : Bytes) : Uri :=
  let (encodedPath, query) :=
    match s.findIdx? (· == questionMark) with
    | none => (s, [])
    | some questionMarkPos => (s.take questionMarkPos, s.drop (questionMarkPos + 1))
  { encodedPath, path := decodePercent encodedPath, query }

def compose (uri : Uri) (target : OStream) : OStream × ℕ :=
  let composedSize := uri.encodedPath.length
  let target := target.putString uri.encodedPath
  if !uri.query.isEmpty then
    ((target.putString (str "?")).putString uri.query, composedSize + (uri.query.length + 1))
  else (target, composedSize)

def composedSize (uri : Uri) : ℕ :=
  uri.encodedPath.length + if uri.query.isEmpty then 0 else 1 + uri.query.length

theorem questionMarkPos_of_not_mem {s : Bytes} (h : questionMark ∉ s) :
    s.findIdx? (· == questionMark) = none :=
  List.findIdx?_eq_none_iff.mpr fun _ hch => beq_eq_false_iff_ne.mpr fun heq => h (heq ▸ hch)

theorem ofString_of_not_mem {s : Bytes} (h : questionMark ∉ s) :
    ofString s = ⟨s, decodePercent s, []⟩ := by
  simp [ofString, questionMarkPos_of_not_mem h]

/-- What follows the first question mark is the query. -/
theorem ofString_append {path : Bytes} (h : questionMark ∉ path) (query : Bytes) :
    ofString (path ++ questionMark :: query) = ⟨path, decodePercent path, query⟩ := by
  have hpos : (path ++ questionMark :: query).findIdx? (· == questionMark) =
      some path.length := by
    rw [List.findIdx?_append, questionMarkPos_of_not_mem h, List.findIdx?_cons]
    simp
  simp [ofString, hpos]

/-- The URI is cut at its first question mark. -/
theorem ofString_eq (s : Bytes) :
    ofString s = ⟨(cut questionMark s).1, decodePercent (cut questionMark s).1,
      (cut questionMark s).2⟩ := by
  rcases not_mem_or_exists_first questionMark s with h | ⟨path, query, h, rfl⟩
  · rw [ofString_of_not_mem h, cut_of_not_mem h]
  · rw [ofString_append h, cut_append_cons h]

end Uri

end Httpxx
