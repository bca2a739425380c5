import Abridge.Path
import Abridge.Proofs.Sorting

/-!
# The order of paths

Paths are compared step by step, a step by its kind and then by its text.  That is a lexicographic
order over linear ones, so sorting by path is sorting: what comes out is ordered, whatever order the
items came in.
-/

set_option autoImplicit false

namespace Abridge

namespace Component

/-- The text of a step that has one. -/
def text : Component → String
  | name t => t
  | _ => ""

/-- Steps are ordered by their kinds and then by their texts. -/
theorem compare_eq (a b : Component) :
    a.compare b = (Ord.compare a.rank b.rank).then (Ord.compare a.text b.text) := by
  cases a <;> cases b <;> rfl

instance : Std.TransCmp Component.compare := by
  have h : Component.compare = compareLex (compareOn rank) (compareOn text) := by
    funext a b
    exact compare_eq a b
  rw [h]
  infer_instance

end Component

namespace Path

theorem compareSteps_eq : ∀ as bs : List Component,
    compareSteps as bs = List.compareLex Component.compare as bs
  | [], [] => rfl
  | [], _ :: _ => rfl
  | _ :: _, [] => rfl
  | a :: as, b :: bs => by
    rw [compareSteps, compareSteps_eq as bs, List.compareLex]
    cases a.compare b <;> rfl

theorem compare_eq (p q : Path) :
    p.compare q = List.compareLex Component.compare p.components q.components :=
  compareSteps_eq _ _

instance : Std.TransCmp Path.compare where
  eq_swap {p q} := by
    rw [compare_eq, compare_eq]
    exact Std.OrientedCmp.eq_swap
  isLE_trans {p q r} := by
    rw [compare_eq, compare_eq, compare_eq]
    exact Std.TransCmp.isLE_trans

/-- **Sorting by path sorts.** -/
theorem pairwise_sortBy {α : Type} (path : α → Path) (items : List α) :
    (sortBy path items).Pairwise fun a b => (path a).compare (path b) ≠ .gt :=
  pairwise_mergeSort_key Path.compare path items

end Path

end Abridge
