import Mathlib.Order.Compare

/-!
# Sorting by a comparison

Everything that is sorted here is sorted by some key under a comparison, and items whose keys compare as
equal keep their order.  `pairwise_mergeSort_key` is the first half of that and `filter_mergeSort_key` the
second one.
-/

set_option autoImplicit false

namespace Abridge

variable {α κ : Type} (compareKey : κ → κ → Ordering) [Std.TransCmp compareKey] (key : α → κ)

theorem ne_gt_trans (a b c : κ) (hab : (compareKey a b != .gt) = true) (hbc : (compareKey b c != .gt) = true) :
    (compareKey a c != .gt) = true := by
  have hle : ∀ o : Ordering, (o != .gt) = o.isLE := by decide
  rw [hle] at hab hbc ⊢
  exact Std.TransCmp.isLE_trans hab hbc

theorem ne_gt_total (a b : κ) : (compareKey a b != .gt || compareKey b a != .gt) = true := by
  have hswap : compareKey a b = (compareKey b a).swap := Std.OrientedCmp.eq_swap
  rw [hswap]
  cases compareKey b a <;> rfl

/-- **Sorting by a key sorts.** -/
theorem pairwise_mergeSort_key (items : List α) :
    (items.mergeSort fun a b => compareKey (key a) (key b) != .gt).Pairwise
      fun a b => compareKey (key a) (key b) ≠ .gt := by
  refine (List.pairwise_mergeSort (fun a b c => ne_gt_trans compareKey (key a) (key b) (key c))
    (fun a b => ne_gt_total compareKey (key a) (key b)) items).imp fun h => ?_
  simpa using h

/-- **Items with one key keep their order.** -/
theorem filter_mergeSort_key [DecidableEq κ] (k : κ) (items : List α) :
    (items.mergeSort fun a b => compareKey (key a) (key b) != .gt).filter (fun a => key a == k) =
      items.filter fun a => key a == k := by
  have hpairwise : (items.filter fun a => key a == k).Pairwise
      fun a b => (compareKey (key a) (key b) != .gt) = true := by
    refine List.pairwise_of_forall_mem_list fun a ha b hb => ?_
    have hone : key a = key b := by
      rw [eq_of_beq (List.mem_filter.1 ha).2, eq_of_beq (List.mem_filter.1 hb).2]
    have hself : compareKey (key b) (key b) = .eq := Std.ReflCmp.compare_self
    rw [hone, hself]
    rfl
  have hsub := (List.sublist_mergeSort (fun a b c => ne_gt_trans compareKey (key a) (key b) (key c))
    (fun a b => ne_gt_total compareKey (key a) (key b)) hpairwise List.filter_sublist).filter
      fun a => key a == k
  rw [List.filter_filter] at hsub
  have hlength := ((List.mergeSort_perm items fun a b => compareKey (key a) (key b) != .gt).filter
    fun a => key a == k).length_eq
  simp only [Bool.and_self] at hsub
  exact (hsub.eq_of_length hlength.symm).symm

end Abridge
