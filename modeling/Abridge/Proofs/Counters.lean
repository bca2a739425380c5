import Abridge.Proofs.ShortNames
import Abridge.Proofs.Table
import Mathlib.Order.Bounds.Basic

/-!
# Counting up

The allocator starts its search for a name where the search before with the same lead ended.  Nothing is lost
by that: all names below a counter are ruled out (`ShortNames.Spent`), be it that they are in use, or protected,
or were given out, with this lead or with another one that makes the same name.  What is ruled out stays ruled
out.  So a search from the counter ends where a search from zero ends, at the least counter whose name is free.

The search of the allocator has a bound.  The search that is meant has none: it goes on until a name is free
(`ShortNames.Ends`).  It always ends, and the bounded search with it.

## What is here

* `ShortNames.Ends`: how a search without a bound ends.
* `ShortNames.Spent`: nothing below a counter is free.
* `ShortNames.after`, `ShortNames.given`: the allocator after some calls, and the names that these gave out.
* `ShortNames.next_least`: what a call gives out, whatever calls came before it.
-/

set_option autoImplicit false

namespace Abridge

namespace ShortNames

/-! ## The search without a bound -/

/-- A search from a counter on ends at another: it passes over names that are not free and stops at the
first that is. -/
inductive Ends (s : ShortNames) (lead : String) : Nat → Nat → Prop
  | here {n : Nat} : s.isFree (candidate lead n) = true → Ends s lead n n
  | pass {n r : Nat} : s.isFree (candidate lead n) = false → Ends s lead (n + 1) r → Ends s lead n r

section

variable {s : ShortNames} {lead : String} {n r : Nat}

theorem Ends.isFree (h : s.Ends lead n r) : s.isFree (candidate lead r) = true := by
  induction h with
  | here hfree => exact hfree
  | pass _ _ ih => exact ih

theorem Ends.le (h : s.Ends lead n r) : n ≤ r := by
  induction h with
  | here => exact Nat.le_refl _
  | pass _ _ ih => omega

/-- A search that starts below ends at the same counter if all names on the way are ruled out. -/
theorem Ends.of_le {m : Nat} (h : s.Ends lead n r) (hle : m ≤ n)
    (hspent : ∀ k, m ≤ k → k < n → s.isFree (candidate lead k) = false) : s.Ends lead m r := by
  induction hle using Nat.decreasingInduction with
  | self => exact h
  | of_succ k hk ih =>
    exact .pass (hspent k (Nat.le_refl k) hk) (ih fun j hj => hspent j (Nat.le_of_succ_le hj))

/-- **The search ends at the least counter whose name is free.** -/
theorem Ends.isLeast (h : s.Ends lead n r) :
    IsLeast {k | n ≤ k ∧ s.isFree (candidate lead k) = true} r := by
  refine ⟨⟨h.le, h.isFree⟩, ?_⟩
  rintro k ⟨hk, hfree⟩
  induction h with
  | here => exact hk
  | @pass n r hpassed _ ih =>
    have hne : n ≠ k := by
      rintro rfl
      rw [hfree] at hpassed
      cases hpassed
    exact ih (by omega)

end

/-- A bounded search that has a free name within its bound is the search without one. -/
theorem ends_search (s : ShortNames) (lead : String) :
    ∀ (fuel n i : Nat), i < fuel → s.isFree (candidate lead (n + i)) = true →
      s.Ends lead n (s.search lead fuel n)
  | 0, _, _, hi, _ => absurd hi (Nat.not_lt_zero _)
  | fuel + 1, n, i, hi, hfree => by
    rw [search]
    split
    · exact .here (by assumption)
    · rename_i hn
      rw [Bool.not_eq_true] at hn
      cases i with
      | zero =>
        rw [Nat.add_zero, hn] at hfree
        cases hfree
      | succ i =>
        rw [show n + (i + 1) = n + 1 + i by omega] at hfree
        exact .pass hn (ends_search s lead fuel (n + 1) i (by omega) hfree)

/-- **The search ends**, and the bound of the allocator is never what ends it. -/
theorem ends_next (s : ShortNames) (lead : String) :
    s.Ends lead (s.counter lead) (s.search lead s.bound (s.counter lead)) := by
  obtain ⟨i, hi, hfree⟩ := s.exists_isFree lead (s.counter lead)
  exact s.ends_search lead _ _ i hi hfree

/-! ## What is behind a counter -/

/-- All names below the counter of a lead are ruled out, for every lead. -/
def Spent (s : ShortNames) : Prop :=
  ∀ (lead : String) (n : Nat), n < s.counter lead → s.isFree (candidate lead n) = false

theorem counter_next (s : ShortNames) (lead other : String) :
    (s.next lead).2.counter other =
      if lead = other then s.search lead s.bound (s.counter lead) + 1 else s.counter other := by
  change ((s.counters.put lead (s.search lead s.bound (s.counter lead) + 1)).get? other).getD 0 = _
  rw [Table.get?_put]
  by_cases heq : lead = other
  · simp [heq]
  · simp [heq, counter]

/-- What is ruled out stays ruled out, and so is the name that was given out. -/
theorem isFree_next_iff (s : ShortNames) (lead name : String) :
    (s.next lead).2.isFree name = true ↔ name ≠ (s.next lead).1 ∧ s.isFree name = true := by
  rw [isFree_iff, isFree_iff, next_taken, next_inUse, List.mem_cons, not_or, and_assoc]

/-- **A call leaves nothing free behind a counter**: its search passed over names that are ruled out, and gave
out the one at which it stopped. -/
theorem Spent.next {s : ShortNames} (h : s.Spent) (lead : String) : (s.next lead).2.Spent := by
  intro other n hn
  rw [Bool.eq_false_iff, Ne, isFree_next_iff]
  rintro ⟨hne, hfree⟩
  rw [counter_next] at hn
  split at hn
  · rename_i heq
    subst heq
    have hleast := (s.ends_next lead).isLeast
    by_cases hbefore : n < s.counter lead
    · rw [h lead n hbefore] at hfree
      cases hfree
    · have hle := hleast.2 ⟨Nat.le_of_not_lt hbefore, hfree⟩
      have hstop : n = s.search lead s.bound (s.counter lead) := by omega
      exact hne (by rw [hstop]; rfl)
  · rw [h other n hn] at hfree
    cases hfree

/-! ## Calls one after the other -/

/-- The allocator after calls with some leads. -/
def after (s : ShortNames) : List String → ShortNames
  | [] => s
  | lead :: leads => after (s.next lead).2 leads

/-- The names that calls with some leads give out, in order. -/
def given (s : ShortNames) : List String → List String
  | [] => []
  | lead :: leads => (s.next lead).1 :: given (s.next lead).2 leads

theorem Spent.after {leads : List String} : ∀ {s : ShortNames}, s.Spent → (s.after leads).Spent := by
  induction leads with
  | nil => exact id
  | cons lead leads ih => exact fun h => ih (h.next lead)

@[simp] theorem inUse_after (leads : List String) :
    ∀ s : ShortNames, (s.after leads).inUse = s.inUse := by
  induction leads with
  | nil => exact fun _ => rfl
  | cons lead leads ih => exact fun s => ih (s.next lead).2

/-- The allocator remembers what it has given out. -/
theorem mem_taken_after (name : String) (leads : List String) :
    ∀ s : ShortNames, name ∈ (s.after leads).taken ↔ name ∈ s.given leads ∨ name ∈ s.taken := by
  induction leads with
  | nil => simp [after, given]
  | cons lead leads ih =>
    intro s
    rw [after, ih, next_taken, given, List.mem_cons, List.mem_cons, or_left_comm, or_assoc]

/-- A name is free after some calls if no module spells it, nothing protects it, and no call gave it out. -/
theorem isFree_after_iff (inUse leads : List String) (name : String) :
    (({ inUse } : ShortNames).after leads).isFree name = true ↔
      name ∉ inUse ∧ isProtectedName name = false ∧ name ∉ ({ inUse } : ShortNames).given leads := by
  rw [isFree_iff, mem_taken_after, inUse_after]
  simp only [List.not_mem_nil, or_false]
  tauto

/-- **A call gives out the least free name of its lead**, whatever calls came before it and with whatever
leads.  The search for it ends, and ends where a search from zero does: at the least counter whose name is
not in use, not protected, and was not given out by any call before. -/
theorem next_least (inUse leads : List String) (lead : String) :
    ∃ n, (({ inUse } : ShortNames).after leads).Ends lead
        ((({ inUse } : ShortNames).after leads).counter lead) n ∧
      (({ inUse } : ShortNames).after leads).Ends lead 0 n ∧
      ((({ inUse } : ShortNames).after leads).next lead).1 = lead ++ toString n ∧
      IsLeast {k : Nat | lead ++ toString k ∉ inUse ∧ isProtectedName (lead ++ toString k) = false ∧
        lead ++ toString k ∉ ({ inUse } : ShortNames).given leads} n := by
  have hspent : (({ inUse } : ShortNames).after leads).Spent :=
    Spent.after fun _ n hn => absurd hn (Nat.not_lt_zero n)
  generalize hs : ({ inUse } : ShortNames).after leads = s at hspent
  have hends := s.ends_next lead
  have hzero : s.Ends lead 0 (s.search lead s.bound (s.counter lead)) :=
    hends.of_le (Nat.zero_le _) fun k _ hk => hspent lead k hk
  refine ⟨_, hends, hzero, rfl, ?_⟩
  have hfree : {k : Nat | 0 ≤ k ∧ s.isFree (candidate lead k) = true} =
      {k : Nat | lead ++ toString k ∉ inUse ∧ isProtectedName (lead ++ toString k) = false ∧
        lead ++ toString k ∉ ({ inUse } : ShortNames).given leads} := by
    ext k
    rw [Set.mem_ofPred_eq, Set.mem_ofPred_eq, ← hs, isFree_after_iff]
    simp [candidate]
  rw [← hfree]
  exact hzero.isLeast

example : ({ inUse := ["v0", "v1"] } : ShortNames).given ["v", "v", "c"] = ["v2", "v3", "c0"] := by
  decide +kernel

end ShortNames

end Abridge
