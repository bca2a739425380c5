import Abridge.Plan.Hoist
import Abridge.Proofs.Sorting
import Abridge.Proofs.Table

/-!
# The order of keys

Keys are compared by the text before their counter, then by the counter, then as they are.  That is a
lexicographic order over linear ones, and it tells all keys apart.  So sorting by key brings equal keys
together and leaves their entries in order, and dropping all but the first of each run leaves one entry for
each key, the one that was given first.

## What is here

* `compareKeys_eq`: the order of keys is lexicographic.
* `pairwise_sortByKey`, `get?_sortByKey`: what sorting does.
* `pairwise_dropRepeated`, `get?_dropRepeated`: what dropping repetitions does.
* `Collates`: the entries in the order of their keys, each key once; `collates_sortByKey` says how they are had.
-/

set_option autoImplicit false

namespace Abridge

/-! ## Comparing -/

theorem compareText_eq (a b : String) : compareText a b = compare a b := rfl

theorem compareCounters_eq (m n : Option Nat) : compareCounters m n = compare m n := by
  cases m <;> cases n <;> rfl

/-- The parts of a key in the order in which they count. -/
theorem compareKeys_eq : compareKeys = compareLex (compareLex (compareOn fun key => (splitKey key).1)
    (compareOn fun key => (splitKey key).2)) compare := by
  funext a b
  simp only [compareKeys, compareLex, compareOn, compareText_eq, compareCounters_eq]

instance : Std.TransCmp compareKeys := by
  rw [compareKeys_eq]
  infer_instance

/-- Different keys are told apart. -/
instance : Std.LawfulEqCmp compareKeys where
  eq_of_compare {a b} h := by
    rw [compareKeys_eq, compareLex, Ordering.then_eq_eq] at h
    exact Std.LawfulEqCmp.eq_of_compare h.2

/-! ## Sorting -/

theorem pairwise_sortByKey {α : Type} (key : α → String) (items : List α) :
    (sortByKey key items).Pairwise fun a b => compareKeys (key a) (key b) ≠ .gt :=
  pairwise_mergeSort_key compareKeys key items

/-- Sorting leaves the first entry of every key first. -/
theorem get?_sortByKey {α : Type} (entries : List (String × α)) (key : String) :
    Table.get? (sortByKey Prod.fst entries) key = Table.get? entries key :=
  Table.get?_eq_of_filter_eq (filter_mergeSort_key compareKeys Prod.fst key entries)

/-! ## Dropping repetitions -/

section Drop

variable {α : Type} {key : String}

theorem get?_dropAfter : ∀ {last : String} (entries : List (String × α)), key ≠ last →
    Table.get? (dropAfter last entries) key = Table.get? entries key
  | _, [], _ => rfl
  | last, e :: entries, h => by
    rw [dropAfter, Table.get?_cons]
    split
    · rename_i hlast
      have hne : ¬ (e.1 == key) = true := fun hkey => h (by rw [← eq_of_beq hkey, eq_of_beq hlast])
      rw [if_neg hne, get?_dropAfter entries h]
    · rw [Table.get?_cons]
      split
      · rfl
      · rename_i hne
        exact get?_dropAfter entries fun hkey => hne (by simp [hkey])

/-- The first entry of every key stays. -/
theorem get?_dropRepeated (entries : List (String × α)) (key : String) :
    Table.get? (dropRepeated entries) key = Table.get? entries key := by
  cases entries with
  | nil => rfl
  | cons e entries =>
    rw [dropRepeated, Table.get?_cons, Table.get?_cons]
    split
    · rfl
    · rename_i hne
      exact get?_dropAfter entries fun hkey => hne (by simp [hkey])

/-- Of sorted entries those that stay come behind the key before them, and behind each other. -/
theorem pairwise_dropAfter : ∀ {last : String} {entries : List (String × α)},
    (∀ e ∈ entries, compareKeys last e.1 ≠ .gt) →
      (entries.Pairwise fun a b => compareKeys a.1 b.1 ≠ .gt) →
        (∀ e ∈ dropAfter last entries, compareKeys last e.1 = .lt) ∧
          (dropAfter last entries).Pairwise fun a b => compareKeys a.1 b.1 = .lt
  | _, [], _, _ => ⟨fun e he => absurd he List.not_mem_nil, .nil⟩
  | last, e :: entries, hlast, hsorted => by
    obtain ⟨hhead, htail⟩ := List.pairwise_cons.1 hsorted
    rw [dropAfter]
    split
    · exact pairwise_dropAfter (fun x hx => hlast x (List.mem_cons_of_mem _ hx)) htail
    · rename_i hne
      obtain ⟨hbehind, hpairwise⟩ := pairwise_dropAfter hhead htail
      -- Keys that compare as equal are equal, and this one is not the key before it.
      have hlt : compareKeys last e.1 = .lt := by
        cases hcompare : compareKeys last e.1 with
        | lt => rfl
        | eq => exact absurd (by simp [Std.LawfulEqCmp.eq_of_compare hcompare]) hne
        | gt => exact absurd hcompare (hlast e List.mem_cons_self)
      refine ⟨List.forall_mem_cons.2 ⟨hlt, fun x hx => ?_⟩, .cons hbehind hpairwise⟩
      exact Std.TransCmp.lt_trans hlt (hbehind x hx)

/-- **Sorted entries without their repetitions ascend strictly.** -/
theorem pairwise_dropRepeated {entries : List (String × α)}
    (hsorted : entries.Pairwise fun a b => compareKeys a.1 b.1 ≠ .gt) :
    (dropRepeated entries).Pairwise fun a b => compareKeys a.1 b.1 = .lt := by
  cases entries with
  | nil => exact .nil
  | cons e entries =>
    obtain ⟨hhead, htail⟩ := List.pairwise_cons.1 hsorted
    obtain ⟨hbehind, hpairwise⟩ := pairwise_dropAfter hhead htail
    exact .cons hbehind hpairwise

end Drop

/-! ## Entries in order -/

/-- The keys that are listed ascend, and every key has the value that was given first with it. -/
structure Collates {α : Type} (given listed : List (String × α)) : Prop where
  ascends : listed.Pairwise fun a b => compareKeys a.1 b.1 = .lt
  firsts : ∀ key, Table.get? listed key = Table.get? given key

/-- **Sorting entries by key and dropping repetitions collates them.** -/
theorem collates_sortByKey {α : Type} (given : List (String × α)) :
    Collates given (dropRepeated (sortByKey Prod.fst given)) where
  ascends := pairwise_dropRepeated (pairwise_sortByKey Prod.fst given)
  firsts key := (get?_dropRepeated _ key).trans (get?_sortByKey given key)

namespace Collates

variable {α : Type} {given listed : List (String × α)} {e : String × α}

/-- No key is listed twice. -/
theorem distinct (h : Collates given listed) : Table.Distinct listed := by
  refine List.pairwise_map.2 (h.ascends.imp fun {a b} hlt heq => ?_)
  have hself : compareKeys b.1 b.1 = .eq := Std.ReflCmp.compare_self
  rw [heq, hself] at hlt
  cases hlt

theorem mem_given (h : Collates given listed) (he : e ∈ listed) : e ∈ given :=
  Table.mem_of_get? ((h.firsts e.1).symm.trans (h.distinct.get?_eq_some_iff.2 he))

/-- Every key that is given is listed. -/
theorem exists_mem (h : Collates given listed) (he : e ∈ given) : ∃ e' ∈ listed, e'.1 = e.1 := by
  cases hget : Table.get? listed e.1 with
  | none =>
    rw [h.firsts] at hget
    exact absurd (List.mem_map_of_mem he) (Table.get?_eq_none_iff.1 hget)
  | some value => exact ⟨_, Table.mem_of_get? hget, rfl⟩

end Collates

end Abridge
