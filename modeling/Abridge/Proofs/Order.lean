import Abridge.Proofs.Assignment
import Abridge.Proofs.Paths
import Abridge.Run.Basic
import Mathlib.Data.List.Pairwise

/-!
# The order of the modules of a run

A run starts by sorting its modules by path, and everything that depends on an order, from the module that
is found unreadable first to the keys and the merged manifest, comes after that.  Sorting keeps the order of
modules with one path, so the order that the modules come in matters for those alone.  When no two modules
have the same path, step by step, all orders have one sorting and the run cannot tell them apart.

## What is here

* `Path.sortBy_eq_of_perm`: items with different paths have one sorting.
* `mapM_read_eq_error`: reading modules in path order stops at the first one that does not parse.
* `shorten_perm`: a run does not depend on the order of its modules.
-/

set_option autoImplicit false

namespace Abridge

/-! ## Sorting -/

/-- No two of the items have one path, compared step by step. -/
def Path.Apart {α : Type} (path : α → Path) (items : List α) : Prop :=
  items.Pairwise fun a b => (path a).compare (path b) ≠ .eq

namespace Path

variable {α : Type} {path : α → Path} {items items' : List α}

/-- Of items with different paths no two come before each other. -/
theorem Apart.eq_of_le (h : Apart path items) {a b : α} (ha : a ∈ items) (hb : b ∈ items)
    (hab : (path a).compare (path b) ≠ .gt) (hba : (path b).compare (path a) ≠ .gt) : a = b := by
  have hswap : (path a).compare (path b) = ((path b).compare (path a)).swap := Std.OrientedCmp.eq_swap
  have heq : (path a).compare (path b) = .eq := by
    rw [hswap] at hab ⊢
    cases hcompare : (path b).compare (path a) with
    | lt => exact absurd (by rw [hcompare]; rfl) hab
    | eq => rfl
    | gt => exact absurd hcompare hba
  have hsymm : Std.Symm fun a b : α => (path a).compare (path b) ≠ .eq :=
    ⟨fun _ _ hne heq => hne (Std.OrientedCmp.eq_symm heq)⟩
  by_contra hne
  exact h.forall ha hb hne heq

/-- **Items with different paths have one sorting**, whatever order they come in. -/
theorem sortBy_eq_of_perm (hperm : items.Perm items') (h : Apart path items) :
    sortBy path items = sortBy path items' := by
  have hsorted : (sortBy path items).Perm (sortBy path items') :=
    (List.mergeSort_perm _ _).trans (hperm.trans (List.mergeSort_perm _ _).symm)
  refine hsorted.eq_of_pairwise (fun a b ha hb hab hba => ?_) (pairwise_sortBy path items)
    (pairwise_sortBy path items')
  exact h.eq_of_le (List.mem_mergeSort.1 ha) (hperm.mem_iff.2 (List.mem_mergeSort.1 hb)) hab hba

end Path

/-! ## The first module that does not parse -/

/-- Reading modules in path order fails with the first one that does not parse. -/
theorem mapM_read_eq_error {m : SourceModule} (hm : Program.parse? m.text m.dialect = none) :
    ∀ {modules : List SourceModule}, m ∈ modules → Path.Apart SourceModule.path modules →
      (modules.Pairwise fun a b => a.path.compare b.path ≠ .gt) →
      (∀ n ∈ modules, Program.parse? n.text n.dialect = none → m.path.compare n.path ≠ .gt) →
      modules.mapM SourceModule.read = .error (.parse m.path.text)
  | n :: modules, hmem, hapart, hsorted, hfirst => by
    rw [List.mapM_cons]
    cases hn : Program.parse? n.text n.dialect with
    | none =>
      -- The head does not parse, so it is the first such module and no other than `m`.
      obtain rfl : m = n := by
        rcases List.mem_cons.1 hmem with rfl | htail
        · rfl
        · exact hapart.eq_of_le hmem List.mem_cons_self (hfirst n List.mem_cons_self hn)
            (List.rel_of_pairwise_cons hsorted htail)
      rw [SourceModule.read, hn]
      rfl
    | some program =>
      have htail : m ∈ modules := by
        refine (List.mem_cons.1 hmem).resolve_left ?_
        rintro rfl
        cases hm.symm.trans hn
      have hrest := mapM_read_eq_error hm htail hapart.of_cons hsorted.of_cons
        fun n hn => hfirst n (List.mem_cons_of_mem _ hn)
      rw [SourceModule.read, hn, hrest]
      rfl

/-! ## Runs -/

/-- **A run does not depend on the order of its modules.**  When no two of them have one path, step by step,
every order gives the same result: the same error, the same rejection or the same modules, manifest and
report.  When some module does not parse, the error names the first such module in path order. -/
theorem shorten_perm {modules modules' : List SourceModule} (hperm : modules.Perm modules')
    (hapart : Path.Apart SourceModule.path modules) (profile : Profile) (output : Output)
    (timestamp : String) :
    shorten profile output timestamp modules = shorten profile output timestamp modules' ∧
      ∀ p, profile.compile = .ok p →
        ∀ m ∈ modules, Program.parse? m.text m.dialect = none →
          (∀ n ∈ modules, Program.parse? n.text n.dialect = none → m.path.compare n.path ≠ .gt) →
          shorten profile output timestamp modules = .error (.parse m.path.text) := by
  constructor
  · rw [shorten, shorten]
    cases profile.compile with
    | error e => rfl
    | ok p => simp only [run, Path.sortBy_eq_of_perm hperm hapart]
  · intro p hp m hm hparse hfirst
    have hsorted : (Path.sortBy SourceModule.path modules).Perm modules := List.mergeSort_perm _ _
    have hapart' : Path.Apart SourceModule.path (Path.sortBy SourceModule.path modules) :=
      hapart.perm hsorted.symm fun hne heq => hne (Std.OrientedCmp.eq_symm heq)
    have hread := mapM_read_eq_error hparse (hsorted.mem_iff.2 hm) hapart'
      (Path.pairwise_sortBy SourceModule.path modules) fun n hn => hfirst n (hsorted.mem_iff.1 hn)
    simp only [shorten, hp, run, hread]
    rfl

/-- Two modules that do not parse, in both orders. -/
theorem shorten_perm_unreadable :
    shorten .balanced {} "" [⟨⟨"b.js"⟩, "x=", {}⟩, ⟨⟨"a.js"⟩, "y=", {}⟩] =
        shorten .balanced {} "" [⟨⟨"a.js"⟩, "y=", {}⟩, ⟨⟨"b.js"⟩, "x=", {}⟩] ∧
      shorten .balanced {} "" [⟨⟨"b.js"⟩, "x=", {}⟩, ⟨⟨"a.js"⟩, "y=", {}⟩] =
        .error (.parse "a.js") := by
  obtain ⟨p, hp⟩ := Profile.exists_compile_balanced
  have hapart : Path.Apart SourceModule.path [⟨⟨"b.js"⟩, "x=", {}⟩, ⟨⟨"a.js"⟩, "y=", {}⟩] := by
    unfold Path.Apart
    decide +kernel
  obtain ⟨hsame, hfirst⟩ := shorten_perm (.swap _ _ []) hapart .balanced {} ""
  refine ⟨hsame, hfirst p hp ⟨⟨"a.js"⟩, "y=", {}⟩ (by simp) (by decide +kernel) ?_⟩
  decide +kernel

end Abridge
