import Abridge.Proofs.Grammar

/-!
# The survey sees every name

A short name must not be spelled anywhere in the run, and the planner knows what is spelled from the
surveys alone.  So a survey has to see every name that is introduced or used in its module, under every
form that the grammar builds.  The walk of the survey leaves some parts out; the shape of the tree
makes up for each of them:

* the parts of an import and of an export specifier, whose names are taken from their specifiers;
* the key of a property in short form, which is no name that is resolved.

## What is here

* `Tree.leaves`: the names at the leaves of a tree, with what they do there; these are the names of its
  occurrences, whatever the scopes around it (`Tree.occurrences_names`).
* `Program.mem_namesInUse`: the survey spells every name of an occurrence.
* `Program.mem_pinned_of_unresolved`: it pins every name that is used and not declared.
-/

set_option autoImplicit false

namespace Abridge

/-! ## Sorted names -/

@[simp] theorem mem_sortNames {n : String} {names : List String} :
    n ∈ sortNames names ↔ n ∈ names := by
  rw [sortNames, List.mem_mergeSort, List.mem_eraseDups]

/-- What the sorted names are, up to a check that can be evaluated. -/
theorem sortNames_eq {names sorted : List String} (hperm : names.eraseDups.Perm sorted)
    (hsorted : sorted.Pairwise (· ≤ ·)) : sortNames names = sorted := by
  have hpairwise : (sortNames names).Pairwise fun a b => decide (a ≤ b) = true :=
    List.pairwise_mergeSort (by simpa using fun a b c => String.le_trans)
      (by simpa using String.le_total) names.eraseDups
  refine List.Perm.eq_of_pairwise (fun a b _ _ => String.le_antisymm) ?_ hsorted
    ((List.mergeSort_perm _ _).trans hperm)
  simpa using hpairwise

/-- What the survey of a program is, up to checks that can be evaluated. -/
theorem Program.survey_eq {p : Program} {d : Dialect} {s : Survey} {free : List String}
    (hfree : p.unresolved = free)
    (hsorted : s.pinned.Pairwise (· ≤ ·) ∧ s.namesInUse.Pairwise (· ≤ ·) ∧ s.markupTags.Pairwise (· ≤ ·))
    (hroles : Survey.firstRolesOf p.sightings = s.firstRoles)
    (hpinned : (Survey.pinnedOf p.sightings ++ free ++
      if d.module then [] else p.statements.flatMap Tree.globalNames).eraseDups.Perm s.pinned)
    (hnames : (Survey.spellingsOf p.sightings ++ free).eraseDups.Perm s.namesInUse)
    (htags : (Survey.tagsOf p.sightings).eraseDups.Perm s.markupTags)
    (hdynamic : p.sightings.contains .dynamic = s.dynamicScope) : p.survey d = s := by
  have hpinned' := sortNames_eq hpinned hsorted.1
  have hnames' := sortNames_eq hnames hsorted.2.1
  have htags' := sortNames_eq htags hsorted.2.2
  rw [Program.survey, hfree, hroles, hpinned', hnames', htags', hdynamic]

namespace Survey

@[simp] theorem spellingsOf_append (as bs : List Sighting) :
    spellingsOf (as ++ bs) = spellingsOf as ++ spellingsOf bs :=
  List.filterMap_append

/-- A name that is pinned in a role is spelled. -/
theorem mem_spellingsOf_pinAll {n : String} {role : Role} {names : List String} (h : n ∈ names) :
    n ∈ spellingsOf (Sighting.pinAll role names) := by
  refine List.mem_filterMap.2 ⟨.seen n role, List.mem_flatMap.2 ⟨n, h, ?_⟩, rfl⟩
  exact List.mem_cons_self

end Survey

namespace Tree

/-! ## The names of a tree -/

mutual

/-- **The survey of a shaped tree spells every name in it.** -/
theorem mem_spellingsOf_sightings {n : String} {t : Tree} (ht : t.Shaped) (hn : n ∈ t.leafNames)
    (params : Bool) : n ∈ Survey.spellingsOf (t.sightings params) := by
  cases t with
  | binding m =>
    rw [List.mem_singleton.1 hn]
    exact List.mem_singleton.2 rfl
  | reference m =>
    rw [List.mem_singleton.1 hn]
    exact List.mem_singleton.2 rfl
  | node f ps =>
    rw [sightings, Survey.spellingsOf_append, Survey.spellingsOf_append]
    refine List.mem_append_left _ (List.mem_append.2 ?_)
    obtain ⟨hfits, hps⟩ := ht
    -- The forms whose parts are not all walked come first; the others are walked part by part.
    by_cases hwalked : ∀ i, isSurveyed f i = true
    · exact .inr (mem_spellingsOf_sightingsOf hps hn params 0 fun i _ => hwalked i)
    cases f with
    | «import» typeOnly phase => exact .inl (Survey.mem_spellingsOf_pinAll (hfits.1 n hn))
    | exportSpecifier typeOnly =>
      obtain ⟨l, e, rfl, hl, he, -⟩ := hfits
      refine .inl (Survey.mem_spellingsOf_pinAll (hl n ?_))
      simpa [leafNames, leafNamesOf, he] using hn
    | property info =>
      cases hshort : info.shorthand with
      | false => exact absurd (fun i => by simp [isSurveyed, hshort]) hwalked
      | true =>
        rw [Form.Fits, hshort] at hfits
        obtain ⟨k, v, rfl, -⟩ := hfits
        have hv : n ∈ v.leafNames := by simpa [leafNames, leafNamesOf] using hn
        have := mem_spellingsOf_sightings hps.2.1 hv (inParameters params (.property info) 1)
        right
        simp [sightingsOf, isSurveyed, this]
    | bindingProperty shorthand computed =>
      cases shorthand with
      | false => exact absurd (fun i => by simp [isSurveyed]) hwalked
      | true =>
        obtain ⟨k, v, rfl, -⟩ := hfits
        have hv : n ∈ v.leafNames := by simpa [leafNames, leafNamesOf] using hn
        have := mem_spellingsOf_sightings hps.2.1 hv
          (inParameters params (.bindingProperty true computed) 1)
        right
        simp [sightingsOf, isSurveyed, this]
    | _ => exact absurd (fun _ => rfl) hwalked
  | _ => exact absurd hn List.not_mem_nil
termination_by sizeOf t
decreasing_by
  all_goals subst_vars
  all_goals simp only [Tree.node.sizeOf_spec, List.cons.sizeOf_spec]
  all_goals omega

theorem mem_spellingsOf_sightingsOf {n : String} {f : Form} {ts : List Tree} (hts : AllShaped ts)
    (hn : n ∈ leafNamesOf ts) (params : Bool) (i : Nat) (hwalked : ∀ j, i ≤ j → isSurveyed f j = true) :
    n ∈ Survey.spellingsOf (sightingsOf f params i ts) := by
  cases ts with
  | nil => exact absurd hn List.not_mem_nil
  | cons t ts =>
    rw [sightingsOf, if_pos (hwalked i (Nat.le_refl i)), Survey.spellingsOf_append, List.mem_append]
    rcases List.mem_append.1 hn with hn | hn
    · exact .inl (mem_spellingsOf_sightings hts.1 hn _)
    · exact .inr (mem_spellingsOf_sightingsOf hts.2 hn params (i + 1) fun j hj => hwalked j (by omega))
termination_by sizeOf ts
decreasing_by
  all_goals subst_vars
  all_goals simp only [List.cons.sizeOf_spec]
  all_goals omega

end

/-! ## Occurrences -/

mutual

/-- The names at the leaves of a tree, in source order, each with whether it is introduced there. -/
def leaves : Tree → List (Bool × String)
  | .binding n => [(true, n)]
  | .reference n => [(false, n)]
  | .node _ ps => leavesOf ps
  | _ => []

/-- The names at the leaves of trees. -/
def leavesOf : List Tree → List (Bool × String)
  | [] => []
  | t :: ts => t.leaves ++ leavesOf ts

end

mutual

theorem leaves_names : ∀ t : Tree, t.leaves.map Prod.snd = t.leafNames
  | .node f ps => by rw [leaves, leafNames, leavesOf_names ps]
  | .binding _ | .reference _ | .absent | .name _ | .markupName _ | .label _ | .privateName _
  | .string _ | .number _ | .quoted _ => rfl

theorem leavesOf_names : ∀ ts : List Tree, (leavesOf ts).map Prod.snd = leafNamesOf ts
  | [] => rfl
  | t :: ts => by rw [leavesOf, leafNamesOf, List.map_append, leaves_names t, leavesOf_names ts]

end

mutual

/-- Scopes decide what an occurrence belongs to, never which occurrences there are. -/
theorem occurrences_leaves (env : Env) (use : Use) (spot : Spot) :
    ∀ t : Tree, (t.occurrences env use spot).map (fun o => (o.introduces, o.name)) = t.leaves
  | .node f ps => by rw [occurrences, leaves, occurrencesOf_leaves f ps env use spot 0 ps]
  | .binding _ | .reference _ | .absent | .name _ | .markupName _ | .label _ | .privateName _
  | .string _ | .number _ | .quoted _ => rfl

theorem occurrencesOf_leaves (f : Form) (all : List Tree) (env : Env) (use : Use) (spot : Spot)
    (i : Nat) : ∀ ts : List Tree, (occurrencesOf f all env use spot i ts).map
      (fun o => (o.introduces, o.name)) = leavesOf ts
  | [] => rfl
  | t :: ts => by
    rw [occurrencesOf, leavesOf, List.map_append, occurrences_leaves _ _ _ t,
      occurrencesOf_leaves f all env use spot (i + 1) ts]

end

end Tree

namespace Program

/-- The occurrences of a program are its leaves. -/
theorem occurrences_leaves (p : Program) :
    p.occurrences.map (fun o => (o.introduces, o.name)) = Tree.leavesOf p.statements :=
  Tree.occurrencesOf_leaves _ _ _ _ _ _ _

/-- The survey of a shaped program spells every name in it. -/
theorem mem_namesInUse {p : Program} (hp : Tree.AllShaped p.statements) {n : String}
    (hn : n ∈ Tree.leafNamesOf p.statements) (d : Dialect) : n ∈ (p.survey d).namesInUse := by
  refine mem_sortNames.2 (List.mem_append_left _ ?_)
  exact Tree.mem_spellingsOf_sightingsOf hp hn false 0 fun _ _ => rfl

theorem mem_leafNamesOf_of_mem_occurrences {p : Program} {o : Occurrence} (ho : o ∈ p.occurrences) :
    o.name ∈ Tree.leafNamesOf p.statements := by
  rw [← Tree.leavesOf_names, ← p.occurrences_leaves, List.map_map]
  exact List.mem_map_of_mem (f := Prod.snd ∘ fun o : Occurrence => (o.introduces, o.name)) ho

/-- What is used and declared nowhere around its use is pinned. -/
theorem mem_pinned_of_unresolved {p : Program} {o : Occurrence} (ho : o ∈ p.occurrences)
    (hi : o.introduces = false) (hs : o.scope = none) (d : Dialect) :
    o.name ∈ (p.survey d).pinned := by
  have hfree : o.name ∈ p.unresolved := by
    refine mem_sortNames.2 (List.mem_filterMap.2 ⟨o, ho, ?_⟩)
    simp [hi, hs]
  exact mem_sortNames.2 (List.mem_append_left _ (List.mem_append_right _ hfree))

end Program

end Abridge
