import Abridge.Proofs.Collection
import Abridge.Proofs.Reversal
import Mathlib.Data.List.Flatten

/-!
# All occurrences or none

A plan is made from what two walks over a module found, and a third walk carries it out.  If they did not
come by the same leaves, a name could be respelled here and left there, or a literal replaced that the plan
does not count.  They do: the plan speaks of names and of offsets, names are respelled at every leaf that
is one, and a literal is known by its offset because no other literal stands there.

## What is here

* `Tree.fringe`: all leaves of a tree.
* `Tree.Becomes`: what a plan makes of a leaf, said by the literal table.
* `Settled.forall₂_fringe`: a plan turns the leaves of its module into what they should become, one by one.
* `Settled.substitutions_eq`: how many leaves a plan changes.
* `all_or_none`: after a plan nothing that it changes is left, and everything else is as it was.
-/

set_option autoImplicit false

namespace Abridge

namespace Tree

/-! ## Leaves -/

mutual

/-- The leaves of a tree, of all kinds, in source order. -/
def fringe : Tree → List Tree
  | .node _ ps => fringeOf ps
  | t => [t]

/-- The leaves of trees. -/
def fringeOf : List Tree → List Tree
  | [] => []
  | t :: ts => t.fringe ++ fringeOf ts

end

/-- The name that a leaf introduces or refers to. -/
def leafName? : Tree → Option String
  | .binding n => some n
  | .reference n => some n
  | _ => none

/-- A name is no literal. -/
theorem offset?_eq_none {t : Tree} {n : String} (h : t.leafName? = some n) : t.offset? = none := by
  cases t with
  | binding | reference => rfl
  | _ => cases h

/-- What a plan makes of a leaf: a name gets its short name if it has one, a literal at a site of an entry
to hoist becomes the key that is declared with its value, and every other leaf stays as it is. -/
inductive Becomes (plan : ModulePlan) (table : LiteralTable) : Tree → Tree → Prop
  | bindingRenamed {n key : String} :
    plan.renames.get? n = some key → Becomes plan table (.binding n) (.binding key)
  | referenceRenamed {n key : String} :
    plan.renames.get? n = some key → Becomes plan table (.reference n) (.reference key)
  | nameKept {t : Tree} {n : String} :
    t.leafName? = some n → plan.renames.get? n = none → Becomes plan table t t
  | literalHoisted {t : Tree} {e : LiteralEntry} {site : Nat} {key : String} :
    e ∈ table → e.hoist = true → t.value? = some e.value → t.offset? = some site → site ∈ e.sites →
      (key, e.value) ∈ plan.hoisted → Becomes plan table t (.reference key)
  | literalKept {t : Tree} {site : Nat} :
    t.offset? = some site → (∀ e ∈ table, e.hoist = true → site ∉ e.sites) → Becomes plan table t t
  | other {t : Tree} : t.leafName? = none → t.offset? = none → Becomes plan table t t

/-! ## Leaves under a plan -/

section

variable {plan : ModulePlan} {table : LiteralTable}

mutual

/-- A plan changes a tree leaf by leaf. -/
theorem fringe_apply : ∀ t : Tree, (t.apply plan).fringe = t.fringe.map (apply plan)
  | .node f ps => by rw [apply_node, fringe, fringe, fringeOf_applyAll ps]
  | .string lit => by
    change (plan.replace lit.start (.string lit)).fringe = [plan.replace lit.start (.string lit)]
    unfold ModulePlan.replace
    split <;> rfl
  | .number lit => by
    change (plan.replace lit.start (.number lit)).fringe = [plan.replace lit.start (.number lit)]
    unfold ModulePlan.replace
    split <;> rfl
  | .binding _ | .reference _ | .absent | .name _ | .markupName _ | .label _ | .privateName _
  | .quoted _ => rfl

theorem fringeOf_applyAll : ∀ ts : List Tree, fringeOf (applyAll plan ts) = (fringeOf ts).map (apply plan)
  | [] => rfl
  | t :: ts => by rw [applyAll_cons, fringeOf, fringeOf, List.map_append, fringe_apply t, fringeOf_applyAll ts]

end

/-- A name becomes what it should, whatever the literals do. -/
theorem becomes_of_leafName? {t : Tree} {n : String} (ht : t.leafName? = some n) :
    t.Becomes plan table (t.apply plan) := by
  cases t with
  | binding m =>
    rw [apply]
    cases hget : plan.renames.get? m with
    | none =>
      rw [ModulePlan.rename_of_get?_eq_none hget]
      exact .nameKept rfl hget
    | some key =>
      rw [ModulePlan.rename_of_get?_eq_some hget]
      exact .bindingRenamed hget
  | reference m =>
    rw [apply]
    cases hget : plan.renames.get? m with
    | none =>
      rw [ModulePlan.rename_of_get?_eq_none hget]
      exact .nameKept rfl hget
    | some key =>
      rw [ModulePlan.rename_of_get?_eq_some hget]
      exact .referenceRenamed hget
  | _ => cases ht

mutual

/-- **The leaves of a tree become what they should** if its literals do. -/
theorem becomes_of_mem_fringe : ∀ {t : Tree},
    (∀ u ∈ t.literalLeaves, ∀ site, u.offset? = some site → u.Becomes plan table (plan.replace site u)) →
      ∀ u ∈ t.fringe, u.Becomes plan table (u.apply plan)
  | .node _ _, h => becomes_of_mem_fringeOf h
  | .string _, h | .number _, h => List.forall_mem_singleton.2 (h _ (List.mem_singleton.2 rfl) _ rfl)
  | .binding _, _ | .reference _, _ => List.forall_mem_singleton.2 (becomes_of_leafName? rfl)
  | .absent, _ | .name _, _ | .markupName _, _ | .label _, _ | .privateName _, _ | .quoted _, _ =>
    List.forall_mem_singleton.2 (.other rfl rfl)

theorem becomes_of_mem_fringeOf : ∀ {ts : List Tree},
    (∀ u ∈ literalLeavesOf ts, ∀ site, u.offset? = some site → u.Becomes plan table (plan.replace site u)) →
      ∀ u ∈ fringeOf ts, u.Becomes plan table (u.apply plan)
  | [], _ => fun _ hu => absurd hu List.not_mem_nil
  | t :: ts, h => fun u hu => by
    rcases List.mem_append.1 hu with hu | hu
    · exact becomes_of_mem_fringe (fun v hv => h v (List.mem_append_left _ hv)) u hu
    · exact becomes_of_mem_fringeOf (fun v hv => h v (List.mem_append_right _ hv)) u hu

end

mutual

/-- A plan changes the names that it renames, and the literals that it has a site for. -/
theorem substitutions_eq : ∀ t : Tree, t.substitutions plan =
    t.leafNames.countP (fun n => plan.renames.has n) + t.offsets.countP fun site => plan.sites.has site
  | .node _ ps => substitutionsOf_eq ps
  | .binding n | .reference n => by
    rw [substitutions, ModulePlan.renameCount, leafNames, List.countP_singleton]
    rfl
  | .string lit | .number lit => by
    rw [substitutions, ModulePlan.replaceCount, offsets, List.countP_singleton]
    exact (Nat.zero_add _).symm
  | .absent | .name _ | .markupName _ | .label _ | .privateName _ | .quoted _ => rfl

theorem substitutionsOf_eq : ∀ ts : List Tree, substitutionsOf plan ts =
    (leafNamesOf ts).countP (fun n => plan.renames.has n) +
      (offsetsOf ts).countP fun site => plan.sites.has site
  | [] => rfl
  | t :: ts => by
    rw [substitutionsOf, leafNamesOf, offsetsOf, List.countP_append, List.countP_append,
      substitutions_eq t, substitutionsOf_eq ts]
    omega

end

end

end Tree

/-! ## Runs -/

namespace Settled

variable {p : CompiledProfile} {modules : List ReadModule} {final : Planner}

/-- The plan of a module places the keys of its literals as its literal table says. -/
theorem places (h : Settled p modules final) {m : ReadModule} {plan : ModulePlan}
    (hx : (m, plan) ∈ modules.zip (planModules p modules))
    (hread : Program.parse? m.source.text m.source.dialect = some m.program) :
    Planner.Places (m.program.literalTable p.profile) plan :=
  Planner.places_of_planned h.sound (h.planned hx) (Program.keyed_literalTable hread p.profile)

/-- The sites of a plan among the offsets of its module are the sites of the entries to hoist. -/
theorem mem_sites_iff (h : Settled p modules final) {m : ReadModule} {plan : ModulePlan}
    (hx : (m, plan) ∈ modules.zip (planModules p modules))
    (hread : Program.parse? m.source.text m.source.dialect = some m.program) {site : Nat} :
    site ∈ Tree.offsetsOf m.program.statements ∧ plan.sites.has site = true ↔
      ∃ e ∈ m.program.literalTable p.profile, e.hoist = true ∧ site ∈ e.sites := by
  have hplaces := h.places hx hread
  rw [Table.has, Option.isSome_iff_exists]
  constructor
  · rintro ⟨-, key, hkey⟩
    obtain ⟨e, he, hhoist, hsite, -⟩ := (hplaces.sites site key).1 hkey
    exact ⟨e, he, hhoist, hsite⟩
  · rintro ⟨e, he, hhoist, hsite⟩
    have hvalue : e.value ∈ plan.hoisted.map Prod.snd := by
      rw [hplaces.values]
      exact List.mem_map_of_mem (List.mem_filter.2 ⟨he, hhoist⟩)
    obtain ⟨⟨key, l⟩, hkey, heq⟩ := List.mem_map.1 hvalue
    obtain rfl : l = e.value := heq
    exact ⟨Tree.mem_offsetsOf (Program.mem_literals_of_site he hsite), key,
      (hplaces.sites site key).2 ⟨e, he, hhoist, hsite, hkey⟩⟩

/-- A literal of a module becomes what it should. -/
theorem becomes_of_literal (h : Settled p modules final) {m : ReadModule} {plan : ModulePlan}
    (hx : (m, plan) ∈ modules.zip (planModules p modules))
    (hread : Program.parse? m.source.text m.source.dialect = some m.program) {t : Tree}
    (ht : t ∈ Tree.literalLeavesOf m.program.statements) {site : Nat} (hsite : t.offset? = some site) :
    t.Becomes plan (m.program.literalTable p.profile) (plan.replace site t) := by
  have hplaces := h.places hx hread
  cases hget : plan.sites.get? site with
  | none =>
    rw [ModulePlan.replace, hget]
    refine .literalKept hsite fun e he hhoist hmem => ?_
    obtain ⟨-, hhas⟩ := (h.mem_sites_iff hx hread).2 ⟨e, he, hhoist, hmem⟩
    rw [Table.has, hget] at hhas
    cases hhas
  | some key =>
    obtain ⟨e, he, hhoist, hmem, hkey⟩ := (hplaces.sites site key).1 hget
    have hat : plan.keyAt? t = some key := by rw [ModulePlan.keyAt?, hsite, Option.bind_some, hget]
    obtain ⟨l, hvalue, hkey'⟩ := h.exists_hoisted hx hread ht hat
    obtain rfl : l = e.value :=
      congrArg Prod.snd (List.inj_on_of_nodup_map hplaces.keys hkey' hkey rfl)
    rw [ModulePlan.replace, hget]
    exact .literalHoisted he hhoist hvalue hsite hmem hkey

/-- **A plan makes of every leaf of its module what it should.** -/
theorem becomes (h : Settled p modules final) {m : ReadModule} {plan : ModulePlan}
    (hx : (m, plan) ∈ modules.zip (planModules p modules))
    (hread : Program.parse? m.source.text m.source.dialect = some m.program) :
    ∀ t ∈ Tree.fringeOf m.program.statements,
      t.Becomes plan (m.program.literalTable p.profile) (t.apply plan) :=
  Tree.becomes_of_mem_fringeOf fun _ ht _ hsite => h.becomes_of_literal hx hread ht hsite

/-- **How many leaves a plan changes**: those with a name that it renames, and as many as the entries that
it hoists say of their occurrences. -/
theorem substitutions_eq (h : Settled p modules final) {m : ReadModule} {plan : ModulePlan}
    (hx : (m, plan) ∈ modules.zip (planModules p modules))
    (hread : Program.parse? m.source.text m.source.dialect = some m.program) :
    m.program.substitutions plan =
      (Tree.leafNamesOf m.program.statements).countP (fun n => (plan.renames.get? n).isSome) +
        (((m.program.literalTable p.profile).filter LiteralEntry.hoist).map
          LiteralEntry.occurrences).sum := by
  have hlists := m.program.lists_literalTable p.profile
  -- Offsets and sites are both listed without repetitions.
  have hperm : ((Tree.offsetsOf m.program.statements).filter fun site => plan.sites.has site).Perm
      (((m.program.literalTable p.profile).filter LiteralEntry.hoist).flatMap LiteralEntry.sites) := by
    refine (List.perm_ext_iff_of_nodup ((Program.nodup_offsets hread).filter _) ?_).2 fun site => ?_
    · exact (Program.nodup_sites hread p.profile).sublist (List.filter_sublist.flatMap _)
    · rw [List.mem_filter, h.mem_sites_iff hx hread]
      simp only [List.mem_flatMap, List.mem_filter, and_assoc]
  have hlengths : ((m.program.literalTable p.profile).filter LiteralEntry.hoist).map
        (fun e => e.sites.length) =
      ((m.program.literalTable p.profile).filter LiteralEntry.hoist).map LiteralEntry.occurrences :=
    List.map_congr_left fun e he => ((hlists.entries e (List.mem_filter.1 he).1).occurrences).symm
  rw [Program.substitutions, Tree.substitutionsOf_eq, List.countP_eq_length_filter (l := Tree.offsetsOf _),
    hperm.length_eq, List.length_flatMap, hlengths]
  rfl

/-- The keys of a plan are nothing that it renames: they are spelled in no module. -/
theorem get?_renames_of_assigned (h : Settled p modules final) {profile : Profile}
    (hp : profile.compile = .ok p) {m : ReadModule} {plan : ModulePlan}
    (hx : (m, plan) ∈ modules.zip (planModules p modules)) {thing : Thing} {key : String}
    (hkey : (thing, key) ∈ final.assigned) : plan.renames.get? key = none := by
  cases hget : plan.renames.get? key with
  | none => rfl
  | some key' =>
    obtain ⟨r, hr, rfl, -⟩ := ((h.planned hx).agrees.renames key key').1 hget
    have hspelled : r.name ∈ spelled modules :=
      name_mem_spelled (Profile.leadsUsable_of_compile hp) (List.mem_flatMap.2 ⟨plan, (List.of_mem_zip hx).2, hr⟩)
    exact absurd hspelled (h.sound.fresh _ (h.sound.taken _ hkey)).1

/-- **What a plan renames is no name of the module any more.** -/
theorem get?_renames_of_becomes (h : Settled p modules final) {profile : Profile}
    (hp : profile.compile = .ok p) {m : ReadModule} {plan : ModulePlan}
    (hx : (m, plan) ∈ modules.zip (planModules p modules)) {table : LiteralTable} {t t' : Tree}
    (ht : t.Becomes plan table t') {n : String} (hn : t'.leafName? = some n) : plan.renames.get? n = none := by
  have hplan : plan ∈ planModules p modules := (List.of_mem_zip hx).2
  cases ht with
  | bindingRenamed hget | referenceRenamed hget =>
    obtain rfl := Option.some_inj.1 hn
    obtain ⟨r, hr, -, rfl⟩ := ((h.planned hx).agrees.renames _ _).1 hget
    exact h.get?_renames_of_assigned hp hx (h.mem_renamings (List.mem_flatMap.2 ⟨plan, hplan, hr⟩)).2
  | nameKept hname hget =>
    obtain rfl := Option.some_inj.1 (hname.symm.trans hn)
    exact hget
  | literalHoisted _ _ _ _ _ hkey =>
    obtain rfl := Option.some_inj.1 hn
    exact h.get?_renames_of_assigned hp hx (h.mem_hoisted (List.mem_flatMap.2 ⟨plan, hplan, hkey⟩)).2
  | literalKept hsite => cases (Tree.offset?_eq_none hn).symm.trans hsite
  | other hname => cases hname.symm.trans hn

end Settled

/-- What becomes of a leaf is no literal at a site of an entry to hoist. -/
theorem Tree.Becomes.offset?_ne {plan : ModulePlan} {table : LiteralTable} {t t' : Tree}
    (h : t.Becomes plan table t') {e : LiteralEntry} (he : e ∈ table) (hhoist : e.hoist = true) {site : Nat}
    (hsite : site ∈ e.sites) : t'.offset? ≠ some site := by
  intro hoffset
  cases h with
  | bindingRenamed | referenceRenamed | literalHoisted => cases hoffset
  | nameKept hname => cases (offset?_eq_none hname).symm.trans hoffset
  | literalKept hkept hfree =>
    obtain rfl := Option.some_inj.1 (hkept.symm.trans hoffset)
    exact hfree e he hhoist hsite
  | other _ hnone => cases hnone.symm.trans hoffset

/-- **A plan changes all occurrences of what it changes, and nothing else.**  Modules that all parse are
read, and of every one of them the following holds.  The number of leaves that its plan changes is the
number of names at leaves that the plan renames, together with the occurrences of the entries that it
hoists.  Under the plan no leaf has a name that the plan renames, and no literal stands at a site of an
entry that it hoists.  Leaf by leaf a name has its short name or is kept, a literal at such a site is the
key that is declared with its value, and everything else is as it was.  No two entries of the literal table
have a site in common. -/
theorem all_or_none {profile : Profile} {p : CompiledProfile} (hp : profile.compile = .ok p)
    {sources : List SourceModule}
    (hparse : ∀ s ∈ sources, (Program.parse? s.text s.dialect).isSome = true) :
    ∃ modules, (Path.sortBy SourceModule.path sources).mapM SourceModule.read = .ok modules ∧
      ∀ x ∈ modules.zip (planModules p modules),
        let table := x.1.program.literalTable p.profile
        let after := x.1.program.apply x.2
        x.1.program.substitutions x.2 =
          (Tree.leafNamesOf x.1.program.statements).countP (fun n => (x.2.renames.get? n).isSome) +
            ((table.filter LiteralEntry.hoist).map LiteralEntry.occurrences).sum ∧
        (∀ t ∈ Tree.fringeOf after.statements, ∀ n, t.leafName? = some n → x.2.renames.get? n = none) ∧
        (∀ t ∈ Tree.fringeOf after.statements, ∀ e ∈ table, e.hoist = true →
          ∀ site ∈ e.sites, t.offset? ≠ some site) ∧
        List.Forall₂ (Tree.Becomes x.2 table) (Tree.fringeOf x.1.program.statements)
          (Tree.fringeOf after.statements) ∧
        table.Pairwise fun e e' => e.sites.Disjoint e'.sites := by
  obtain ⟨modules, hread, hmodules⟩ := exists_read hparse
  obtain ⟨final, h⟩ := exists_settled hp modules
  refine ⟨modules, hread, ?_⟩
  rintro ⟨m, plan⟩ hx
  have hparsed := hmodules.programs m (List.of_mem_zip hx).1
  have hbecomes := h.becomes hx hparsed
  have hafter : Tree.fringeOf (m.program.apply plan).statements =
      (Tree.fringeOf m.program.statements).map (Tree.apply plan) := Tree.fringeOf_applyAll _
  refine ⟨h.substitutions_eq hx hparsed, ?_, ?_, ?_, (Program.keyed_literalTable hparsed _).apart⟩
  · rw [hafter]
    intro t' ht' n hn
    obtain ⟨t, ht, rfl⟩ := List.mem_map.1 ht'
    exact h.get?_renames_of_becomes hp hx (hbecomes t ht) hn
  · rw [hafter]
    intro t' ht' e he hhoist site hsite
    obtain ⟨t, ht, rfl⟩ := List.mem_map.1 ht'
    exact (hbecomes t ht).offset?_ne he hhoist hsite
  · rw [hafter, List.forall₂_map_right_iff, List.forall₂_same]
    exact hbecomes

/-- The program `let count="loading";f(count,"loading");`. -/
def Program.countingLoads : Program where
  statements :=
    [.node (.variables .let false)
      [.node (.declarator false) [.binding "count", .absent, .string { value := "loading", start := 10 }]],
     .node .expression
      [.node (.call false)
        [.reference "f", .absent, .group [.reference "count", .string { value := "loading", start := 28 }]]]]

theorem Program.parse?_countingLoads :
    Program.parse? "let count=\"loading\";f(count,\"loading\");" {} = some .countingLoads := by
  decide +kernel

theorem Program.survey_countingLoads :
    Program.countingLoads.survey {} =
      { firstRoles := [("count", .declaration), ("f", .other)]
        pinned := ["f"]
        namesInUse := ["count", "f"] } := by
  have hfree : Program.countingLoads.unresolved = ["f"] := sortNames_eq (by decide +kernel) (by decide)
  apply Program.survey_eq hfree (by decide) <;> decide +kernel

/-- The module of that program. -/
def ReadModule.countingLoads : ReadModule :=
  { source := { path := ⟨"a.js"⟩, text := "let count=\"loading\";f(count,\"loading\");", dialect := {} }
    program := .countingLoads }

/-- A module with a name and a literal that occur twice each: four leaves change, and the name is gone. -/
theorem all_or_none_twice :
    Profile.eager.compile = .ok .eager ∧
      (Path.sortBy SourceModule.path [ReadModule.countingLoads.source]).mapM SourceModule.read =
        .ok [.countingLoads] ∧
      ∃ plan, planModules .eager [.countingLoads] = [plan] ∧
        Program.countingLoads.substitutions plan = 4 ∧
        ∀ t ∈ Tree.fringeOf (Program.countingLoads.apply plan).statements, t.leafName? ≠ some "count" := by
  obtain ⟨hparse, hread⟩ := ReadModule.read_singleton (m := .countingLoads) Program.parse?_countingLoads
  obtain ⟨modules, hread', hall⟩ := all_or_none Profile.compile_eager hparse
  obtain rfl : [.countingLoads] = modules := Except.ok.inj (hread.symm.trans hread')
  have hrenames : ((planModules .eager [.countingLoads]).all fun plan =>
      (plan.renames.get? "count").isSome && (plan.renames.get? "f").isNone) = true := by
    simp only [planModules, List.map_cons, List.map_nil, Program.analyse,
      ReadModule.countingLoads, Program.survey_countingLoads]
    decide +kernel
  obtain ⟨plan, hplan, hcount⟩ := exists_plan_of_all hrenames
  obtain ⟨hcount, hf⟩ := Bool.and_eq_true_iff.1 hcount
  obtain ⟨hsubstitutions, hgone, -⟩ := hall (.countingLoads, plan) (by rw [hplan]; exact List.mem_singleton.2 rfl)
  refine ⟨Profile.compile_eager, hread, plan, hplan, ?_, fun t ht hname => ?_⟩
  · have hnames : Tree.leafNamesOf Program.countingLoads.statements = ["count", "f", "count"] := rfl
    have htable : (((Program.countingLoads.literalTable .eager).filter LiteralEntry.hoist).map
        LiteralEntry.occurrences).sum = 2 := by decide +kernel
    refine hsubstitutions.trans (congrArg₂ (· + ·) ?_ htable)
    rw [Option.isNone_iff_eq_none] at hf
    simp [ReadModule.countingLoads, hnames, hcount, hf]
  · rw [hgone t ht "count" hname] at hcount
    cases hcount

end Abridge
