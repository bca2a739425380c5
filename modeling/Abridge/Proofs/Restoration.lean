import Abridge.Proofs.Coverage
import Abridge.Proofs.Runs

/-!
# Names come back

The short names of a run are undone by one glossary for all of its modules, while each module decides
on its own which names it shortens.  A name that one module keeps may be renamed in another; undoing
must then leave it alone in the first and bring it back in the second.  It does, because the glossary
knows keys only, and a key is spelled in no module of the run.

## What is here

* `Manifest.restore`: what a name of a shortened module stood for.
* `Tree.leaves_apply`: a plan that replaces no literal respells the leaves of a tree, one by one.
* `restore_leaves`: with hoisting off, restoring the leaves of every shortened module gives back the
  leaves of the module as it was read.
-/

set_option autoImplicit false

namespace Abridge

/-- What a name of a shortened module stood for, by the tables of all categories together. -/
def Manifest.restore (m : Manifest) (name : String) : String :=
  ((Glossary.ofPairs (m.categories.flatMap Prod.snd)).lookup name).getD name

/-! ## The leaves of a shortened tree -/

namespace ModulePlan

theorem rename_of_get?_eq_some {plan : ModulePlan} {name key : String}
    (h : plan.renames.get? name = some key) : plan.rename name = key := by
  rw [rename, h, Option.getD_some]

theorem rename_of_get?_eq_none {plan : ModulePlan} {name : String}
    (h : plan.renames.get? name = none) : plan.rename name = name := by
  rw [rename, h, Option.getD_none]

end ModulePlan

namespace Tree

mutual

/-- A plan that replaces no literal respells the leaves of a tree and does nothing else to them. -/
theorem leaves_apply {plan : ModulePlan} (hsites : plan.sites = []) :
    ∀ t : Tree, (t.apply plan).leaves = t.leaves.map fun l => (l.1, plan.rename l.2)
  | .node f ps => by rw [apply, leaves, leaves, leavesOf_applyAll hsites ps]
  | .string lit => by simp [apply, ModulePlan.replace, hsites, leaves]
  | .number lit => by simp [apply, ModulePlan.replace, hsites, leaves]
  | .binding _ | .reference _ | .absent | .name _ | .markupName _ | .label _ | .privateName _
  | .quoted _ => rfl

theorem leavesOf_applyAll {plan : ModulePlan} (hsites : plan.sites = []) :
    ∀ ts : List Tree,
      leavesOf (applyAll plan ts) = (leavesOf ts).map fun l => (l.1, plan.rename l.2)
  | [] => rfl
  | t :: ts => by
    rw [applyAll, leavesOf, leavesOf, List.map_append, leaves_apply hsites t,
      leavesOf_applyAll hsites ts]

end

end Tree

/-! ## The glossary of a run -/

/-- The names of a manifest are those that it records. -/
theorem Manifest.Records.mem_names_iff {m : Manifest} {renamings : List Renaming}
    {hoisted : List (String × Literal)} (hm : m.Records renamings hoisted) {key name : String} :
    (key, name) ∈ m.categories.flatMap Prod.snd ↔ ∃ r ∈ renamings, r.shortName = key ∧ r.name = name := by
  rw [List.mem_flatMap]
  constructor
  · rintro ⟨⟨category, table⟩, htable, hmem⟩
    obtain ⟨r, hr, hentry⟩ := List.mem_map.1 (hm.categories.mem_iff.1 ⟨table, htable, hmem⟩)
    exact ⟨r, hr, congrArg (fun e => e.2.1) hentry, congrArg (fun e => e.2.2) hentry⟩
  · rintro ⟨r, hr, rfl, rfl⟩
    obtain ⟨table, htable, hmem⟩ :=
      hm.categories.mem_iff.2 (List.mem_map_of_mem (f := Renaming.entry) hr)
    exact ⟨(r.category, table), htable, hmem⟩

/-- A glossary of pairs that have different words knows these pairs. -/
theorem Glossary.lookup_ofPairs_iff {pairs : List (String × String)} (h : Table.Distinct pairs)
    {key text : String} : (ofPairs pairs).lookup key = some text ↔ (key, text) ∈ pairs := by
  rw [lookup, ofPairs, h.ofEntries_eq, h.get?_eq_some_iff]

/-- The glossary of a manifest knows what the manifest records. -/
theorem Manifest.Records.lookup_iff {m : Manifest} {renamings : List Renaming}
    {hoisted : List (String × Literal)} (hm : m.Records renamings hoisted)
    (hc : Consistent renamings hoisted) {key name : String} :
    (Glossary.ofPairs (m.categories.flatMap Prod.snd)).lookup key = some name ↔
      ∃ r ∈ renamings, r.shortName = key ∧ r.name = name := by
  have hdistinct : Table.Distinct (m.categories.flatMap Prod.snd) := hm.nodup_names hc
  rw [Glossary.lookup_ofPairs_iff hdistinct, hm.mem_names_iff]

/-- **Restoring undoes renaming**, for every name that a module of the run spells: what the module
renames has a key that stands for it, and what it keeps is nobody's key. -/
theorem Settled.restore_rename {p : CompiledProfile} {modules : List ReadModule} {final : Planner}
    (h : Settled p modules final) {m : ReadModule} {plan : ModulePlan}
    (hx : (m, plan) ∈ modules.zip (planModules p modules)) {merged : Manifest}
    (hmerged : merged.Records ((planModules p modules).flatMap ModulePlan.renamings)
      ((planModules p modules).flatMap ModulePlan.hoisted))
    {name : String} (hname : name ∈ (m.program.survey m.source.dialect).namesInUse) :
    merged.restore (plan.rename name) = name := by
  have hplan : plan ∈ planModules p modules := (List.of_mem_zip hx).2
  have hplanned := h.planned hx
  cases hget : plan.renames.get? name with
  | some key =>
    obtain ⟨r, hr, hrname, hkey⟩ := (hplanned.agrees.renames name key).1 hget
    have hlookup := (hmerged.lookup_iff h.consistent).2
      ⟨r, List.mem_flatMap.2 ⟨plan, hplan, hr⟩, hkey, hrname⟩
    rw [ModulePlan.rename_of_get?_eq_some hget, Manifest.restore, hlookup, Option.getD_some]
  | none =>
    rw [ModulePlan.rename_of_get?_eq_none hget, Manifest.restore]
    cases hlookup : (Glossary.ofPairs (merged.categories.flatMap Prod.snd)).lookup name with
    | none => rfl
    | some other =>
      -- A word of the glossary is a key of some module, so no module spells it.
      obtain ⟨r, hr, rfl, -⟩ := (hmerged.lookup_iff h.consistent).1 hlookup
      obtain ⟨plan', hplan', hr⟩ := List.mem_flatMap.1 hr
      obtain ⟨m', -, hplanned'⟩ := h.exists_module hplan'
      have hassigned : (Thing.name r.name, r.shortName) ∈ final.assigned :=
        List.mem_append_left _
          (List.mem_map_of_mem (f := Renaming.assigned) (hplanned'.agrees.renamings hr))
      have hspelled : r.shortName ∈ spelled modules :=
        List.mem_flatMap.2 ⟨m, (List.of_mem_zip hx).1, hname⟩
      exact absurd hspelled (h.sound.fresh _ (h.sound.taken _ hassigned)).1

/-! ## A whole run -/

/-- With hoisting off the program of a module under its plan always exists. -/
theorem Settled.rewrite_eq {p : CompiledProfile} {modules : List ReadModule} {final : Planner}
    (h : Settled p modules final) (hoff : p.profile.hoistLiterals = false) {m : ReadModule}
    {plan : ModulePlan} (hx : (m, plan) ∈ modules.zip (planModules p modules)) :
    m.rewrite plan = some (m.program.apply plan) := by
  obtain ⟨hhoisted, -⟩ := (h.planned hx).hoisted_eq_nil hoff
  rw [ReadModule.rewrite, hhoisted]
  rfl

/-- **Every name of a run comes back.**  With hoisting off, modules that parse go through all stages of
a run, and restoring the names of each shortened module by the merged manifest gives the names of the
module as it was read: the same ones, introduced and used in the same order. -/
theorem restore_leaves {profile : Profile} {p : CompiledProfile} (hp : profile.compile = .ok p)
    (hoff : profile.hoistLiterals = false) (emitMap : Bool) (timestamp : String)
    {sources : List SourceModule}
    (hparse : ∀ s ∈ sources, (Program.parse? s.text s.dialect).isSome = true) :
    ∃ modules results merged, Stages p emitMap timestamp sources modules results merged ∧
      ∀ x ∈ modules.zip (planModules p modules), ∃ program, x.1.rewrite x.2 = some program ∧
        (Tree.leavesOf program.statements).map (fun l => (l.1, merged.restore l.2)) =
          Tree.leavesOf x.1.program.statements := by
  obtain ⟨modules, hread, hmodules⟩ := exists_read hparse
  obtain ⟨final, hsettled⟩ := exists_settled hp modules
  have hoff' : p.profile.hoistLiterals = false := by rw [(Profile.compile_eq_ok hp).1, hoff]
  obtain ⟨results, merged, hstages, -, hmerges⟩ :=
    exists_stages hread hsettled emitMap timestamp
  refine ⟨modules, results, merged, hstages, ?_⟩
  rintro ⟨m, plan⟩ hx
  refine ⟨_, hsettled.rewrite_eq hoff' hx, ?_⟩
  have hshaped : Tree.AllShaped m.program.statements :=
    Program.shaped_of_parse? (hmodules.programs m (List.of_mem_zip hx).1)
  obtain ⟨-, hsites⟩ := (hsettled.planned hx).hoisted_eq_nil hoff'
  change (Tree.leavesOf (Tree.applyAll plan m.program.statements)).map _ = _
  rw [Tree.leavesOf_applyAll hsites, List.map_map]
  refine (List.map_congr_left fun l hl => ?_).trans (List.map_id _)
  have hname : l.2 ∈ (m.program.survey m.source.dialect).namesInUse := by
    refine Program.mem_namesInUse hshaped ?_ _
    rw [← Tree.leavesOf_names]
    exact List.mem_map_of_mem (f := Prod.snd) hl
  exact Prod.ext rfl (hsettled.restore_rename hx hmerges.records hname)

namespace Profile

/-- Whether literals are replaced makes no difference to what a profile is checked for. -/
theorem compile_hoistLiterals (profile : Profile) (hoists : Bool) :
    { profile with hoistLiterals := hoists }.compile =
      profile.compile.map fun p => { p with profile := { profile with hoistLiterals := hoists } } := by
  have hbound : { profile with hoistLiterals := hoists }.hasReductionBound = profile.hasReductionBound := rfl
  have hleads : { profile with hoistLiterals := hoists }.leads = profile.leads := rfl
  rw [compile, compile, hbound, hleads]
  dsimp only
  split
  · rfl
  split
  · rfl
  cases profile.leads.find? fun text => !isUsableLead text with
  | some text => rfl
  | none =>
    cases compileRules profile.categoryRules with
    | error e => rfl
    | ok rules => cases compileCritical profile.criticalPatterns <;> rfl

end Profile

/-- Two modules, of which the second keeps the name that the first one renames. -/
theorem restore_leaves_kept :
    ∃ p, { Profile.balanced with hoistLiterals := false }.compile = .ok p ∧
      ∃ modules results merged,
        Stages p false "t" [⟨⟨"a.js"⟩, "const count=1;count;", {}⟩, ⟨⟨"b.js"⟩, "count;", {}⟩] modules
          results merged ∧
        ∀ x ∈ modules.zip (planModules p modules), ∃ program, x.1.rewrite x.2 = some program ∧
          (Tree.leavesOf program.statements).map (fun l => (l.1, merged.restore l.2)) =
            Tree.leavesOf x.1.program.statements := by
  obtain ⟨q, hq⟩ := Profile.exists_compile_balanced
  have hp := Profile.compile_hoistLiterals .balanced false
  rw [hq] at hp
  exact ⟨_, hp, restore_leaves hp rfl false "t" (by decide +kernel)⟩

end Abridge
