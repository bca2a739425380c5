import Abridge.Proofs.Globals

/-!
# Ambient names

A declaration that is marked as ambient makes no variable.  It tells the types of one that the host
provides, and its name has to stay what the host calls it.  For the scopes of a module such a name is
declared like any other, so that the uses of it do not count as free, and only the survey stands between
the name and a renaming.

The survey pins the names of ambient variables, whole patterns included, and of ambient functions and
classes.  Enumerations and namespaces are ambient as well when they are marked so, but the survey has
nothing to say about them.  Unless it is exported, such an enumeration is renamed like a name of the
module's own, and so is a namespace, save where a use of it as a value finds no value in it and counts as
free.

## What is here

* `Tree.Ambient`: the names that a declaration marked as ambient introduces.
* `ambient_kept`: no plan of a run renames an ambient variable, function or class, nor what an ambient
  declaration exports.
* `ambient_enum_renamed`: an ambient enumeration is renamed.
-/

set_option autoImplicit false

namespace Abridge

namespace Tree

/-! ## Declarations -/

/-- A declaration that is marked as ambient introduces a name. -/
inductive Ambient : Tree → String → Prop
  | variable {word : VarWord} {definite : Bool} {ds ps : List Tree} {p : Tree} {n : String} :
    .node (.declarator definite) (p :: ps) ∈ ds → Binds p n → Ambient (.node (.variables word true) ds) n
  | function {info : FunctionInfo} {ps : List Tree} {n : String} :
    info.ambient = true → Ambient (.node (.function info) (.binding n :: ps)) n
  | class {info : ClassInfo} {decorators : Tree} {ps : List Tree} {n : String} :
    info.ambient = true → Ambient (.node (.class info) (decorators :: .binding n :: ps)) n
  | enum {const : Bool} {ps : List Tree} {n : String} :
    Ambient (.node (.enum const true) (.binding n :: ps)) n
  | namespace {word : String} {ps : List Tree} {n : String} :
    Ambient (.node (.namespace word true) (.binding n :: ps)) n

/-- An enumeration or a namespace: a declaration with named members of its own. -/
inductive Encloses : Tree → Prop
  | enum {const ambient : Bool} {ps : List Tree} : Encloses (.node (.enum const ambient) ps)
  | namespace {word : String} {ambient : Bool} {ps : List Tree} :
    Encloses (.node (.namespace word ambient) ps)

/-- Ambient declarations stand among the statements and not in clauses. -/
theorem Ambient.not_isClause {t : Tree} {n : String} (h : t.Ambient n) : t.isClause = false := by
  cases h <;> rfl

/-- **The survey pins an ambient name** when it comes by the declaration, unless that is an enumeration or
a namespace. -/
theorem Ambient.pinned {t : Tree} {n : String} (h : t.Ambient n) (ht : ¬ t.Encloses) (params : Bool) :
    Sighting.pinned n ∈ t.sightings params := by
  have hbefore : ∀ {f ps}, Sighting.pinned n ∈ sightingsBefore f ps →
      Sighting.pinned n ∈ (Tree.node f ps).sightings params :=
    fun h => List.mem_append_left _ (List.mem_append_left _ h)
  cases h with
  | «variable» hd hp =>
    exact hbefore (mem_pinAll (List.mem_flatMap.2 ⟨_, hd, hp.mem_boundNames⟩))
  | function hambient | «class» hambient =>
    refine hbefore ?_
    rw [sightingsBefore, if_pos hambient]
    exact mem_pinAll (List.mem_singleton.2 rfl)
  | enum => exact absurd .enum ht
  | «namespace» => exact absurd .namespace ht

/-- What encloses members introduces its name, so that it is exported along with the declaration. -/
theorem Ambient.introduces {t : Tree} {n : String} (h : t.Ambient n) (ht : t.Encloses) : t.Introduces n := by
  cases ht with
  | enum => cases h; exact .enum
  | «namespace» => cases h; exact .namespace

end Tree

/-- **An ambient name is pinned**, unless all that declares it are enumerations and namespaces that are not
exported. -/
theorem Program.mem_pinned_of_ambient {p : Program} (hp : Tree.AllShaped p.statements) {s t : Tree}
    (hs : s ∈ p.statements) (hpart : s.HasPart t) {n : String} (hn : t.Ambient n)
    (hkept : ¬ t.Encloses ∨ ∃ typeOnly ps, s.HasPart (.node (.exportNamed typeOnly) (t :: ps)))
    (d : Dialect) : n ∈ (p.survey d).pinned := by
  by_cases hencloses : t.Encloses
  · obtain ⟨typeOnly, ps, hexport⟩ := hkept.resolve_left (absurd hencloses)
    have hexposes : p.Exposes n := .node hs hexport (.exported (hn.introduces hencloses))
    exact hexposes.mem_pinned hp d
  · obtain ⟨-, params, hsub⟩ := exists_sightings_subset hp hs hpart hn.not_isClause
    exact mem_pinned_of_sighting (hsub (hn.pinned hencloses params)) d

/-! ## Runs -/

/-- **Ambient names keep their spelling.**  Modules that all parse are read, and no plan of the run renames
a name that a declaration marked as ambient introduces, wherever the declaration stands: a variable,
however deep in a pattern, a function or a class, and an enumeration or a namespace where the declaration
is exported. -/
theorem ambient_kept {profile : Profile} {p : CompiledProfile} (hp : profile.compile = .ok p)
    {sources : List SourceModule}
    (hparse : ∀ s ∈ sources, (Program.parse? s.text s.dialect).isSome = true) :
    ∃ modules, (Path.sortBy SourceModule.path sources).mapM SourceModule.read = .ok modules ∧
      ∀ x ∈ modules.zip (planModules p modules), ∀ s ∈ x.1.program.statements, ∀ t, s.HasPart t →
        ∀ n, t.Ambient n →
          (¬ t.Encloses ∨ ∃ typeOnly ps, s.HasPart (.node (.exportNamed typeOnly) (t :: ps))) →
          x.2.renames.get? n = none := by
  obtain ⟨modules, hread, hmodules⟩ := exists_read hparse
  obtain ⟨final, h⟩ := exists_settled hp modules
  refine ⟨modules, hread, ?_⟩
  rintro ⟨m, plan⟩ hx s hs t hpart n hn hkept
  have hshaped : Tree.AllShaped m.program.statements :=
    Program.shaped_of_parse? (hmodules.programs m (List.of_mem_zip hx).1)
  exact h.get?_renames_eq_none hx
    (.inr (Program.mem_pinned_of_ambient hshaped hs hpart hn hkept m.source.dialect))

/-- The program `count;{declare const [{count}]:any;}`. -/
def Program.withAmbientPattern : Program where
  statements :=
    [.node .expression [.reference "count"],
     .node .block
      [.node (.variables .const true)
        [.node (.declarator false)
          [.node .arrayPattern
            [.node .objectPattern
              [.node (.bindingProperty true false) [.name "count", .binding "count"]]],
           .node (.keywordType "any") [], .absent]]]]

theorem Program.parse?_withAmbientPattern :
    Program.parse? "count;\x7bdeclare const [\x7bcount\x7d]:any;\x7d" { jsx := false, typescript := true } =
      some .withAmbientPattern := by
  decide +kernel

/-- The module of that program. -/
def ReadModule.withAmbientPattern : ReadModule :=
  { source :=
      { path := ⟨"a.ts"⟩, text := "count;\x7bdeclare const [\x7bcount\x7d]:any;\x7d"
        dialect := { jsx := false, typescript := true } }
    program := .withAmbientPattern }

/-- A module with an ambient variable that is deep in a pattern, in a block, and used before. -/
theorem ambient_kept_pattern :
    ∃ p, Profile.balanced.compile = .ok p ∧
      (Path.sortBy SourceModule.path [ReadModule.withAmbientPattern.source]).mapM SourceModule.read =
        .ok [.withAmbientPattern] ∧
      ∃ plan, planModules p [.withAmbientPattern] = [plan] ∧ plan.renames.get? "count" = none := by
  obtain ⟨p, hp⟩ := Profile.exists_compile_balanced
  obtain ⟨hparse, hread⟩ := ReadModule.read_singleton (m := .withAmbientPattern) Program.parse?_withAmbientPattern
  obtain ⟨modules, hread', hkept⟩ := ambient_kept hp hparse
  obtain rfl : [.withAmbientPattern] = modules := Except.ok.inj (hread.symm.trans hread')
  obtain ⟨plan, hplan, hx⟩ := exists_plan_singleton p .withAmbientPattern
  have hblock : Tree.node .block _ ∈ Program.withAmbientPattern.statements :=
    List.mem_cons_of_mem _ (List.mem_singleton.2 rfl)
  refine ⟨p, hp, hread, plan, hplan,
    hkept _ hx _ hblock _ (.inside (List.mem_singleton.2 rfl) .self) _ ?_ (.inl nofun)⟩
  refine .variable (List.mem_singleton.2 rfl) ?_
  exact .array (List.mem_singleton.2 rfl) (.object (List.mem_singleton.2 rfl) (.property .name))

/-- The program `declare enum Mode{}Mode;`. -/
def Program.withAmbientEnum : Program where
  statements :=
    [.node (.enum false true) [.binding "Mode", .group []], .node .expression [.reference "Mode"]]

theorem Program.parse?_withAmbientEnum :
    Program.parse? "declare enum Mode\x7b\x7dMode;" { jsx := false, typescript := true } =
      some .withAmbientEnum := by
  decide +kernel

/-- The survey pins nothing: what is declared is not free, and the declaration has no pin of its own. -/
theorem Program.survey_withAmbientEnum :
    Program.withAmbientEnum.survey { jsx := false, typescript := true } =
      { firstRoles := [("Mode", .declaration)], namesInUse := ["Mode"] } := by
  have hfree : Program.withAmbientEnum.unresolved = [] := sortNames_eq (by decide +kernel) (by decide)
  apply Program.survey_eq hfree (by decide) <;> decide +kernel

/-- The module of that program. -/
def ReadModule.withAmbientEnum : ReadModule :=
  { source :=
      { path := ⟨"a.ts"⟩, text := "declare enum Mode\x7b\x7dMode;"
        dialect := { jsx := false, typescript := true } }
    program := .withAmbientEnum }

/-- **An ambient enumeration is renamed**: it stands for an object of the host, and the module that is
written asks the host for an object of another name. -/
theorem ambient_enum_renamed :
    Profile.eager.compile = .ok .eager ∧
      Program.parse? ReadModule.withAmbientEnum.source.text ReadModule.withAmbientEnum.source.dialect =
        some ReadModule.withAmbientEnum.program ∧
      (∃ s ∈ ReadModule.withAmbientEnum.program.statements, s.Ambient "Mode") ∧
      ∃ plan, planModules .eager [.withAmbientEnum] = [plan] ∧
        ∃ key, plan.renames.get? "Mode" = some key := by
  refine ⟨Profile.compile_eager, Program.parse?_withAmbientEnum, ⟨_, List.mem_cons_self, .enum⟩, ?_⟩
  have hrenames : ((planModules .eager [.withAmbientEnum]).all fun plan =>
      (plan.renames.get? "Mode").isSome) = true := by
    simp only [planModules, List.map_cons, List.map_nil, Program.analyse,
      ReadModule.withAmbientEnum, Program.survey_withAmbientEnum]
    decide +kernel
  obtain ⟨plan, hplan, hmode⟩ := exists_plan_of_all hrenames
  exact ⟨plan, hplan, Option.isSome_iff_exists.1 hmode⟩

end Abridge
