import Abridge.Proofs.Account
import Abridge.Proofs.Exactness

/-!
# Names that are visible outside a module

Some names of a module are known elsewhere by their spelling: it imports or exports them, they are
properties of the objects that it makes, or they belong to the host.  The survey pins such names as it
walks over the module, each kind at a node of its own, and skips the parts of some nodes.  Here the same
names are described from the outside, by what a node says wherever it stands (`Tree.Exposes`), without
reference to the walk.

Every node of a module is either walked, or it is part of a clause of an import or an export specifier
(`Tree.HasPart.seen`), and clauses expose nothing of their own.  So nothing that is exposed escapes the
survey, and a plan never renames it.

## What is here

* `Tree.Binds`, `Tree.Introduces`: the names of patterns and declarations, however deep they stand.
* `Tree.Exposes`, `Program.Exposes`: the names that are visible outside a module.
* `visible_kept`: no plan of a run renames a name that is visible or protected, and no manifest records
  a protected name.
* `quoted_member_renamed`: a member of an enumeration that is written as a text is renamed.
-/

set_option autoImplicit false

namespace Abridge

namespace Tree

/-! ## Names of patterns and declarations -/

/-- A pattern binds a name, at whatever depth. -/
inductive Binds : Tree → String → Prop
  | name {n : String} : Binds (.binding n) n
  | object {ps : List Tree} {p : Tree} {n : String} :
    p ∈ ps → Binds p n → Binds (.node .objectPattern ps) n
  | array {ps : List Tree} {p : Tree} {n : String} :
    p ∈ ps → Binds p n → Binds (.node .arrayPattern ps) n
  | property {shorthand computed : Bool} {k p : Tree} {n : String} :
    Binds p n → Binds (.node (.bindingProperty shorthand computed) [k, p]) n
  | defaulted {p default : Tree} {n : String} : Binds p n → Binds (.node .defaulted [p, default]) n
  | rest {p : Tree} {n : String} : Binds p n → Binds (.node .rest [p]) n

/-- A declaration introduces a name into the scope that it stands in. -/
inductive Introduces : Tree → String → Prop
  | declarator {word : VarWord} {ambient definite : Bool} {ds ps : List Tree} {p : Tree} {n : String} :
    .node (.declarator definite) (p :: ps) ∈ ds → Binds p n →
      Introduces (.node (.variables word ambient) ds) n
  | function {info : FunctionInfo} {ps : List Tree} {n : String} :
    info.role = .declaration ∨ info.role = .signature →
      Introduces (.node (.function info) (.binding n :: ps)) n
  | class {info : ClassInfo} {decorators : Tree} {ps : List Tree} {n : String} :
    info.expression = false → Introduces (.node (.class info) (decorators :: .binding n :: ps)) n
  | typeAlias {ambient : Bool} {ps : List Tree} {n : String} :
    Introduces (.node (.typeAlias ambient) (.binding n :: ps)) n
  | interface {ambient : Bool} {ps : List Tree} {n : String} :
    Introduces (.node (.interface ambient) (.binding n :: ps)) n
  | enum {const ambient : Bool} {ps : List Tree} {n : String} :
    Introduces (.node (.enum const ambient) (.binding n :: ps)) n
  | namespace {word : String} {ambient : Bool} {ps : List Tree} {n : String} :
    Introduces (.node (.namespace word ambient) (.binding n :: ps)) n
  | importEquals {typeOnly : Bool} {ps : List Tree} {n : String} :
    Introduces (.node (.importEquals typeOnly) (.binding n :: ps)) n

theorem mem_boundNamesOf {n : String} {ts : List Tree} :
    n ∈ boundNamesOf ts ↔ ∃ t ∈ ts, n ∈ t.boundNames := by
  induction ts with
  | nil => simp [boundNamesOf]
  | cons t ts ih => simp [boundNamesOf, ih]

theorem Binds.mem_boundNames {p : Tree} {n : String} (h : Binds p n) : n ∈ p.boundNames := by
  induction h with
  | name => exact List.mem_singleton.2 rfl
  | object hp _ ih | array hp _ ih => exact mem_boundNamesOf.2 ⟨_, hp, ih⟩
  | property _ ih | defaulted _ ih | rest _ ih => exact ih

theorem Introduces.mem_introducedNames {d : Tree} {n : String} (h : Introduces d n) :
    n ∈ d.introducedNames := by
  cases h with
  | declarator hd hp => exact List.mem_flatMap.2 ⟨_, hd, hp.mem_boundNames⟩
  | function hrole =>
    rcases hrole with hrole | hrole <;>
      simp [introducedNames, declared, hrole, withNature, boundNames]
  | «class» hstatement => simp [introducedNames, declared, hstatement, withNature, boundNames]
  | _ => exact List.mem_singleton.2 rfl

/-! ## What a node exposes -/

/-- A call of `require`, possibly in parentheses. -/
inductive Requires : Tree → Prop
  | call {optional : Bool} {args : List Tree} :
    Requires (.node (.call optional) (.reference "require" :: args))
  | paren {t : Tree} : Requires t → Requires (.node .paren [t])

theorem Requires.isRequireCall {t : Tree} (h : Requires t) : t.isRequireCall = true := by
  induction h with
  | call => rfl
  | paren _ ih => exact ih

/-- A node makes a name known outside its module.  A member of an enumeration counts when it is written as
a name. -/
inductive Exposes : Tree → String → Prop
  | import {typeOnly : Bool} {phase : Option String} {ps : List Tree} {n : String} :
    n ∈ leafNamesOf ps → Exposes (.node (.import typeOnly phase) ps) n
  | importEquals {typeOnly : Bool} {ps : List Tree} {n : String} :
    Exposes (.node (.importEquals typeOnly) (.binding n :: ps)) n
  | require {definite : Bool} {p type init : Tree} {n : String} :
    Requires init → Binds p n → Exposes (.node (.declarator definite) [p, type, init]) n
  | exportLocal {typeOnly : Bool} {l : Tree} {ps : List Tree} {n : String} :
    l = .name n ∨ l = .reference n ∨ (∃ lit, l = .quoted lit ∧ lit.value = n) →
      Exposes (.node (.exportSpecifier typeOnly) (l :: ps)) n
  | exported {typeOnly : Bool} {d : Tree} {ps : List Tree} {n : String} :
    Introduces d n → Exposes (.node (.exportNamed typeOnly) (d :: ps)) n
  | parameterProperty {ms : Modifiers} {optional : Bool} {decorators p : Tree} {ps : List Tree}
      {n : String} :
    ms.access.isSome = true ∨ ms.readonly = true ∨ ms.override = true → Binds p n →
      Exposes (.node (.param ms optional) (decorators :: p :: ps)) n
  | enumMember {computed : Bool} {ps : List Tree} {n : String} :
    Exposes (.node (.enumMember computed) (.name n :: ps)) n
  | targetShorthand {ps : List Tree} {n : String} :
    Exposes (.node .targetShorthand (.reference n :: ps)) n

theorem mem_pinAll {role : Role} {names : List String} {n : String} (h : n ∈ names) :
    Sighting.pinned n ∈ Sighting.pinAll role names :=
  List.mem_flatMap.2 ⟨n, h, List.mem_cons_of_mem _ (List.mem_singleton.2 rfl)⟩

/-- **The survey pins what a node exposes**, when it comes by the node. -/
theorem Exposes.pinned {t : Tree} {n : String} (h : Exposes t n) (ht : t.Shaped) (params : Bool) :
    Sighting.pinned n ∈ t.sightings params := by
  have hbefore : ∀ {f ps}, Sighting.pinned n ∈ sightingsBefore f ps →
      Sighting.pinned n ∈ (Tree.node f ps).sightings params :=
    fun h => List.mem_append_left _ (List.mem_append_left _ h)
  have hafter : ∀ {f ps}, Sighting.pinned n ∈ sightingsAfter f ps →
      Sighting.pinned n ∈ (Tree.node f ps).sightings params :=
    fun h => List.mem_append_right _ h
  cases h with
  | «import» hn => exact hbefore (mem_pinAll (ht.1.1 n hn))
  | importEquals => exact hbefore (mem_pinAll (List.mem_singleton.2 rfl))
  | require hinit hp =>
    refine hbefore ?_
    rw [sightingsBefore, if_pos hinit.isRequireCall]
    exact mem_pinAll hp.mem_boundNames
  | exportLocal hl =>
    refine hbefore (mem_pinAll ?_)
    rcases hl with rfl | rfl | ⟨lit, rfl, rfl⟩ <;> exact List.mem_singleton.2 rfl
  | exported hd => exact hbefore (mem_pinAll hd.mem_introducedNames)
  | parameterProperty hms hp =>
    refine hafter ?_
    rw [sightingsAfter, if_pos (by simpa [or_assoc] using hms)]
    exact mem_pinAll hp.mem_boundNames
  | @enumMember computed =>
    cases computed with
    | false => exact hafter (List.mem_singleton.2 rfl)
    | true => exact absurd rfl (ht.1 n)
  | targetShorthand => exact hbefore (List.mem_cons_of_mem _ (List.mem_singleton.2 rfl))

/-- The clauses of imports and export specifiers expose nothing of their own. -/
theorem Exposes.not_isClause {t : Tree} {n : String} (h : Exposes t n) : t.isClause = false := by
  cases h <;> rfl

/-! ## Nodes of a tree -/

/-- A tree is another one, or stands somewhere in it. -/
inductive HasPart : Tree → Tree → Prop
  | self {t : Tree} : HasPart t t
  | inside {f : Form} {ps : List Tree} {p t : Tree} : p ∈ ps → HasPart p t → HasPart (.node f ps) t

theorem HasPart.isClause {s t : Tree} (h : HasPart s t) (hs : s.isClause = true) : t.isClause = true := by
  induction h with
  | self => exact hs
  | inside hp _ ih => exact ih (allClauses_iff.1 (Bool.and_eq_true_iff.1 hs).2 _ hp)

/-- What the survey passes over is a clause. -/
theorem isClause_of_not_isSurveyed {f : Form} {ps : List Tree} (hfits : f.Fits ps) {i : Nat} {p : Tree}
    (hp : ps[i]? = some p) (hs : isSurveyed f i = false) : p.isClause = true := by
  have hmem := List.mem_of_getElem? hp
  unfold isSurveyed at hs
  split at hs
  · exact allClauses_iff.1 hfits.2 p hmem
  · obtain ⟨l, e, rfl, -, -, hclauses⟩ := hfits
    exact allClauses_iff.1 hclauses p hmem
  · rename_i info
    rw [Bool.not_eq_false', Bool.and_eq_true, beq_iff_eq] at hs
    rw [Form.Fits, hs.1] at hfits
    obtain ⟨k, v, rfl, -⟩ := hfits
    obtain rfl := hs.2
    cases hp
    rfl
  · rename_i shorthand computed
    rw [Bool.not_eq_false', Bool.and_eq_true, beq_iff_eq] at hs
    obtain ⟨rfl, rfl⟩ := hs
    obtain ⟨k, v, rfl, -⟩ := hfits
    cases hp
    rfl
  · cases hs

/-- **Every node of a tree is walked by the survey, or is a clause.** -/
theorem HasPart.seen {s t : Tree} (h : HasPart s t) (hs : s.Shaped) :
    ∀ params, t.Shaped ∧ ((∃ params', t.sightings params' ⊆ s.sightings params) ∨ t.isClause = true) := by
  induction h with
  | self => exact fun params => ⟨hs, .inl ⟨params, List.Subset.refl _⟩⟩
  | @inside f ps p t hp hpart ih =>
    intro params
    have hp' := allShaped_iff.1 hs.2 p hp
    obtain ⟨i, hi⟩ := List.getElem?_of_mem hp
    obtain ⟨hshaped, hseen⟩ := ih hp' (inParameters params f i)
    refine ⟨hshaped, ?_⟩
    cases hsurveyed : isSurveyed f i with
    | false => exact .inr (hpart.isClause (isClause_of_not_isSurveyed hs.1 hi hsurveyed))
    | true =>
      refine hseen.imp_left fun ⟨params', hsub⟩ => ⟨params', ?_⟩
      exact List.Subset.trans hsub (sightings_subset_node hi hsurveyed)

end Tree

/-! ## What a module exposes -/

namespace Program

/-- A name is visible outside a program: some node of it exposes the name, or the name is used where
nothing declares it. -/
inductive Exposes (p : Program) : String → Prop
  | node {s t : Tree} {n : String} : s ∈ p.statements → s.HasPart t → t.Exposes n → Exposes p n
  | free {o : Occurrence} :
    o ∈ p.occurrences → o.introduces = false → o.scope = none → Exposes p o.name

/-- **The survey comes by every node of a program that is not a clause.** -/
theorem exists_sightings_subset {p : Program} (hp : Tree.AllShaped p.statements) {s t : Tree}
    (hs : s ∈ p.statements) (hpart : s.HasPart t) (hclause : t.isClause = false) :
    t.Shaped ∧ ∃ params, t.sightings params ⊆ p.sightings := by
  obtain ⟨i, hi⟩ := List.getElem?_of_mem hs
  obtain ⟨hshaped, hseen⟩ := hpart.seen (Tree.allShaped_iff.1 hp s hs) false
  obtain ⟨params, hsub⟩ := hseen.resolve_right (by simp [hclause])
  have hstatement : s.sightings false ⊆ p.sightings :=
    Tree.sightings_subset_sightingsOf (f := .group) hi rfl
  exact ⟨hshaped, params, List.Subset.trans hsub hstatement⟩

/-- What is sighted as pinned is pinned. -/
theorem mem_pinned_of_sighting {p : Program} {n : String} (h : Sighting.pinned n ∈ p.sightings)
    (d : Dialect) : n ∈ (p.survey d).pinned :=
  mem_sortNames.2 (List.mem_append_left _ (List.mem_append_left _ (List.mem_filterMap.2 ⟨_, h, rfl⟩)))

/-- **What a program exposes is pinned.** -/
theorem Exposes.mem_pinned {p : Program} {n : String} (h : p.Exposes n)
    (hp : Tree.AllShaped p.statements) (d : Dialect) : n ∈ (p.survey d).pinned := by
  cases h with
  | @node s t _ hs hpart hn =>
    obtain ⟨hshaped, params, hsub⟩ := exists_sightings_subset hp hs hpart hn.not_isClause
    exact mem_pinned_of_sighting (hsub (hn.pinned hshaped params)) d
  | free ho hintroduces hscope => exact mem_pinned_of_unresolved ho hintroduces hscope d

end Program

/-! ## Runs -/

namespace Settled

variable {p : CompiledProfile} {modules : List ReadModule} {final : Planner}

/-- A plan renames nothing that is protected or pinned. -/
theorem get?_renames_eq_none (h : Settled p modules final) {m : ReadModule} {plan : ModulePlan}
    (hx : (m, plan) ∈ modules.zip (planModules p modules)) {n : String}
    (hn : p.isProtected n = true ∨ n ∈ (m.program.survey m.source.dialect).pinned) :
    plan.renames.get? n = none := by
  cases hget : plan.renames.get? n with
  | none => rfl
  | some key =>
    obtain ⟨r, hr, rfl, -⟩ := ((h.planned hx).agrees.renames n key).1 hget
    obtain ⟨hprotected, hpinned, -⟩ := (h.planned hx).agrees.allowed r hr
    rcases hn with hn | hn
    · exact absurd (hprotected.symm.trans hn) Bool.false_ne_true
    · exact absurd hn hpinned

/-- No manifest that records the plans of a run has a protected name. -/
theorem isProtected_eq_false (h : Settled p modules final) {merged : Manifest}
    (hmerged : merged.Records ((planModules p modules).flatMap ModulePlan.renamings)
      ((planModules p modules).flatMap ModulePlan.hoisted))
    {category : String} {table : Table String String} (htable : (category, table) ∈ merged.categories)
    {key n : String} (hentry : (key, n) ∈ table) : p.isProtected n = false := by
  obtain ⟨r, hr, hentry'⟩ := List.mem_map.1 (hmerged.categories.mem_iff.1 ⟨table, htable, hentry⟩)
  obtain ⟨plan, hplan, hr⟩ := List.mem_flatMap.1 hr
  obtain ⟨m, -, hplanned⟩ := h.exists_module hplan
  obtain rfl : r.name = n := congrArg (fun e => e.2.2) hentry'
  exact (hplanned.agrees.allowed r hr).1

end Settled

theorem CompiledProfile.isProtected_iff {profile : Profile} {p : CompiledProfile}
    (hp : profile.compile = .ok p) {n : String} :
    p.isProtected n = true ↔ isProtectedName n = true ∨ n ∈ profile.protectedNames := by
  rw [CompiledProfile.isProtected, (Profile.compile_eq_ok hp).1, Bool.or_eq_true, List.contains_iff_mem]

/-- The manifest of an accepted run over modules that were read records their plans. -/
theorem Settled.records_of_run {p : CompiledProfile} {sources : List SourceModule}
    {modules : List ReadModule} {final : Planner} (h : Settled p modules final)
    (hread : (Path.sortBy SourceModule.path sources).mapM SourceModule.read = .ok modules)
    {emitMap : Bool} {timestamp : String} {failed : List FailedModule} {outcome : Outcome}
    (hrun : run p emitMap timestamp sources failed = .ok outcome) {manifest : Manifest}
    (hmanifest : outcome.manifest? = some manifest) :
    manifest.Records ((planModules p modules).flatMap ModulePlan.renamings)
      ((planModules p modules).flatMap ModulePlan.hoisted) := by
  obtain ⟨results, merged, hstages, -, hmerges⟩ := exists_stages hread h emitMap timestamp
  have hne : modules.isEmpty = false := by
    cases hempty : modules.isEmpty with
    | false => rfl
    | true =>
      simp only [run, hread, bind, Except.bind, hempty, if_true] at hrun
      cases hrun
  have hconflict : (runManifest merged (results.map Prod.fst)).conflict? = none := by
    rw [conflict?_runManifest]
    exact hmerges.records.conflict?_eq_none h.consistent
  obtain ⟨-, -, hkept⟩ :=
    report_conclude p (Path.sortBy SourceModule.path sources) hstages.merged rfl hconflict failed
  rw [hstages.run_eq hne failed] at hrun
  cases hrun
  rw [hkept manifest hmanifest]
  exact hmerges.records.runManifest _

/-- **Names that are visible outside a module keep their spelling, and so do protected ones.**  Modules
that all parse are read, and no plan of the run renames a name that is protected, that some node of the
module exposes, or that is used where nothing declares it, whatever the other modules of the run do with
the name.  An accepted run leaves a manifest with no protected name in any category.  Members of
enumerations are exposed when they are written as names. -/
theorem visible_kept {profile : Profile} {p : CompiledProfile} (hp : profile.compile = .ok p)
    {sources : List SourceModule}
    (hparse : ∀ s ∈ sources, (Program.parse? s.text s.dialect).isSome = true) :
    ∃ modules, (Path.sortBy SourceModule.path sources).mapM SourceModule.read = .ok modules ∧
      (∀ x ∈ modules.zip (planModules p modules), ∀ n,
        isProtectedName n = true ∨ n ∈ profile.protectedNames ∨ x.1.program.Exposes n →
          x.2.renames.get? n = none) ∧
      ∀ emitMap timestamp failed outcome manifest,
        run p emitMap timestamp sources failed = .ok outcome → outcome.manifest? = some manifest →
          ∀ category ∈ manifest.categories, ∀ entry ∈ category.2,
            ¬ (isProtectedName entry.2 = true ∨ entry.2 ∈ profile.protectedNames) := by
  obtain ⟨modules, hread, hmodules⟩ := exists_read hparse
  obtain ⟨final, h⟩ := exists_settled hp modules
  refine ⟨modules, hread, ?_, ?_⟩
  · rintro ⟨m, plan⟩ hx n hn
    refine h.get?_renames_eq_none hx ?_
    rw [CompiledProfile.isProtected_iff hp, or_assoc]
    refine hn.imp_right (Or.imp_right fun hexposes => ?_)
    have hshaped : Tree.AllShaped m.program.statements :=
      Program.shaped_of_parse? (hmodules.programs m (List.of_mem_zip hx).1)
    exact hexposes.mem_pinned hshaped m.source.dialect
  · intro emitMap timestamp failed outcome manifest hrun hmanifest category hcategory entry hentry
    have hrecords := h.records_of_run hread hrun hmanifest
    rw [← CompiledProfile.isProtected_iff hp, h.isProtected_eq_false hrecords hcategory hentry]
    exact Bool.false_ne_true

/-- The program `export const [{count=x}]=f();`. -/
def Program.exportingCount : Program where
  statements :=
    [.node (.exportNamed false)
      [.node (.variables .const false)
        [.node (.declarator false)
          [.node .arrayPattern
            [.node .objectPattern
              [.node (.bindingProperty true false)
                [.name "count", .node .defaulted [.binding "count", .reference "x"]]]],
           .absent, .node (.call false) [.reference "f", .absent, .group []]]],
       .group [], .absent, .absent]]

theorem Program.exposes_exportingCount : Program.exportingCount.Exposes "count" := by
  refine .node (List.mem_singleton.2 rfl) .self (.exported (.declarator (List.mem_singleton.2 rfl) ?_))
  refine .array (List.mem_singleton.2 rfl) (.object (List.mem_singleton.2 rfl) ?_)
  exact .property (.defaulted .name)

theorem Program.parse?_exportingCount :
    Program.parse? "export const [\x7bcount=x\x7d]=f();" {} = some .exportingCount := by
  decide +kernel

/-- Two modules of which the first one may rename a name that the second one exports, deep in a pattern. -/
theorem visible_kept_exported :
    ∃ p, Profile.balanced.compile = .ok p ∧ ∃ modules,
      (Path.sortBy SourceModule.path [⟨⟨"a.js"⟩, "const count=1;count;", {}⟩,
        ⟨⟨"b.js"⟩, "export const [\x7bcount=x\x7d]=f();", {}⟩]).mapM SourceModule.read = .ok modules ∧
      ∃ x ∈ modules.zip (planModules p modules), x.1.program = .exportingCount ∧
        x.2.renames.get? "count" = none := by
  obtain ⟨p, hp⟩ := Profile.exists_compile_balanced
  have hparse : ∀ s ∈ [(⟨⟨"a.js"⟩, "const count=1;count;", {}⟩ : SourceModule),
      ⟨⟨"b.js"⟩, "export const [\x7bcount=x\x7d]=f();", {}⟩],
      (Program.parse? s.text s.dialect).isSome = true := by
    decide +kernel
  obtain ⟨modules, hread, hmodules⟩ := exists_read hparse
  obtain ⟨modules', hread', hkept, -⟩ := visible_kept hp hparse
  obtain rfl : modules = modules' := Except.ok.inj (hread.symm.trans hread')
  -- The second module is among those that were read, with a plan of its own.
  have hsource : ⟨⟨"b.js"⟩, "export const [\x7bcount=x\x7d]=f();", {}⟩ ∈
      modules.map ReadModule.source := by
    rw [hmodules.sources]
    exact List.mem_mergeSort.2 (List.mem_cons_of_mem _ (List.mem_singleton.2 rfl))
  obtain ⟨m, hm, hsource⟩ := List.mem_map.1 hsource
  have hprogram : m.program = .exportingCount := by
    have hm' := hmodules.programs m hm
    rw [hsource] at hm'
    exact Option.some_inj.1 (hm'.symm.trans Program.parse?_exportingCount)
  obtain ⟨plan, hx⟩ : ∃ plan, (m, plan) ∈ modules.zip (planModules p modules) := by
    have hfst : (modules.zip (planModules p modules)).map Prod.fst = modules :=
      List.map_fst_zip (by rw [length_planModules])
    rw [← hfst] at hm
    obtain ⟨⟨m', plan⟩, hx, rfl⟩ := List.mem_map.1 hm
    exact ⟨plan, hx⟩
  refine ⟨p, hp, modules, hread, (m, plan), hx, hprogram, hkept _ hx "count" (.inr (.inr ?_))⟩
  rw [hprogram]
  exact Program.exposes_exportingCount

/-- **A member that is written as a text is renamed** where the module has a name like it. -/
theorem quoted_member_renamed :
    Profile.eager.compile = .ok .eager ∧
      Program.parse? ReadModule.withQuotedMember.source.text ReadModule.withQuotedMember.source.dialect =
        some ReadModule.withQuotedMember.program ∧
      (∃ name members, .node (.enum false false) [name, .node .group members] ∈
        ReadModule.withQuotedMember.program.statements ∧ "A" ∈ Tree.memberNames members) ∧
      ∃ plan key, planModules .eager [.withQuotedMember] = [plan] ∧ plan.renames.get? "A" = some key := by
  refine ⟨Profile.compile_eager, Program.parse?_withQuotedMember,
    ⟨_, _, List.mem_cons_self, List.mem_cons_self⟩, ?_⟩
  obtain ⟨plan, hplan⟩ := List.length_eq_one_iff.1 (length_planModules .eager [.withQuotedMember])
  have hrenames : ((planModules .eager [.withQuotedMember]).all fun plan =>
      (plan.renames.get? "A").isSome) = true := by
    simp only [planModules, List.map_cons, List.map_nil, Program.analyse,
      ReadModule.withQuotedMember, Program.survey_withQuotedMember]
    decide +kernel
  rw [hplan, List.all_cons, Bool.and_eq_true] at hrenames
  obtain ⟨key, hkey⟩ := Option.isSome_iff_exists.1 hrenames.1
  exact ⟨plan, key, hplan, hkey⟩

end Abridge
