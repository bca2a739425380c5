import Abridge.Proofs.Visibility

/-!
# Names that scripts share

All scripts of a page have one global scope.  What a script declares at its top level is visible to the
others, and so is every `var` outside its functions, however deep in blocks and loops it stands.  The survey
pins the names of the statements at the top level, whole patterns included, and no plan renames them.

It looks at these statements alone.  A `var` inside of another statement is hoisted to the global scope like
one beside it, but it is not pinned, and a plan renames it like a local name.

## What is here

* `Tree.Shares`: the names that a statement at the top level of a script shares with other scripts.
* `Tree.Hoists`: the names of the `var` declarations in a statement, at any depth outside its functions.
* `shared_kept`: no plan of a run renames what a script declares at its top level.
* `nested_variable_renamed`: a `var` inside of another statement is renamed.
-/

set_option autoImplicit false

namespace Abridge

namespace Tree

/-! ## Global names -/

/-- A statement at the top level of a script shares a name with other scripts. -/
inductive Shares : Tree → String → Prop
  | variable {word : VarWord} {ambient definite : Bool} {ds ps : List Tree} {p : Tree} {n : String} :
    .node (.declarator definite) (p :: ps) ∈ ds → Binds p n → Shares (.node (.variables word ambient) ds) n
  | function {info : FunctionInfo} {ps : List Tree} {n : String} :
    Shares (.node (.function info) (.binding n :: ps)) n
  | class {info : ClassInfo} {decorators : Tree} {ps : List Tree} {n : String} :
    Shares (.node (.class info) (decorators :: .binding n :: ps)) n

/-- A tree has a `var` declaration of a name outside its functions. -/
inductive Hoists : Tree → String → Prop
  | here {ambient definite : Bool} {ds ps : List Tree} {p : Tree} {n : String} :
    .node (.declarator definite) (p :: ps) ∈ ds → Binds p n → Hoists (.node (.variables .var ambient) ds) n
  | inside {f : Form} {ps : List Tree} {p : Tree} {n : String} :
    keepsVars f = false → p ∈ ps → Hoists p n → Hoists (.node f ps) n

theorem Shares.mem_globalNames {s : Tree} {n : String} (h : s.Shares n) : n ∈ s.globalNames := by
  cases h with
  | «variable» hd hp => exact List.mem_flatMap.2 ⟨_, hd, hp.mem_boundNames⟩
  | function | «class» => exact List.mem_singleton.2 rfl

end Tree

/-- **What a script declares at its top level is pinned.** -/
theorem Program.mem_pinned_of_shares {p : Program} {s : Tree} {n : String} (hs : s ∈ p.statements)
    (hn : s.Shares n) {d : Dialect} (hd : d.module = false) : n ∈ (p.survey d).pinned := by
  refine mem_sortNames.2 (List.mem_append_right _ ?_)
  rw [if_neg (by rw [hd]; exact Bool.false_ne_true)]
  exact List.mem_flatMap.2 ⟨s, hs, hn.mem_globalNames⟩

/-! ## Runs -/

/-- **Scripts keep what they declare at their top level.**  Modules that all parse are read, and no plan of the
run renames a name that a statement at the top level of a script declares: a variable, however deep in a
pattern, a function or a class. -/
theorem shared_kept {profile : Profile} {p : CompiledProfile} (hp : profile.compile = .ok p)
    {sources : List SourceModule}
    (hparse : ∀ s ∈ sources, (Program.parse? s.text s.dialect).isSome = true) :
    ∃ modules, (Path.sortBy SourceModule.path sources).mapM SourceModule.read = .ok modules ∧
      ∀ x ∈ modules.zip (planModules p modules), x.1.source.dialect.module = false →
        ∀ s ∈ x.1.program.statements, ∀ n, s.Shares n → x.2.renames.get? n = none := by
  obtain ⟨modules, hread, -⟩ := exists_read hparse
  obtain ⟨final, h⟩ := exists_settled hp modules
  refine ⟨modules, hread, ?_⟩
  rintro ⟨m, plan⟩ hx hscript s hs n hn
  exact h.get?_renames_eq_none hx (.inr (m.program.mem_pinned_of_shares hs hn hscript))

/-- The one module of a run, read. -/
theorem AreRead.eq_singleton {s : SourceModule} {modules : List ReadModule} (h : AreRead [s] modules)
    {program : Program} (hprogram : Program.parse? s.text s.dialect = some program) :
    modules = [⟨s, program⟩] := by
  have hsources : modules.map ReadModule.source = [s] := h.sources.trans (List.mergeSort_singleton _)
  obtain ⟨m, rfl⟩ := List.length_eq_one_iff.1 ((List.length_map ReadModule.source).symm.trans
    (congrArg List.length hsources))
  obtain rfl : m.source = s := List.head_eq_of_cons_eq hsources
  have hm := h.programs m (List.mem_singleton.2 rfl)
  obtain rfl : m.program = program := Option.some_inj.1 (hm.symm.trans hprogram)
  rfl

/-- A run of one module that parses. -/
theorem ReadModule.read_singleton {m : ReadModule}
    (h : Program.parse? m.source.text m.source.dialect = some m.program) :
    (∀ s ∈ [m.source], (Program.parse? s.text s.dialect).isSome = true) ∧
      (Path.sortBy SourceModule.path [m.source]).mapM SourceModule.read = .ok [m] := by
  have hparse : ∀ s ∈ [m.source], (Program.parse? s.text s.dialect).isSome = true :=
    List.forall_mem_singleton.2 (congrArg Option.isSome h)
  obtain ⟨modules, hread, hmodules⟩ := exists_read hparse
  obtain rfl : modules = [m] := hmodules.eq_singleton h
  exact ⟨hparse, hread⟩

/-- The one module of a run has the one plan. -/
theorem exists_plan_singleton (p : CompiledProfile) (m : ReadModule) :
    ∃ plan, planModules p [m] = [plan] ∧ (m, plan) ∈ [m].zip (planModules p [m]) := by
  obtain ⟨plan, hplan⟩ := List.length_eq_one_iff.1 (length_planModules p [m])
  exact ⟨plan, hplan, by rw [hplan]; exact List.mem_singleton.2 rfl⟩

/-- The program `var [{count=x}]=f();`. -/
def Program.declaringCount : Program where
  statements :=
    [.node (.variables .var false)
      [.node (.declarator false)
        [.node .arrayPattern
          [.node .objectPattern
            [.node (.bindingProperty true false)
              [.name "count", .node .defaulted [.binding "count", .reference "x"]]]],
         .absent, .node (.call false) [.reference "f", .absent, .group []]]]]

theorem Program.parse?_declaringCount :
    Program.parse? "var [\x7bcount=x\x7d]=f();" { module := false } = some .declaringCount := by
  decide +kernel

/-- The script of that program. -/
def ReadModule.declaringCount : ReadModule :=
  { source := { path := ⟨"a.cjs"⟩, text := "var [\x7bcount=x\x7d]=f();", dialect := { module := false } }
    program := .declaringCount }

/-- A script with a variable deep in a pattern. -/
theorem shared_kept_pattern :
    ∃ p, Profile.balanced.compile = .ok p ∧
      (Path.sortBy SourceModule.path [ReadModule.declaringCount.source]).mapM SourceModule.read =
        .ok [.declaringCount] ∧
      ∃ plan, planModules p [.declaringCount] = [plan] ∧ plan.renames.get? "count" = none := by
  obtain ⟨p, hp⟩ := Profile.exists_compile_balanced
  have hparse : ∀ s ∈ [ReadModule.declaringCount.source], (Program.parse? s.text s.dialect).isSome = true :=
    List.forall_mem_singleton.2 (congrArg Option.isSome Program.parse?_declaringCount)
  obtain ⟨modules, hread, hmodules⟩ := exists_read hparse
  obtain ⟨modules', hread', hkept⟩ := shared_kept hp hparse
  obtain rfl : modules = modules' := Except.ok.inj (hread.symm.trans hread')
  obtain rfl : modules = [.declaringCount] := hmodules.eq_singleton Program.parse?_declaringCount
  obtain ⟨plan, hplan⟩ := List.length_eq_one_iff.1 (length_planModules p [.declaringCount])
  have hx : (ReadModule.declaringCount, plan) ∈ [ReadModule.declaringCount].zip
      (planModules p [.declaringCount]) := by
    rw [hplan]
    exact List.mem_singleton.2 rfl
  refine ⟨p, hp, hread, plan, hplan, hkept _ hx rfl _ (List.mem_singleton.2 rfl) _ ?_⟩
  refine .variable (List.mem_singleton.2 rfl) ?_
  exact .array (List.mem_singleton.2 rfl) (.object (List.mem_singleton.2 rfl) (.property (.defaulted .name)))

/-- The program `if(x){var count=1}count;`. -/
def Program.withNestedVariable : Program where
  statements :=
    [.node .if
      [.reference "x",
       .node .block
        [.node (.variables .var false)
          [.node (.declarator false)
            [.binding "count", .absent,
             .number { value := .finite false 4503599627370496 (-52) Double.isCanonical_one, raw := "1", start := 16 }]]],
       .absent],
     .node .expression [.reference "count"]]

theorem Program.parse?_withNestedVariable :
    Program.parse? "if(x)\x7bvar count=1\x7dcount;" { module := false } = some .withNestedVariable := by
  decide +kernel

/-- The survey pins `x`, which nothing declares, and not `count`. -/
theorem Program.survey_withNestedVariable :
    Program.withNestedVariable.survey { module := false } =
      { firstRoles := [("x", .other), ("count", .declaration)]
        pinned := ["x"]
        namesInUse := ["count", "x"] } := by
  have hfree : Program.withNestedVariable.unresolved = ["x"] :=
    sortNames_eq (by decide +kernel) (by decide)
  apply Program.survey_eq hfree (by decide) <;> decide +kernel

/-- The script of that program. -/
def ReadModule.withNestedVariable : ReadModule :=
  { source :=
      { path := ⟨"a.cjs"⟩, text := "if(x)\x7bvar count=1\x7dcount;", dialect := { module := false } }
    program := .withNestedVariable }

/-- **A variable inside of another statement is renamed**, although it is as global as one beside it. -/
theorem nested_variable_renamed :
    Profile.eager.compile = .ok .eager ∧
      Program.parse? ReadModule.withNestedVariable.source.text
          ReadModule.withNestedVariable.source.dialect = some ReadModule.withNestedVariable.program ∧
      ReadModule.withNestedVariable.source.dialect.module = false ∧
      (∃ s ∈ ReadModule.withNestedVariable.program.statements, s.Hoists "count") ∧
      ∃ plan key, planModules .eager [.withNestedVariable] = [plan] ∧
        plan.renames.get? "count" = some key := by
  refine ⟨Profile.compile_eager, Program.parse?_withNestedVariable, rfl,
    ⟨_, List.mem_cons_self, ?_⟩, ?_⟩
  · refine .inside rfl (List.mem_cons_of_mem _ List.mem_cons_self) (.inside rfl List.mem_cons_self ?_)
    exact .here List.mem_cons_self .name
  · obtain ⟨plan, hplan⟩ := List.length_eq_one_iff.1 (length_planModules .eager [.withNestedVariable])
    have hrenames : ((planModules .eager [.withNestedVariable]).all fun plan =>
        (plan.renames.get? "count").isSome) = true := by
      simp only [planModules, List.map_cons, List.map_nil, Program.analyse,
        ReadModule.withNestedVariable, Program.survey_withNestedVariable]
      decide +kernel
    rw [hplan, List.all_cons, Bool.and_eq_true] at hrenames
    obtain ⟨key, hkey⟩ := Option.isSome_iff_exists.1 hrenames.1
    exact ⟨plan, key, hplan, hkey⟩

end Abridge
