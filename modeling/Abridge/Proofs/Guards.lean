import Abridge.Proofs.Clashes
import Abridge.Proofs.Globals

/-!
# Type guards

A type guard, `p is T` or `asserts p`, stands where a function says what it returns and names one of the
parameters.  In the tree that name is a plain one, like the name of a property, although it is used like a
reference.  The survey notes plain names as spelled, no plan changes them, and so a guard keeps its name when
its parameter loses it.

What is left is said exactly by `guard_names_iff`.  Applying a plan changes the parameters of a guard and
nothing else about it (`Tree.guards_apply`), and since no short name is spelled in the module, a guard names
after a run what it named before when the parameter is kept, and nothing when it is not.

## What is here

* `Guard`, `Program.guards`: the guards of a program with the parameters that they can name.
* `Tree.guards_apply`: the guards of a program under a plan.
* `guard_names_iff`: what a guard names after a run.
* `guard_lost`: a guard whose parameter is renamed.
-/

set_option autoImplicit false

namespace Abridge

/-! ## Guards and their parameters -/

/-- A type guard: the name that it gives, and the names of the parameters of its function. -/
structure Guard where
  name : String
  params : List String
  deriving DecidableEq, Repr

namespace Guard

/-- The guard names the parameter at a place of the list. -/
def Names (g : Guard) (k : Nat) : Prop := g.params[k]? = some g.name

instance (g : Guard) (k : Nat) : Decidable (g.Names k) := inferInstanceAs (Decidable (_ = _))

/-- The guard under a plan: the parameters are respelled and the guard is not. -/
def under (plan : ModulePlan) (g : Guard) : Guard := { g with params := g.params.map plan.rename }

end Guard

namespace Tree

/-- The names of the parameters in a parameter list. -/
def params? : Tree → Option (List String)
  | .node .params ps => some (allParamNames (.node .params ps))
  | _ => none

/-- The parameters that are meant inside of a node: its own if it has a list of them, and otherwise those
that are meant around it. -/
def meantParams (around : List String) (ps : List Tree) : List String := (ps.findSome? params?).getD around

/-- The guard that a node is. -/
def guardHere (around : List String) : Form → List Tree → List Guard
  | .predicate _, .name n :: _ => [⟨n, around⟩]
  | _, _ => []

mutual

/-- The guards of a tree in the order in which they stand. -/
def guards (around : List String) : Tree → List Guard
  | .node f ps => guardHere around f ps ++ guardsOf (meantParams around ps) ps
  | _ => []

/-- The guards of trees. -/
def guardsOf (around : List String) : List Tree → List Guard
  | [] => []
  | t :: ts => t.guards around ++ guardsOf around ts

end

end Tree

/-- The guards of a program. -/
def Program.guards (p : Program) : List Guard := Tree.guardsOf [] p.statements

namespace Tree

variable {plan : ModulePlan}

/-! ## Guards under a plan -/

theorem replace_cases (plan : ModulePlan) (site : Nat) (t : Tree) :
    plan.replace site t = t ∨ ∃ key, plan.replace site t = .reference key := by
  rw [ModulePlan.replace]
  cases plan.sites.get? site with
  | none => exact .inl rfl
  | some key => exact .inr ⟨key, rfl⟩

/-- What stands for a literal is no node. -/
theorem isNode_replace {site : Nat} {t : Tree} (h : t.isNode = false) :
    (plan.replace site t).isNode = false := by
  rcases replace_cases plan site t with heq | ⟨key, heq⟩ <;> rw [heq]
  · exact h
  · rfl

theorem params?_eq_none {t : Tree} (h : t.isNode = false) : t.params? = none := by
  cases t <;> first | rfl | cases h

/-- Only short forms settle, and they are no parameter lists. -/
theorem params?_settle (f : Form) (ps : List Tree) :
    (Tree.node (f.settle ps) ps).params? = (Tree.node f ps).params? :=
  f.settle_congr (g := fun f => (Tree.node f ps).params?) (fun _ _ => rfl) (fun _ _ _ _ => rfl) ps

theorem params?_apply (plan : ModulePlan) (t : Tree) :
    (t.apply plan).params? = t.params?.map (List.map plan.rename) := by
  cases t with
  | node f ps =>
    rw [apply_node, params?_settle]
    cases f with
    | params => exact congrArg some (reads_allParamNames plan (.node .params ps)).eq
    | _ => rfl
  | string lit => rw [apply, params?_eq_none (isNode_replace rfl)]; rfl
  | number lit => rw [apply, params?_eq_none (isNode_replace rfl)]; rfl
  | _ => rfl

theorem meantParams_applyAll (plan : ModulePlan) (around : List String) (ps : List Tree) :
    meantParams (around.map plan.rename) (applyAll plan ps) =
      (meantParams around ps).map plan.rename := by
  have hfind : (applyAll plan ps).findSome? params? =
      (ps.findSome? params?).map (List.map plan.rename) := by
    induction ps with
    | nil => rfl
    | cons t ts ih =>
      rw [applyAll_cons, List.findSome?_cons, List.findSome?_cons, params?_apply, ih]
      cases t.params? <;> rfl
  rw [meantParams, meantParams, hfind]
  cases ps.findSome? params? <;> rfl

theorem guards_eq_nil (around : List String) {t : Tree} (h : t.isNode = false) : t.guards around = [] := by
  cases t <;> first | rfl | cases h

theorem guardHere_settle (around : List String) (f : Form) (ps : List Tree) :
    guardHere around (f.settle ps) ps = guardHere around f ps :=
  f.settle_congr (g := fun f => guardHere around f ps) (fun _ _ => rfl) (fun _ _ _ _ => rfl) ps

/-- A plan does not change the name that a guard gives. -/
theorem guardHere_applyAll (plan : ModulePlan) (around : List String) (f : Form) (ps : List Tree) :
    guardHere (around.map plan.rename) (f.settle (applyAll plan ps)) (applyAll plan ps) =
      (guardHere around f ps).map (Guard.under plan) := by
  rw [guardHere_settle]
  cases f with
  | predicate asserts =>
    cases ps with
    | nil => rfl
    | cons t ts =>
      cases t with
      | string lit | number lit =>
        rw [applyAll_cons, apply]
        rcases replace_cases plan lit.start _ with heq | ⟨key, heq⟩ <;> rw [heq] <;> rfl
      | _ => rfl
  | _ => rfl

mutual

/-- **Under a plan the guards of a tree have other parameters and are the same otherwise.** -/
theorem guards_apply (plan : ModulePlan) (around : List String) :
    ∀ t : Tree, (t.apply plan).guards (around.map plan.rename) = (t.guards around).map (Guard.under plan)
  | .node f ps => by
    rw [apply_node, guards, guards, guardHere_applyAll, meantParams_applyAll,
      guardsOf_applyAll plan (meantParams around ps) ps, List.map_append]
  | .string lit => by rw [apply, guards_eq_nil _ (isNode_replace rfl)]; rfl
  | .number lit => by rw [apply, guards_eq_nil _ (isNode_replace rfl)]; rfl
  | .absent | .binding _ | .reference _ | .name _ | .markupName _ | .label _ | .privateName _
  | .quoted _ => rfl

theorem guardsOf_applyAll (plan : ModulePlan) (around : List String) :
    ∀ ts : List Tree, guardsOf (around.map plan.rename) (applyAll plan ts) =
      (guardsOf around ts).map (Guard.under plan)
  | [] => rfl
  | t :: ts => by
    rw [applyAll_cons, guardsOf, guardsOf, guards_apply plan around t, guardsOf_applyAll plan around ts,
      List.map_append]

end

/-! ## Parameters are introduced -/

theorem meantParams_subset (around : List String) (ps : List Tree) :
    meantParams around ps ⊆ around ++ leafNamesOf ps := by
  intro n hn
  rw [meantParams] at hn
  cases hfind : ps.findSome? params? with
  | none =>
    rw [hfind, Option.getD_none] at hn
    exact List.mem_append_left _ hn
  | some params =>
    rw [hfind, Option.getD_some] at hn
    obtain ⟨t, ht, hparams⟩ := List.exists_of_findSome?_eq_some hfind
    unfold params? at hparams
    split at hparams
    · rename_i qs
      rw [← Option.some.inj hparams] at hn
      exact List.mem_append_right _ (mem_leafNamesOf.2 ⟨_, ht, (reads_allParamNames {} _).mem n hn⟩)
    · cases hparams

mutual

/-- What a guard can name is introduced in the tree or meant around it. -/
theorem params_subset {around : List String} {g : Guard} :
    ∀ {t : Tree}, g ∈ t.guards around → g.params ⊆ around ++ t.leafNames
  | .node f ps, hg => by
    rw [guards] at hg
    rcases List.mem_append.1 hg with hg | hg
    · unfold guardHere at hg
      split at hg
      · rw [List.mem_singleton.1 hg]
        exact List.subset_append_left _ _
      · cases hg
    · have hsub := params_subset_of_mem_guardsOf hg
      intro n hn
      rcases List.mem_append.1 (hsub hn) with hn | hn
      · exact meantParams_subset around ps hn
      · exact List.mem_append_right _ hn
  | .absent, hg | .binding _, hg | .reference _, hg | .name _, hg | .markupName _, hg | .label _, hg
  | .privateName _, hg | .string _, hg | .number _, hg | .quoted _, hg => by
    rw [guards_eq_nil around rfl] at hg
    cases hg

theorem params_subset_of_mem_guardsOf {around : List String} {g : Guard} :
    ∀ {ts : List Tree}, g ∈ guardsOf around ts → g.params ⊆ around ++ leafNamesOf ts
  | [], hg => by cases hg
  | t :: ts, hg => by
    rw [guardsOf] at hg
    intro n hn
    rw [leafNamesOf, List.mem_append, List.mem_append]
    rcases List.mem_append.1 hg with hg | hg
    · exact (List.mem_append.1 (params_subset hg hn)).imp_right .inl
    · exact (List.mem_append.1 (params_subset_of_mem_guardsOf hg hn)).imp_right .inr

end

end Tree

/-! ## Guards of a run -/

namespace Settled

variable {p : CompiledProfile} {modules : List ReadModule} {final : Planner}

/-- A plan makes nothing into a name that its module has in use: only what is kept stays one. -/
theorem rename_eq_iff (h : Settled p modules final) {m : ReadModule} {plan : ModulePlan}
    (hx : (m, plan) ∈ modules.zip (planModules p modules)) {n n' : String}
    (hn : n ∈ (m.program.survey m.source.dialect).namesInUse) :
    plan.rename n' = n ↔ n' = n ∧ plan.rename n = n := by
  constructor
  · intro heq
    rcases h.exists_assigned hx n' with hkept | hassigned
    · obtain rfl : n' = n := hkept.symm.trans heq
      exact ⟨rfl, heq⟩
    · rw [heq] at hassigned
      exact absurd hn (h.key_notMem (List.of_mem_zip hx).1 hassigned)
  · rintro ⟨rfl, heq⟩
    exact heq

end Settled

theorem Guard.names_under_iff {plan : ModulePlan} {g : Guard}
    (hfresh : ∀ n, plan.rename n = g.name ↔ n = g.name ∧ plan.rename g.name = g.name) (k : Nat) :
    (g.under plan).Names k ↔ g.Names k ∧ plan.rename g.name = g.name := by
  change (g.params.map plan.rename)[k]? = some g.name ↔ _
  rw [List.getElem?_map, Option.map_eq_some_iff, Names]
  constructor
  · rintro ⟨n, hn, heq⟩
    obtain ⟨rfl, hkept⟩ := (hfresh n).1 heq
    exact ⟨hn, hkept⟩
  · rintro ⟨hn, hkept⟩
    exact ⟨g.name, hn, hkept⟩

/-- **A guard goes on naming its parameter exactly when the parameter is kept.**  In every run, a module that
was read has the same guards under its plan as before, in the same order, each with its own name and with its
parameters respelled.  A guard that names a parameter names the same one afterwards when the plan keeps the
name, and when the plan renames it, the guard names no parameter at all. -/
theorem guard_names_iff {profile : Profile} {p : CompiledProfile} (hp : profile.compile = .ok p)
    {modules : List ReadModule}
    (hread : ∀ m ∈ modules, Program.parse? m.source.text m.source.dialect = some m.program)
    {m : ReadModule} {plan : ModulePlan} (hx : (m, plan) ∈ modules.zip (planModules p modules)) :
    (m.program.apply plan).guards = m.program.guards.map (Guard.under plan) ∧
      ∀ g ∈ m.program.guards, (∃ k, g.Names k) →
        ∀ k, (g.under plan).Names k ↔ g.Names k ∧ plan.rename g.name = g.name := by
  obtain ⟨final, h⟩ := exists_settled hp modules
  have hshaped : Tree.AllShaped m.program.statements :=
    Program.shaped_of_parse? (hread m (List.of_mem_zip hx).1)
  refine ⟨Tree.guardsOf_applyAll plan [] m.program.statements, ?_⟩
  rintro g hg ⟨k, hk⟩
  have hleaf : g.name ∈ Tree.leafNamesOf m.program.statements :=
    Tree.params_subset_of_mem_guardsOf hg (List.mem_of_getElem? hk)
  have hname := Program.mem_namesInUse hshaped hleaf m.source.dialect
  exact Guard.names_under_iff fun n => h.rename_eq_iff hx hname

/-- The program
`function isText(value:unknown):value is string{}function check(document:unknown):asserts document{}`. -/
def Program.withGuards : Program where
  statements :=
    [.node (.function { role := .declaration })
      [.binding "isText", .absent, .absent,
       .node .params [.node (.param {} false)
        [.group [], .binding "value", .node (.keywordType "unknown") [], .absent]],
       .node (.predicate false) [.name "value", .node (.keywordType "string") []],
       .node .body []],
     .node (.function { role := .declaration })
      [.binding "check", .absent, .absent,
       .node .params [.node (.param {} false)
        [.group [], .binding "document", .node (.keywordType "unknown") [], .absent]],
       .node (.predicate true) [.name "document", .absent],
       .node .body []]]

/-- The module of that program. -/
def ReadModule.withGuards : ReadModule :=
  { source :=
      { path := ⟨"a.ts"⟩
        text := "function isText(value:unknown):value is string{}" ++
          "function check(document:unknown):asserts document{}"
        dialect := { jsx := false, typescript := true } }
    program := .withGuards }

theorem ReadModule.parse?_withGuards :
    Program.parse? withGuards.source.text withGuards.source.dialect = some withGuards.program := by
  decide +kernel

theorem Program.survey_withGuards :
    Program.withGuards.survey { jsx := false, typescript := true } =
      { firstRoles := [("isText", .declaration), ("value", .parameter), ("check", .declaration),
          ("document", .parameter)]
        namesInUse := ["check", "document", "isText", "value"] } := by
  have hfree : Program.withGuards.unresolved = [] := sortNames_eq (by decide +kernel) (by decide)
  apply Program.survey_eq hfree (by decide) <;> decide +kernel

/-- One of the two guards has a parameter that every run keeps, for its name is one of the host's. -/
theorem exists_plan_withGuards :
    ∃ plan, planModules .eager [.withGuards] = [plan] ∧
      (ReadModule.withGuards, plan) ∈ [ReadModule.withGuards].zip (planModules .eager [.withGuards]) ∧
      plan.rename "value" ≠ "value" ∧ plan.rename "document" = "document" := by
  have hrenames : ((planModules .eager [.withGuards]).all fun plan =>
      plan.rename "value" != "value" && plan.rename "document" == "document") = true := by
    simp only [planModules, List.map_cons, List.map_nil, Program.analyse, ReadModule.withGuards,
      Program.survey_withGuards]
    decide +kernel
  obtain ⟨plan, hplan, hplan'⟩ := exists_plan_of_all hrenames
  obtain ⟨hvalue, hdocument⟩ := Bool.and_eq_true_iff.1 hplan'
  refine ⟨plan, hplan, ?_, by simpa using hvalue, by simpa using hdocument⟩
  rw [hplan]
  exact List.mem_singleton.2 rfl

/-- The guard of that parameter names it afterwards. -/
theorem guard_names_iff_document :
    Profile.eager.compile = .ok .eager ∧
      (∀ m ∈ [ReadModule.withGuards], Program.parse? m.source.text m.source.dialect = some m.program) ∧
      ∃ plan, planModules .eager [.withGuards] = [plan] ∧
        ∃ g ∈ ReadModule.withGuards.program.guards, g.name = "document" ∧ g.Names 0 ∧
          (g.under plan).Names 0 := by
  have hread : ∀ m ∈ [ReadModule.withGuards],
      Program.parse? m.source.text m.source.dialect = some m.program :=
    List.forall_mem_singleton.2 ReadModule.parse?_withGuards
  obtain ⟨plan, hplan, hx, -, hkept⟩ := exists_plan_withGuards
  have hg : ⟨"document", ["document"]⟩ ∈ ReadModule.withGuards.program.guards :=
    List.mem_cons_of_mem _ (List.mem_singleton.2 rfl)
  obtain ⟨-, hnames⟩ := guard_names_iff Profile.compile_eager hread hx
  exact ⟨Profile.compile_eager, hread, plan, hplan, _, hg, rfl, rfl, (hnames _ hg ⟨0, rfl⟩ 0).2 ⟨rfl, hkept⟩⟩

/-- **A guard can lose its parameter**: it names the first one in the module that is read, and none in the
program under the plan. -/
theorem guard_lost :
    Profile.eager.compile = .ok .eager ∧
      Program.parse? ReadModule.withGuards.source.text ReadModule.withGuards.source.dialect =
        some ReadModule.withGuards.program ∧
      ∃ plan, planModules .eager [.withGuards] = [plan] ∧
        ∃ g ∈ ReadModule.withGuards.program.guards, g.Names 0 ∧
          g.under plan ∈ (ReadModule.withGuards.program.apply plan).guards ∧
          ∀ k, ¬ (g.under plan).Names k := by
  obtain ⟨plan, hplan, -, hvalue, -⟩ := exists_plan_withGuards
  have hg : ⟨"value", ["value"]⟩ ∈ ReadModule.withGuards.program.guards := List.mem_cons_self
  refine ⟨Profile.compile_eager, ReadModule.parse?_withGuards, plan, hplan, _, hg, rfl, ?_, ?_⟩
  · have hguards := Tree.guardsOf_applyAll plan [] ReadModule.withGuards.program.statements
    exact (congrArg (_ ∈ ·) hguards).mpr (List.mem_map_of_mem hg)
  · intro k hk
    cases k with
    | zero => exact hvalue (Option.some.inj hk)
    | succ k => cases hk

end Abridge
