import Abridge.Proofs.Scopes
import Abridge.Scope.Clash

/-!
# Clashes under a plan

Whether two declarations clash is a matter of their kinds and of whether they have one name.  A plan leaves
the kinds alone, and as long as it writes no two names of the module alike it also keeps apart what was
apart.  So under a plan the declarations of every scope are the declarations that it had, respelled, and as
many of them clash.  As in `Abridge.Proofs.Scopes` this is shown function by function, along the way in
which `Abridge.Scope.Clash` lists the declarations of a tree.

The members of an enumeration are again an exception: they are property names and keep their spelling.  They
clash with one another alone, and so it does not matter what else is respelled.

## What is here

* `ModulePlan.Separates`: the plan writes no two of the names alike.
* `reads_scopeDeclarations`, `reads_declarations`: the declarations of a scope under a plan.
* `countClashes_append`, `countClashes_skip`: clashes of lists of declarations.
* `clashes_apply`: as many declarations of a tree clash under a plan as before.
-/

set_option autoImplicit false

namespace Abridge

/-- A plan writes no two of the names alike. -/
def ModulePlan.Separates (plan : ModulePlan) (names : List String) : Prop :=
  ∀ m ∈ names, ∀ n ∈ names, plan.rename m = plan.rename n → m = n

theorem ModulePlan.Separates.mono {plan : ModulePlan} {names names' : List String}
    (h : plan.Separates names) (hsub : names' ⊆ names) : plan.Separates names' :=
  fun m hm n hn => h m (hsub hm) n (hsub hn)

instance : Spelled Declaration := ⟨Declaration.name, fun plan d => { d with name := plan.rename d.name }⟩

/-- What the declarations of a scope depend on, under a plan. -/
def Surroundings.under (plan : ModulePlan) (around : Surroundings) : Surroundings :=
  { around with shared := around.shared.map (Spelled.respell plan) }

/-! ## Readers -/

namespace Reads

variable {plan : ModulePlan} {names : List String}

theorem withKind {a a' : List String} (h : Reads plan a a' names) (kind : DeclarationKind) :
    Reads plan (Tree.withKind kind a) (Tree.withKind kind a') names := by
  constructor
  · rw [h.eq, Tree.withKind, Tree.withKind, List.map_map, List.map_map]
    rfl
  · intro x hx
    obtain ⟨n, hn, rfl⟩ := List.mem_map.1 hx
    exact h.mem n hn

/-- The names of what was read. -/
theorem map_fst {a a' : List Declared} (h : Reads plan a a' names) :
    Reads plan (a.map Prod.fst) (a'.map Prod.fst) names := by
  constructor
  · rw [h.eq, List.map_map, List.map_map]
    rfl
  · intro n hn
    obtain ⟨d, hd, rfl⟩ := List.mem_map.1 hn
    exact h.mem d hd

/-- What was read less what was read before. -/
theorem without {a a' seen seen' : List String} (h : Reads plan a a' names)
    (hseen : Reads plan seen seen' names) (hplan : plan.Separates names) :
    Reads plan (a.filter fun n => !seen.contains n) (a'.filter fun n => !seen'.contains n) names := by
  constructor
  · rw [h.eq, hseen.eq, List.filter_map]
    refine congrArg _ (List.filter_congr fun n hn => congrArg not ?_)
    rw [Bool.eq_iff_iff, List.contains_iff_mem, List.contains_iff_mem]
    constructor
    · intro hmem
      obtain ⟨m, hm, heq⟩ := List.mem_map.1 hmem
      rwa [← hplan m (hseen.mem m hm) n (h.mem n hn) heq]
    · exact fun hmem => List.mem_map_of_mem hmem
  · exact fun n hn => h.mem n (List.mem_filter.1 hn).1

end Reads

namespace Tree

/-- What is read off a tree looks at the form of its root: all leaves give the same, and it makes no
difference whether a property is written short. -/
structure LooksAtForm {β : Type} (g : Tree → β) (b : β) : Prop where
  leaf : ∀ t : Tree, t.isNode = false → g t = b
  property : ∀ info info' ps, g (.node (.property info) ps) = g (.node (.property info') ps)
  bindingProperty : ∀ s c s' c' ps,
    g (.node (.bindingProperty s c) ps) = g (.node (.bindingProperty s' c') ps)

/-- What looks at the form of a root changes under a plan in one way when it does so for each form, with the
parts under the plan. -/
theorem apply_map_of_form {β : Type} {plan : ModulePlan} {g : Tree → β} (k : β → β) (b : β) (hk : k b = b)
    (h : LooksAtForm g b) (hnode : ∀ f ps, g (.node f (applyAll plan ps)) = k (g (.node f ps))) (t : Tree) :
    g (t.apply plan) = k (g t) := by
  cases t with
  | node f ps =>
    have hsettle := f.settle_congr (g := fun f => g (.node f (applyAll plan ps)))
      (fun _ _ => h.property _ _ _) (fun _ _ _ _ => h.bindingProperty _ _ _ _ _) (applyAll plan ps)
    exact hsettle.trans (hnode f ps)
  | string lit | number lit =>
    refine Eq.trans ?_ (hk.symm.trans (congrArg k (h.leaf _ rfl).symm))
    rw [apply, ModulePlan.replace]
    split <;> exact h.leaf _ rfl
  | _ => exact (h.leaf _ rfl).trans (hk.symm.trans (congrArg k (h.leaf _ rfl).symm))

/-- What looks at the form of a root stays as it is when it does so for each form, with the parts under the
plan. -/
theorem apply_eq_of_form {β : Type} {plan : ModulePlan} {g : Tree → β} (b : β) (h : LooksAtForm g b)
    (hnode : ∀ f ps, g (.node f (applyAll plan ps)) = g (.node f ps)) : ∀ t : Tree, g (t.apply plan) = g t :=
  apply_map_of_form id b rfl h hnode

/-- What is read off a tree looks at leaves that are no names of the module and no literals. -/
structure LooksAtLeaf {β : Type} (g : Tree → β) (b : β) : Prop where
  node : ∀ f ps f' ps', g (.node f ps) = g (.node f' ps')
  binding : ∀ m n, g (.binding m) = g (.binding n)
  reference : ∀ n, g (.reference n) = b
  string : ∀ lit, g (.string lit) = b
  number : ∀ lit, g (.number lit) = b

/-- What looks at leaves that a plan keeps stays as it is. -/
theorem apply_eq_of_leaf {β : Type} {plan : ModulePlan} {g : Tree → β} (b : β) (h : LooksAtLeaf g b)
    (t : Tree) : g (t.apply plan) = g t := by
  cases t with
  | node f ps => exact h.node _ _ _ _
  | binding n => exact h.binding _ _
  | reference n => exact (h.reference _).trans (h.reference _).symm
  | string lit =>
    rw [apply, ModulePlan.replace]
    split
    · rw [h.reference, h.string]
    · rfl
  | number lit =>
    rw [apply, ModulePlan.replace]
    split
    · rw [h.reference, h.number]
    · rfl
  | _ => rfl

/-! ## Variables on their way out -/

section

variable {plan : ModulePlan} {names : List String}

mutual

theorem reads_escapingVars (hplan : plan.Separates names) :
    ∀ {t : Tree}, t.leafNames ⊆ names → Reads plan t.escapingVars (t.apply plan).escapingVars names
  | .node f ps, hnames => by
    refine .of_settle (fun _ _ _ => rfl) (fun _ _ _ _ _ => rfl) ?_
    have hps : Reads plan (escapingFrom [] ps) (escapingFrom [] (applyAll plan ps)) names :=
      reads_escapingFrom hplan .nil hnames
    cases f with
    | «variables» word _ =>
      cases word with
      | var => exact (reads_declaratorNames plan ps).mono hnames
      | _ => exact hps
    | «catch» =>
      refine reads_escapingFrom hplan ?_ hnames
      cases ps with
      | nil => exact .nil
      | cons p ps => exact ((reads_boundNames plan p).part List.mem_cons_self).mono hnames
    | function _ | arrow _ _ | «class» _ | staticBlock | «namespace» _ _ | global _ => exact .nil
    | _ => exact hps
  | .string _, _ => .of_literal rfl fun _ => rfl
  | .number _, _ => .of_literal rfl fun _ => rfl
  | .binding _, _ | .reference _, _ | .absent, _ | .name _, _ | .markupName _, _ | .label _, _
  | .privateName _, _ | .quoted _, _ => .nil

theorem reads_escapingFrom (hplan : plan.Separates names) :
    ∀ {ts : List Tree} {seen seen' : List String}, Reads plan seen seen' names →
      leafNamesOf ts ⊆ names →
      Reads plan (escapingFrom seen ts) (escapingFrom seen' (applyAll plan ts)) names
  | [], _, _, _, _ => .nil
  | t :: ts, seen, seen', hseen, hnames => by
    obtain ⟨ht, hts⟩ := List.append_subset.1 hnames
    have hdeclared := ((reads_declared plan t).map_fst).mono ht
    exact ((reads_escapingVars hplan ht).without hseen hplan).append
      (reads_escapingFrom hplan (hseen.append hdeclared) hts)

end

theorem reads_settledVars {ts : List Tree} (hplan : plan.Separates (leafNamesOf ts)) :
    Reads plan (settledVars ts) (settledVars (applyAll plan ts)) (leafNamesOf ts) := by
  refine (reads_allVarNames plan ts).without (.flatMap fun t ht => ?_) hplan
  have hsub : t.leafNames ⊆ leafNamesOf ts := fun n hn => mem_leafNamesOf.2 ⟨t, ht, hn⟩
  exact reads_escapingVars (hplan.mono hsub) (List.Subset.refl _)

/-- Whether the head of a loop declares names for the loop alone. -/
def isLoopScope : Tree → Bool
  | .node (.variables word _) _ => word.isLexical
  | _ => false

theorem opensBlock_loop {f : Form} (hf : f = .for ∨ f = .forIn ∨ ∃ await, f = .forOf await) (t : Tree)
    (ts : List Tree) : opensBlock f (t :: ts) = t.isLoopScope := by
  rcases hf with rfl | rfl | ⟨_, rfl⟩
  all_goals
    cases t with
    | node g ps => cases g <;> rfl
    | _ => rfl

/-- A form opens a block under a plan when it did before. -/
theorem opensBlock_applyAll (plan : ModulePlan) (f : Form) (ps : List Tree) :
    opensBlock f (applyAll plan ps) = opensBlock f ps := by
  have hscope : ∀ t : Tree, (t.apply plan).isLoopScope = t.isLoopScope :=
    apply_eq_of_form false ⟨by rintro (_ | _) ⟨⟩ <;> rfl, fun _ _ _ => rfl, fun _ _ _ _ _ => rfl⟩
      fun f ps => by cases f <;> rfl
  by_cases hf : f = .for ∨ f = .forIn ∨ ∃ await, f = .forOf await
  · cases ps with
    | nil => rfl
    | cons t ts => rw [applyAll_cons, opensBlock_loop hf, opensBlock_loop hf, hscope]
  · cases f with
    | «for» | forIn | forOf _ => simp at hf
    | _ => rfl

/-- The `var` names of a node, unless something keeps them. -/
def ownVars : Form → List Tree → List String
  | .variables .var _, ps => declaratorNames ps
  | _, ps => directVarsOf ps

theorem directVars_node (f : Form) (ps : List Tree) :
    directVars (.node f ps) = if keepsVars f || opensBlock f ps then [] else ownVars f ps := by
  cases f with
  | «variables» word _ => cases word <;> rfl
  | _ => rfl

mutual

theorem reads_directVars (plan : ModulePlan) :
    ∀ t : Tree, Reads plan t.directVars (t.apply plan).directVars t.leafNames
  | .node f ps => by
    refine .of_settle (fun _ _ _ => rfl) (fun _ _ _ _ _ => rfl) ?_
    have hps := reads_directVarsOf plan ps
    rw [directVars_node, directVars_node, opensBlock_applyAll]
    split
    · exact .nil
    · cases f with
      | «variables» word _ =>
        cases word with
        | var => exact reads_declaratorNames plan ps
        | _ => exact hps
      | _ => exact hps
  | .string _ => .of_literal rfl fun _ => rfl
  | .number _ => .of_literal rfl fun _ => rfl
  | .binding _ | .reference _ | .absent | .name _ | .markupName _ | .label _
  | .privateName _ | .quoted _ => .nil

theorem reads_directVarsOf (plan : ModulePlan) :
    ∀ ts : List Tree, Reads plan (directVarsOf ts) (directVarsOf (applyAll plan ts)) (leafNamesOf ts)
  | [] => .nil
  | t :: ts =>
    ((reads_directVars plan t).mono (List.subset_append_left _ _)).append
      ((reads_directVarsOf plan ts).mono (List.subset_append_right _ _))

end

/-! ## The declarations of a scope -/

/-- The kind of the names that a statement declares in its own scope. -/
def declaredKind (strict : Bool) (standing : Standing) : Tree → DeclarationKind
  | .node (.function info) _ => functionKind strict standing info
  | .node (.class _) _ => .classType
  | .node (.typeAlias _) _ => .typeAlias
  | .node (.interface _) _ => .interface
  | .node (.enum const _) _ => .enum const
  | .node (.namespace _ _) (_ :: body) => spaceKind body
  | .node (.importEquals _) _ | .node (.import _ _) _ => .import
  | .node (.exportNamed _) (d :: _) => d.declaredKind strict standing
  | .node .exportDefault (d :: _) => d.declaredKind strict standing
  | .node .labelled (_ :: s :: _) => s.declaredKind strict standing
  | _ => .lexical

theorem withKind_withNature (kind : DeclarationKind) (nature : Nature) (names : List String) :
    withKind kind ((withNature nature names).map Prod.fst) = withKind kind names := by
  rw [withNature, List.map_map]
  exact congrArg _ (List.map_id names)

/-- What a statement declares in its own scope are names of one kind. -/
theorem lexicalDeclarations_eq (strict : Bool) (standing : Standing) (t : Tree) :
    t.lexicalDeclarations strict standing =
      withKind (t.declaredKind strict standing) (t.declared.map Prod.fst) := by
  cases t with
  | node f ps =>
    cases f with
    | «variables» word _ =>
      cases word with
      | var => rfl
      | _ => exact (withKind_withNature _ _ _).symm
    | function info =>
      cases ps with
      | nil => rfl
      | cons n ps =>
        rcases info with ⟨role, _, _, _⟩
        cases role with
        | declaration | signature => exact (withKind_withNature _ _ _).symm
        | _ => rfl
    | «class» info =>
      rcases ps with _ | ⟨_, _ | ⟨n, _⟩⟩
      · rfl
      · rfl
      · rcases info with ⟨expression, _, _⟩
        cases expression with
        | true => rfl
        | false => exact (withKind_withNature _ _ _).symm
    | typeAlias _ | interface _ | enum _ _ | «namespace» _ _ | importEquals _ =>
      cases ps with
      | nil => rfl
      | cons n ps => exact (withKind_withNature _ _ _).symm
    | «import» typeOnly _ =>
      rcases ps with _ | ⟨specifiers, _⟩
      · rfl
      · cases specifiers with
        | node g _ => cases g <;> rfl
        | _ => rfl
    | exportNamed _ =>
      rcases ps with _ | ⟨d, _ | ⟨_, _ | ⟨_, _ | ⟨_, _ | _⟩⟩⟩⟩
      case cons.cons.cons.cons.nil => exact lexicalDeclarations_eq strict standing d
      all_goals rfl
    | exportDefault =>
      rcases ps with _ | ⟨d, _ | _⟩
      case cons.nil => exact lexicalDeclarations_eq strict standing d
      all_goals rfl
    | labelled =>
      rcases ps with _ | ⟨_, _ | ⟨s, _ | _⟩⟩
      case cons.cons.nil => exact lexicalDeclarations_eq strict standing s
      all_goals rfl
    | _ => rfl
  | _ => rfl

theorem declaredKind_apply (plan : ModulePlan) (strict : Bool) (standing : Standing) :
    ∀ t : Tree, (t.apply plan).declaredKind strict standing = t.declaredKind strict standing
  | .node f ps => by
    have hsettle := f.settle_congr
      (g := fun f => declaredKind strict standing (.node f (applyAll plan ps))) (fun _ _ => rfl)
      (fun _ _ _ _ => rfl) (applyAll plan ps)
    refine hsettle.trans ?_
    cases f with
    | «namespace» _ _ =>
      cases ps with
      | nil => rfl
      | cons n body => exact congrArg (fun b => if b = true then _ else _) (anyValue_applyAll plan body)
    | exportNamed _ | exportDefault =>
      cases ps with
      | nil => rfl
      | cons d ps => exact declaredKind_apply plan strict standing d
    | labelled =>
      obtain _ | ⟨_, _ | ⟨s, ps⟩⟩ := ps
      · rfl
      · rfl
      · exact declaredKind_apply plan strict standing s
    | _ => rfl
  | .string _ | .number _ => by
    rw [apply, ModulePlan.replace]
    split <;> rfl
  | .binding _ | .reference _ | .absent | .name _ | .markupName _ | .label _ | .privateName _
  | .quoted _ => rfl

theorem reads_lexicalDeclarations (plan : ModulePlan) (strict : Bool) (standing : Standing) (t : Tree) :
    Reads plan (t.lexicalDeclarations strict standing) ((t.apply plan).lexicalDeclarations strict standing)
      t.leafNames := by
  rw [lexicalDeclarations_eq, lexicalDeclarations_eq, declaredKind_apply]
  exact ((reads_declared plan t).map_fst).withKind _

/-- The declarations of statements under a plan. -/
theorem reads_scopeDeclarations (strict : Bool) (standing : Standing) {ts : List Tree}
    (hplan : plan.Separates (leafNamesOf ts)) :
    Reads plan (scopeDeclarations strict standing ts)
      (scopeDeclarations strict standing (applyAll plan ts)) (leafNamesOf ts) := by
  refine .flatMap fun t ht => ?_
  have hplan := hplan.mono fun n hn => mem_leafNamesOf.2 ⟨t, ht, hn⟩
  have hdirect := reads_directVars plan t
  have hescaping := reads_escapingVars hplan (List.Subset.refl _)
  have hsettled : Reads plan (settledVars [t]) (settledVars (applyAll plan [t])) (leafNamesOf [t]) :=
    reads_settledVars (hplan.mono (by simp [leafNamesOf]))
  refine (((reads_lexicalDeclarations plan strict standing t).append (hdirect.withKind .variable)).append
    ((hescaping.without hdirect hplan).withKind .passingVariable)).append ?_
  exact (hsettled.mono (by simp [leafNamesOf])).withKind .settledVariable

/-! ## Functions -/

theorem applyAll_eq_map (plan : ModulePlan) (ts : List Tree) : applyAll plan ts = ts.map (apply plan) := by
  induction ts with
  | nil => rfl
  | cons t ts ih => rw [applyAll_cons, ih, List.map_cons]

/-- Whether a statement is the directive for strict code. -/
def isStrictDirective : Tree → Bool
  | .node (.directive raw) _ => raw == "use strict"
  | _ => false

theorem opensStrict_body (ss : List Tree) : opensStrict (.node .body ss) = ss.any isStrictDirective := rfl

theorem opensStrict_apply (plan : ModulePlan) : ∀ t : Tree, (t.apply plan).opensStrict = t.opensStrict := by
  have hdirective : ∀ t : Tree, (t.apply plan).isStrictDirective = t.isStrictDirective :=
    apply_eq_of_form false ⟨by rintro (_ | _) ⟨⟩ <;> rfl, fun _ _ _ => rfl, fun _ _ _ _ _ => rfl⟩
      fun f ps => by cases f <;> rfl
  refine apply_eq_of_form false ⟨by rintro (_ | _) ⟨⟩ <;> rfl, fun _ _ _ => rfl, fun _ _ _ _ _ => rfl⟩
    fun f ps => ?_
  cases f with
  | body =>
    rw [opensStrict_body, opensStrict_body, applyAll_eq_map, List.any_map]
    exact congrArg ps.any (funext hdirective)
  | _ => rfl

theorem isAbsent_apply (plan : ModulePlan) : ∀ t : Tree, (t.apply plan).isAbsent = t.isAbsent :=
  apply_eq_of_leaf false ⟨fun _ _ _ _ => rfl, fun _ _ => rfl, fun _ => rfl, fun _ => rfl, fun _ => rfl⟩

/-- Whether a tree is a name that is introduced. -/
def isBinding : Tree → Bool
  | .binding _ => true
  | _ => false

theorem isBinding_apply (plan : ModulePlan) : ∀ t : Tree, (t.apply plan).isBinding = t.isBinding :=
  apply_eq_of_leaf false ⟨fun _ _ _ _ => rfl, fun _ _ => rfl, fun _ => rfl, fun _ => rfl, fun _ => rfl⟩

/-- Whether a parameter is a plain name without a default. -/
def isSimpleParam : Tree → Bool
  | .node (.param _ _) [_, p, _, init] => p.isBinding && init.isAbsent
  | _ => false

theorem hasSimpleParams_params (ps : List Tree) :
    hasSimpleParams (.node .params ps) = ps.all isSimpleParam := by
  refine congrArg ps.all (funext fun t => ?_)
  cases t with
  | node f qs =>
    cases f with
    | param ms optional =>
      obtain _ | ⟨d, _ | ⟨p, _ | ⟨type, _ | ⟨init, _ | ⟨_, _⟩⟩⟩⟩⟩ := qs
      any_goals rfl
      all_goals cases p <;> rfl
    | _ => rfl
  | _ => rfl

theorem isSimpleParam_apply (plan : ModulePlan) :
    ∀ t : Tree, (t.apply plan).isSimpleParam = t.isSimpleParam := by
  refine apply_eq_of_form false ⟨by rintro (_ | _) ⟨⟩ <;> rfl, fun _ _ _ => rfl, fun _ _ _ _ _ => rfl⟩
    fun f ps => ?_
  cases f with
  | param ms optional =>
    obtain _ | ⟨d, _ | ⟨p, _ | ⟨type, _ | ⟨init, _ | ⟨_, _⟩⟩⟩⟩⟩ := ps
    any_goals rfl
    exact congrArg₂ and (isBinding_apply plan p) (isAbsent_apply plan init)
  | _ => rfl

theorem hasSimpleParams_apply (plan : ModulePlan) :
    ∀ t : Tree, (t.apply plan).hasSimpleParams = t.hasSimpleParams := by
  refine apply_eq_of_form true ⟨by rintro (_ | _) ⟨⟩ <;> rfl, fun _ _ _ => rfl, fun _ _ _ _ _ => rfl⟩
    fun f ps => ?_
  cases f with
  | params =>
    rw [hasSimpleParams_params, hasSimpleParams_params, applyAll_eq_map, List.all_map]
    exact congrArg ps.all (funext (isSimpleParam_apply plan))
  | _ => rfl

/-- The declarations of a function body, which shares them with the parameters. -/
def bodyDeclarations (strict : Bool) : Tree → List Declaration
  | .node .body ss => scopeDeclarations strict .head ss
  | _ => []

theorem reads_bodyDeclarations (strict : Bool) {t : Tree} (hplan : plan.Separates t.leafNames) :
    Reads plan (bodyDeclarations strict t) (bodyDeclarations strict (t.apply plan)) t.leafNames := by
  cases t with
  | node f ss =>
    refine .of_settle (fun _ _ _ => rfl) (fun _ _ _ _ _ => rfl) ?_
    cases f with
    | body => exact reads_scopeDeclarations strict .head hplan
    | _ => exact .nil
  | string _ | number _ => exact .of_literal rfl fun _ => rfl
  | _ => exact .nil

theorem reads_functionDeclarations (strict unique : Bool) {params body : Tree} {ps : List Tree}
    (hparams : params ∈ ps) (hbody : body ∈ ps) (hplan : plan.Separates (leafNamesOf ps)) :
    Reads plan (functionDeclarations strict unique params body)
      (functionDeclarations strict unique (params.apply plan) (body.apply plan)) (leafNamesOf ps) := by
  have hsub : body.leafNames ⊆ leafNamesOf ps := fun n hn => mem_leafNamesOf.2 ⟨body, hbody, hn⟩
  exact (((reads_allParamNames plan params).withKind (.parameter unique)).part hparams).append
    ((reads_bodyDeclarations strict (hplan.mono hsub)).part hbody)

/-- The declarations of a loop under a plan. -/
theorem reads_loopDeclarations (strict : Bool) {head : Tree} {rest : List Tree}
    (hplan : plan.Separates (leafNamesOf (head :: rest))) :
    Reads plan (loopDeclarations strict head rest)
      (loopDeclarations strict (head.apply plan) (applyAll plan rest)) (leafNamesOf (head :: rest)) := by
  have hrest : leafNamesOf rest ⊆ leafNamesOf (head :: rest) := List.subset_append_right _ _
  have hescaping : Reads plan (rest.flatMap escapingVars) ((applyAll plan rest).flatMap escapingVars)
      (leafNamesOf rest) := by
    refine .flatMap fun t ht => ?_
    exact reads_escapingVars (hplan.mono fun n hn => hrest (mem_leafNamesOf.2 ⟨t, ht, hn⟩))
      (List.Subset.refl _)
  refine (((reads_lexicalDeclarations plan strict .block head).part List.mem_cons_self).append
    ((hescaping.mono hrest).withKind .passingVariable)).append ?_
  exact ((reads_settledVars (hplan.mono hrest)).mono hrest).withKind .settledVariable

theorem reads_caughtNames (plan : ModulePlan) (p : Tree) :
    Reads plan (declarations.caughtNames p) (declarations.caughtNames (p.apply plan)) p.leafNames := by
  have hpart : ∀ t : Tree, t.isNode = true → Reads plan (declarations.caughtNames t)
      (declarations.caughtNames (t.apply plan)) t.leafNames := by
    intro t ht
    cases t with
    | node f ps => exact (reads_boundNames plan (.node f ps)).withKind .caughtPart
    | _ => cases ht
  cases p with
  | binding n => exact ⟨rfl, fun d hd => List.mem_singleton.2 (List.mem_singleton.1 hd ▸ rfl)⟩
  | node f ps => exact hpart _ rfl
  | string _ | number _ => exact .of_literal rfl fun _ => rfl
  | _ => exact .nil

/-! ## The scopes of a tree -/

/-- The name of a member of an enumeration, if it has one that can be used. -/
def memberName? : Tree → Option String
  | .node (.enumMember _) (.name n :: _) => some n
  | .node (.enumMember _) (.quoted lit :: _) => some lit.value
  | _ => none

/-- The members of an enumeration keep their names. -/
theorem memberNames_applyAll (plan : ModulePlan) (ms : List Tree) :
    memberNames (applyAll plan ms) = memberNames ms := by
  have hmember : ∀ m : Tree, (m.apply plan).memberName? = m.memberName? := by
    refine apply_eq_of_form none ⟨by rintro (_ | _) ⟨⟩ <;> rfl, fun _ _ _ => rfl, fun _ _ _ _ _ => rfl⟩
      fun f ps => ?_
    cases f with
    | enumMember computed =>
      cases ps with
      | nil => rfl
      | cons k ps =>
        cases k with
        | string _ | number _ =>
          rw [applyAll_cons, apply, ModulePlan.replace]
          split <;> rfl
        | _ => rfl
    | _ => rfl
  change (applyAll plan ms).filterMap memberName? = ms.filterMap memberName?
  rw [applyAll_eq_map, List.filterMap_map]
  exact congrArg (List.filterMap · ms) (funext hmember)

/-- **The declarations of the scope that a form opens**, under a plan. -/
theorem reads_declarations (around : Surroundings) {f : Form} (hf : ∀ c a, f ≠ .enum c a) {ps : List Tree}
    (hplan : plan.Separates (leafNamesOf ps)) :
    Reads plan (declarations around f ps) (declarations around f (applyAll plan ps)) (leafNamesOf ps) := by
  cases f with
  | function info =>
    obtain _ | ⟨_, _ | ⟨_, _ | ⟨_, _ | ⟨params, _ | ⟨_, _ | ⟨body, _ | ⟨_, _⟩⟩⟩⟩⟩⟩⟩ := ps
    any_goals exact .nil
    simp only [applyAll_cons, applyAll_nil, declarations, opensStrict_apply, hasSimpleParams_apply]
    exact reads_functionDeclarations _ _ (by simp) (by simp) hplan
  | arrow async concise =>
    obtain _ | ⟨_, _ | ⟨params, _ | ⟨_, _ | ⟨body, _ | ⟨_, _⟩⟩⟩⟩⟩ := ps
    any_goals exact .nil
    simp only [applyAll_cons, applyAll_nil, declarations, opensStrict_apply]
    exact reads_functionDeclarations _ _ (by simp) (by simp) hplan
  | block | moduleBlock => exact reads_scopeDeclarations _ _ hplan
  | staticBlock => exact reads_scopeDeclarations _ _ hplan
  | «for» | forIn | forOf _ =>
    cases ps with
    | nil => exact .nil
    | cons head rest => exact reads_loopDeclarations _ hplan
  | switch =>
    cases ps with
    | nil => exact .nil
    | cons test cases =>
      obtain ⟨hcases, hsub⟩ := caseStatements_applyAll plan cases
      have hsub : leafNamesOf (caseStatements cases) ⊆ leafNamesOf (test :: cases) :=
        fun n hn => List.mem_append_right _ (hsub hn)
      rw [applyAll_cons, declarations, declarations, hcases]
      exact (reads_scopeDeclarations _ _ (hplan.mono hsub)).mono hsub
  | «catch» =>
    cases ps with
    | nil => exact .nil
    | cons p ps => exact (reads_caughtNames plan p).part List.mem_cons_self
  | enum c a => exact absurd rfl (hf c a)
  | _ => exact .nil

/-- The trees of a sequence that has no form of its own. -/
def groupParts? : Tree → Option (List Tree)
  | .node .group ts => some ts
  | _ => none

theorem groupParts?_apply (plan : ModulePlan) :
    ∀ t : Tree, (t.apply plan).groupParts? = t.groupParts?.map (applyAll plan) :=
  apply_map_of_form (Option.map (applyAll plan)) none rfl
    ⟨by rintro (_ | _) ⟨⟩ <;> rfl, fun _ _ _ => rfl, fun _ _ _ _ _ => rfl⟩ fun f ps => by cases f <;> rfl

/-- The members that an enumeration declares. -/
def enumMembers : List Tree → List Tree
  | [_, t] => t.groupParts?.getD []
  | _ => []

theorem enumMembers_applyAll (plan : ModulePlan) (ps : List Tree) :
    enumMembers (applyAll plan ps) = applyAll plan (enumMembers ps) := by
  obtain _ | ⟨_, _ | ⟨t, _ | ⟨_, _⟩⟩⟩ := ps
  any_goals rfl
  simp only [applyAll_cons, applyAll_nil, enumMembers, groupParts?_apply]
  cases t.groupParts? <;> rfl

theorem declarations_enum (around : Surroundings) (c a : Bool) (ps : List Tree) :
    declarations around (.enum c a) ps = withKind .enumMember (memberNames (enumMembers ps)) := by
  obtain _ | ⟨_, _ | ⟨t, _ | ⟨_, _⟩⟩⟩ := ps
  any_goals rfl
  all_goals
    cases t with
    | node f _ => cases f <;> rfl
    | _ => rfl

/-- The declarations of an enumeration stay as they are. -/
theorem declarations_enum_applyAll (plan : ModulePlan) (around : Surroundings) (c a : Bool)
    (ps : List Tree) :
    declarations around (.enum c a) (applyAll plan ps) = declarations around (.enum c a) ps := by
  rw [declarations_enum, declarations_enum, enumMembers_applyAll, memberNames_applyAll]

theorem declarations_settle (around : Surroundings) (f : Form) (qs ps : List Tree) :
    declarations around (f.settle qs) ps = declarations around f ps :=
  f.settle_congr (g := fun f => declarations around f ps) (fun _ _ => rfl) (fun _ _ _ _ => rfl) qs

theorem declarations_under (around : Surroundings) (f : Form) (ps : List Tree) :
    declarations (around.under plan) f ps = declarations around f ps := rfl

/-- The surroundings of a part under a plan. -/
theorem surroundings_apply (plan : ModulePlan) (around : Surroundings) (f : Form) (ps : List Tree)
    (i : Nat) :
    surroundings (around.under plan) (f.settle (applyAll plan ps)) (applyAll plan ps) i =
      (surroundings around f ps i).under plan := by
  cases f with
  | function info =>
    obtain _ | ⟨_, _ | ⟨_, _ | ⟨_, _ | ⟨params, _ | ⟨_, _ | ⟨body, _ | ⟨_, _⟩⟩⟩⟩⟩⟩⟩ := ps
    case cons.cons.cons.cons.cons.cons.nil =>
      exact congrArg (fun strict => (⟨around.strict || strict, [], false⟩ : Surroundings))
        (opensStrict_apply plan body)
    all_goals rfl
  | arrow async concise =>
    obtain _ | ⟨_, _ | ⟨params, _ | ⟨_, _ | ⟨body, _ | ⟨_, _⟩⟩⟩⟩⟩ := ps
    case cons.cons.cons.cons.nil =>
      exact congrArg (fun strict => (⟨around.strict || strict, [], false⟩ : Surroundings))
        (opensStrict_apply plan body)
    all_goals rfl
  | «catch» =>
    cases ps with
    | nil => rfl
    | cons p ps =>
      have hshared : (if i = 2 then declarations.caughtNames (p.apply plan) else []) =
          (if i = 2 then declarations.caughtNames p else []).map (Spelled.respell plan) := by
        split
        · exact (reads_caughtNames plan p).eq
        · rfl
      exact congrArg (fun shared => (⟨around.strict, shared, false⟩ : Surroundings)) hshared
  | property info | bindingProperty _ _ =>
    obtain _ | ⟨_, _ | ⟨_, _ | ⟨_, _⟩⟩⟩ := ps <;> rfl
  | _ => rfl

/-- What a scope shares with the node around it are names of that node, and no members. -/
theorem shared_surroundings {around : Surroundings} {f : Form} {ps : List Tree} {i : Nat} {d : Declaration}
    (hd : d ∈ (surroundings around f ps i).shared) : d.name ∈ leafNamesOf ps ∧ d.kind ≠ .enumMember := by
  cases f with
  | «catch» =>
    cases ps with
    | nil => exact absurd hd List.not_mem_nil
    | cons p ps =>
      change d ∈ if i = 2 then declarations.caughtNames p else [] at hd
      split at hd
      · refine ⟨List.mem_append_left _ ((reads_caughtNames default p).mem d hd), ?_⟩
        unfold declarations.caughtNames at hd
        split at hd
        · rw [List.mem_singleton.1 hd]
          exact fun h => by cases h
        · obtain ⟨n, -, rfl⟩ := List.mem_map.1 hd
          exact fun h => by cases h
      · exact absurd hd List.not_mem_nil
  | function _ =>
    obtain _ | ⟨_, _ | ⟨_, _ | ⟨_, _ | ⟨_, _ | ⟨_, _ | ⟨_, _ | ⟨_, _⟩⟩⟩⟩⟩⟩⟩ := ps
    all_goals exact absurd hd List.not_mem_nil
  | arrow _ _ =>
    obtain _ | ⟨_, _ | ⟨_, _ | ⟨_, _ | ⟨_, _ | ⟨_, _⟩⟩⟩⟩⟩ := ps
    all_goals exact absurd hd List.not_mem_nil
  | _ => exact absurd hd List.not_mem_nil

end

end Tree

/-! ## Counting -/

theorem any_congr {α : Type} {p q : α → Bool} {as : List α} (h : ∀ a ∈ as, p a = q a) :
    as.any p = as.any q := by
  rw [Bool.eq_iff_iff, List.any_eq_true, List.any_eq_true]
  exact exists_congr fun a => and_congr_right fun ha => by rw [h a ha]

/-- Declarations that clash with none of those given can be counted without them. -/
theorem countClashes_skip {skipped : List Declaration} :
    ∀ {ds more : List Declaration}, (∀ d ∈ ds, d.clashesWith skipped = false) →
      countClashes (more ++ skipped) ds = countClashes more ds
  | [], _, _ => rfl
  | d :: ds, more, h => by
    have hd : d.clashesWith (more ++ skipped) = d.clashesWith more := by
      have := h d List.mem_cons_self
      unfold Declaration.clashesWith at this ⊢
      rw [List.any_append, this, Bool.or_false]
    have hds : countClashes ((d :: more) ++ skipped) ds = countClashes (d :: more) ds :=
      countClashes_skip fun e he => h e (List.mem_cons_of_mem _ he)
    rw [countClashes, countClashes, hd, ← hds, List.cons_append]

theorem countClashes_append :
    ∀ (as bs earlier : List Declaration),
      countClashes earlier (as ++ bs) = countClashes earlier as + countClashes (as.reverse ++ earlier) bs
  | [], _, _ => (Nat.zero_add _).symm
  | a :: as, bs, earlier => by
    rw [List.cons_append, countClashes, countClashes_append, countClashes, List.reverse_cons,
      List.append_assoc, List.singleton_append, Nat.add_assoc]

/-- As many declarations clash when no two names are written alike. -/
theorem countClashes_map {plan : ModulePlan} {names : List String} (hplan : plan.Separates names) :
    ∀ {ds earlier : List Declaration}, (∀ d ∈ ds, d.name ∈ names) → (∀ e ∈ earlier, e.name ∈ names) →
      countClashes (earlier.map (Spelled.respell plan)) (ds.map (Spelled.respell plan)) =
        countClashes earlier ds
  | [], _, _, _ => rfl
  | d :: ds, earlier, hds, hearlier => by
    have hd := hds d List.mem_cons_self
    have hclash : (Spelled.respell plan d : Declaration).clashesWith (earlier.map (Spelled.respell plan)) =
        d.clashesWith earlier := by
      unfold Declaration.clashesWith
      rw [List.any_map]
      refine any_congr fun e he => ?_
      have hname : (plan.rename e.name == plan.rename d.name) = (e.name == d.name) := by
        rw [Bool.eq_iff_iff, beq_iff_eq, beq_iff_eq]
        exact ⟨hplan _ (hearlier e he) _ hd, congrArg _⟩
      exact congrArg (· && d.kind.clashes e.kind) hname
    have hrest : countClashes ((d :: earlier).map (Spelled.respell plan))
        (ds.map (Spelled.respell plan)) = countClashes (d :: earlier) ds :=
      countClashes_map hplan (fun e he => hds e (List.mem_cons_of_mem _ he))
        (List.forall_mem_cons.2 ⟨hd, hearlier⟩)
    rw [List.map_cons, countClashes, countClashes, hclash, ← hrest, List.map_cons]

namespace Tree

variable {plan : ModulePlan} {names : List String}

/-- The declarations of a scope clash as they did. -/
theorem countClashes_declarations (hplan : plan.Separates names) {around : Surroundings} {f : Form}
    {ps : List Tree} (hps : leafNamesOf ps ⊆ names)
    (hshared : ∀ d ∈ around.shared, d.name ∈ names ∧ d.kind ≠ .enumMember) :
    countClashes (around.under plan).shared
        (declarations (around.under plan) (f.settle (applyAll plan ps)) (applyAll plan ps)) =
      countClashes around.shared (declarations around f ps) := by
  rw [declarations_settle, declarations_under]
  by_cases hf : ∃ c a, f = .enum c a
  -- Members clash with members alone, and there are none in what is shared.
  · obtain ⟨c, a, rfl⟩ := hf
    rw [declarations_enum_applyAll]
    have hapart : ∀ earlier : List Declaration, (∀ e ∈ earlier, e.kind ≠ .enumMember) →
        countClashes earlier (declarations around (.enum c a) ps) =
          countClashes [] (declarations around (.enum c a) ps) := by
      intro earlier hearlier
      change countClashes ([] ++ earlier) _ = _
      refine countClashes_skip fun d hd => ?_
      rw [declarations_enum] at hd
      obtain ⟨n, -, rfl⟩ := List.mem_map.1 hd
      refine List.any_eq_false.2 fun e he => ?_
      simp [DeclarationKind.clashes, hearlier e he]
    refine (hapart _ fun e he => ?_).trans (hapart _ fun e he => (hshared e he).2).symm
    obtain ⟨e', he', rfl⟩ := List.mem_map.1 he
    exact (hshared e' he').2
  · have hreads := reads_declarations around (fun c a h => hf ⟨c, a, h⟩) (hplan.mono hps)
    rw [hreads.eq]
    exact countClashes_map hplan (fun d hd => hps (hreads.mem d hd)) fun d hd => (hshared d hd).1

mutual

/-- **As many declarations of a tree clash** under a plan as before. -/
theorem clashes_apply (hplan : plan.Separates names) :
    ∀ {t : Tree} {around : Surroundings}, t.leafNames ⊆ names →
      (∀ d ∈ around.shared, d.name ∈ names ∧ d.kind ≠ .enumMember) →
      (t.apply plan).clashes (around.under plan) = t.clashes around
  | .node f ps, around, hnames, hshared => by
    rw [apply_node, clashes, clashes, countClashes_declarations hplan hnames hshared,
      clashesOf_applyAll hplan hnames hnames]
  | .string _, _, _, _ | .number _, _, _, _ => by
    rw [apply, ModulePlan.replace]
    split <;> rfl
  | .binding _, _, _, _ | .reference _, _, _, _ | .absent, _, _, _ | .name _, _, _, _
  | .markupName _, _, _, _ | .label _, _, _, _ | .privateName _, _, _, _ | .quoted _, _, _, _ => rfl

theorem clashesOf_applyAll (hplan : plan.Separates names) {f : Form} {all : List Tree}
    (hall : leafNamesOf all ⊆ names) :
    ∀ {ts : List Tree} {around : Surroundings} {i : Nat}, leafNamesOf ts ⊆ names →
      clashesOf (f.settle (applyAll plan all)) (applyAll plan all) (around.under plan) i
          (applyAll plan ts) =
        clashesOf f all around i ts
  | [], _, _, _ => rfl
  | t :: ts, around, i, hnames => by
    obtain ⟨ht, hts⟩ := List.append_subset.1 hnames
    rw [applyAll_cons, clashesOf, clashesOf, surroundings_apply, clashes_apply hplan ht,
      clashesOf_applyAll hplan hall hts]
    intro d hd
    obtain ⟨hname, hkind⟩ := shared_surroundings hd
    exact ⟨hall hname, hkind⟩

end

end Tree

end Abridge
