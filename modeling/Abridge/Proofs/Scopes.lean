import Abridge.Plan.Apply
import Abridge.Proofs.Shape
import Mathlib.Tactic.SplitIfs

/-!
# Scopes under a plan

A plan changes leaves, and a scope is read off the leaves of the tree that opens it.  So the names of a
scope under a plan are the names that it had, respelled: nothing is declared that was not declared
before, and nothing is lost.  This is shown function by function, along the way in which
`Abridge.Scope.Declared` reads the names off a tree.  Two things are shown together each time
(`Reads`), because the same cases prove both: what is read under the plan is what was read before,
respelled, and it occurs in the tree.

One scope is different.  The members of an enumeration are property names, which a plan never touches,
and yet they can be used inside the enumeration without it.  A plan leaves that scope as it is.

## What is here

* `Reads`: what a reader gives before and after a plan is applied, and how readers are put together.
* `reads_scopeNames`: the names of a scope under a plan.
* `scopeNames_enum`: the members of an enumeration under a plan.
-/

set_option autoImplicit false

namespace Abridge

/-! ## Readers -/

/-- Things that have a spelling. -/
class Spelled (α : Type) where
  /-- The spelling. -/
  spelling : α → String
  /-- The thing under a plan. -/
  respell : ModulePlan → α → α

instance : Spelled String := ⟨id, ModulePlan.rename⟩

instance : Spelled Declared := ⟨Prod.fst, fun plan d => (plan.rename d.1, d.2)⟩

/-- What is read before and after a plan is applied, from something with the names given. -/
structure Reads {α : Type} [Spelled α] (plan : ModulePlan) (before after : List α)
    (names : List String) : Prop where
  eq : after = before.map (Spelled.respell plan)
  mem : ∀ x ∈ before, Spelled.spelling x ∈ names

namespace Reads

section

variable {α β : Type} [Spelled α] [Spelled β] {plan : ModulePlan} {a a' b b' : List α}
  {names names' : List String}

theorem nil : Reads plan ([] : List α) [] names := ⟨rfl, fun _ h => absurd h List.not_mem_nil⟩

theorem append (ha : Reads plan a a' names) (hb : Reads plan b b' names) :
    Reads plan (a ++ b) (a' ++ b') names := by
  constructor
  · rw [ha.eq, hb.eq, List.map_append]
  · exact fun x hx => (List.mem_append.1 hx).elim (ha.mem x) (hb.mem x)

theorem mono (h : Reads plan a a' names) (hnames : names ⊆ names') : Reads plan a a' names' :=
  ⟨h.eq, fun x hx => hnames (h.mem x hx)⟩

/-- What is read off a part is read off the whole. -/
theorem part {t : Tree} {ts : List Tree} (h : Reads plan a a' t.leafNames) (ht : t ∈ ts) :
    Reads plan a a' (Tree.leafNamesOf ts) :=
  h.mono fun _ hn => Tree.mem_leafNamesOf.2 ⟨t, ht, hn⟩

theorem withNature {ns ns' : List String} (h : Reads plan ns ns' names) (nature : Nature) :
    Reads plan (Tree.withNature nature ns) (Tree.withNature nature ns') names := by
  constructor
  · rw [h.eq, Tree.withNature, Tree.withNature, List.map_map, List.map_map]
    rfl
  · intro x hx
    obtain ⟨n, hn, rfl⟩ := List.mem_map.1 hx
    exact h.mem n hn

end

end Reads

/-- How a form settles: short forms may be written out, and nothing else changes. -/
theorem Form.settle_cases (f : Form) (ps : List Tree) :
    f.settle ps = f ∨ (∃ info info', f = .property info ∧ f.settle ps = .property info') ∨
      ∃ s c s' c', f = .bindingProperty s c ∧ f.settle ps = .bindingProperty s' c' := by
  unfold settle
  split
  · exact .inr (.inl ⟨_, _, rfl, rfl⟩)
  · exact .inr (.inr ⟨_, _, _, _, rfl, rfl⟩)
  · exact .inl rfl

/-- What does not tell short forms apart is the same for a settled form. -/
theorem Form.settle_congr {β : Type} {g : Form → β}
    (hp : ∀ info info', g (.property info) = g (.property info'))
    (hb : ∀ s c s' c', g (.bindingProperty s c) = g (.bindingProperty s' c')) (f : Form)
    (ps : List Tree) : g (f.settle ps) = g f := by
  rcases f.settle_cases ps with heq | ⟨info, info', rfl, heq⟩ | ⟨s, c, s', c', rfl, heq⟩
  · rw [heq]
  · rw [heq]
    exact hp info' info
  · rw [heq]
    exact hb s' c' s c

namespace Tree

@[simp] theorem apply_node (plan : ModulePlan) (f : Form) (ps : List Tree) :
    (Tree.node f ps).apply plan = .node (f.settle (applyAll plan ps)) (applyAll plan ps) := rfl

@[simp] theorem applyAll_nil (plan : ModulePlan) : applyAll plan [] = [] := rfl

@[simp] theorem applyAll_cons (plan : ModulePlan) (t : Tree) (ts : List Tree) :
    applyAll plan (t :: ts) = t.apply plan :: applyAll plan ts := rfl

theorem applyAll_append (plan : ModulePlan) (ts us : List Tree) :
    applyAll plan (ts ++ us) = applyAll plan ts ++ applyAll plan us := by
  induction ts with
  | nil => rfl
  | cons t ts ih => rw [List.cons_append, applyAll_cons, ih, applyAll_cons, List.cons_append]

theorem leafNamesOf_append (ts us : List Tree) :
    leafNamesOf (ts ++ us) = leafNamesOf ts ++ leafNamesOf us := by
  induction ts with
  | nil => rfl
  | cons t ts ih => rw [List.cons_append, leafNamesOf, ih, leafNamesOf, List.append_assoc]

/-- What a plan puts in the place of a literal is a leaf. -/
theorem replace_ne_node (plan : ModulePlan) (site : Nat) {t : Tree} (ht : ∀ f ps, t ≠ .node f ps)
    (f : Form) (ps : List Tree) : plan.replace site t ≠ .node f ps := by
  unfold ModulePlan.replace
  split
  · exact fun h => by cases h
  · exact ht f ps

/-- Whether a tree has parts. -/
def isNode : Tree → Bool
  | .node _ _ => true
  | _ => false

end Tree

namespace Reads

section

variable {α : Type} [Spelled α] {plan : ModulePlan}

/-- What is read off several trees, one after the other. -/
theorem flatMap {g : Tree → List α} :
    ∀ {ts : List Tree}, (∀ t ∈ ts, Reads plan (g t) (g (t.apply plan)) t.leafNames) →
      Reads plan (ts.flatMap g) ((Tree.applyAll plan ts).flatMap g) (Tree.leafNamesOf ts)
  | [], _ => nil
  | t :: ts, h => by
    have ht := h t List.mem_cons_self
    have hts := flatMap fun u hu => h u (List.mem_cons_of_mem _ hu)
    rw [List.flatMap_cons, Tree.applyAll_cons, List.flatMap_cons]
    exact (ht.mono (List.subset_append_left _ _)).append (hts.mono (List.subset_append_right _ _))

/-- A literal gives nothing, whether a plan replaces it or not. -/
theorem of_literal {g : Tree → List α} {site : Nat} {t : Tree} (h : g t = [])
    (href : ∀ key, g (.reference key) = []) {names : List String} :
    Reads plan (g t) (g (plan.replace site t)) names := by
  have hreplace : g (plan.replace site t) = [] := by
    unfold ModulePlan.replace
    split
    · exact href _
    · exact h
  rw [h, hreplace]
  exact nil

/-- A reader that does not look at short forms. -/
theorem of_settle {g : Tree → List α}
    (hp : ∀ info info' ps, g (.node (.property info) ps) = g (.node (.property info') ps))
    (hb : ∀ s c s' c' ps,
      g (.node (.bindingProperty s c) ps) = g (.node (.bindingProperty s' c') ps))
    {f : Form} {ps : List Tree} {names : List String}
    (h : Reads plan (g (.node f ps)) (g (.node f (Tree.applyAll plan ps))) names) :
    Reads plan (g (.node f ps)) (g ((Tree.node f ps).apply plan)) names := by
  have hsettle : g ((Tree.node f ps).apply plan) = g (.node f (Tree.applyAll plan ps)) :=
    f.settle_congr (g := fun f => g (.node f (Tree.applyAll plan ps))) (fun _ _ => hp _ _ _)
      (fun _ _ _ _ => hb _ _ _ _ _) _
  rwa [hsettle]

/-- **A reader that looks at forms**: it gives nothing for leaves, it does not look at short forms, and
for each form it gives what belongs to its parts. -/
theorem of_node {g : Tree → List α} (hleaf : ∀ t : Tree, t.isNode = false → g t = [])
    (hp : ∀ info info' ps, g (.node (.property info) ps) = g (.node (.property info') ps))
    (hb : ∀ s c s' c' ps,
      g (.node (.bindingProperty s c) ps) = g (.node (.bindingProperty s' c') ps))
    (hnode : ∀ f ps, Reads plan (g (.node f ps)) (g (.node f (Tree.applyAll plan ps)))
      (Tree.leafNamesOf ps)) (t : Tree) : Reads plan (g t) (g (t.apply plan)) t.leafNames := by
  have hnil : ∀ u v : Tree, u.isNode = false → v.isNode = false → Reads plan (g u) (g v) u.leafNames := by
    intro u v hu hv
    rw [hleaf u hu, hleaf v hv]
    exact nil
  cases t with
  | node f ps => exact of_settle hp hb (hnode f ps)
  | string lit => exact of_literal (hleaf _ rfl) fun _ => hleaf _ rfl
  | number lit => exact of_literal (hleaf _ rfl) fun _ => hleaf _ rfl
  | _ => exact hnil _ _ rfl rfl

end

end Reads

namespace Tree

/-! ## Patterns -/

mutual

theorem reads_boundNames (plan : ModulePlan) :
    ∀ t : Tree, Reads plan t.boundNames (t.apply plan).boundNames t.leafNames
  | .binding n => ⟨rfl, fun _ h => h⟩
  | .node f ps => by
    refine .of_settle (fun _ _ _ => rfl) ?_ ?_
    · rintro _ _ _ _ (_ | ⟨_, _ | ⟨_, _ | ⟨_, _⟩⟩⟩) <;> rfl
    cases f with
    | objectPattern => exact reads_boundNamesOf plan ps
    | arrayPattern => exact reads_boundNamesOf plan ps
    | bindingProperty _ _ =>
      rcases ps with _ | ⟨_, _ | ⟨p, _ | ⟨_, _⟩⟩⟩
      · exact .nil
      · exact .nil
      · exact (reads_boundNames plan p).part (by simp)
      · exact .nil
    | defaulted =>
      rcases ps with _ | ⟨p, _ | ⟨_, _ | ⟨_, _⟩⟩⟩
      · exact .nil
      · exact .nil
      · exact (reads_boundNames plan p).part (by simp)
      · exact .nil
    | rest =>
      rcases ps with _ | ⟨p, _ | ⟨_, _⟩⟩
      · exact .nil
      · exact (reads_boundNames plan p).part (by simp)
      · exact .nil
    | _ => exact .nil
  | .string _ => .of_literal rfl fun _ => rfl
  | .number _ => .of_literal rfl fun _ => rfl
  | .reference _ | .absent | .name _ | .markupName _ | .label _ | .privateName _ | .quoted _ => .nil

theorem reads_boundNamesOf (plan : ModulePlan) :
    ∀ ts : List Tree, Reads plan (boundNamesOf ts) (boundNamesOf (applyAll plan ts)) (leafNamesOf ts)
  | [] => .nil
  | t :: ts =>
    ((reads_boundNames plan t).mono (List.subset_append_left _ _)).append
      ((reads_boundNamesOf plan ts).mono (List.subset_append_right _ _))

end

theorem reads_paramNames (plan : ModulePlan) (t : Tree) :
    Reads plan t.paramNames (t.apply plan).paramNames t.leafNames := by
  refine .of_node (fun t h => by cases t <;> first | rfl | cases h) (fun _ _ _ => rfl)
    (fun _ _ _ _ _ => rfl) (fun f ps => ?_) t
  cases f with
  | param _ _ =>
    rcases ps with _ | ⟨_, _ | ⟨p, _⟩⟩
    · exact .nil
    · exact .nil
    · exact (reads_boundNames plan p).part (by simp)
  | restParam =>
    rcases ps with _ | ⟨_, _ | ⟨p, _⟩⟩
    · exact .nil
    · exact .nil
    · exact (reads_boundNames plan p).part (by simp)
  | _ => exact .nil

theorem reads_allParamNames (plan : ModulePlan) (t : Tree) :
    Reads plan t.allParamNames (t.apply plan).allParamNames t.leafNames := by
  refine .of_node (fun t h => by cases t <;> first | rfl | cases h) (fun _ _ _ => rfl)
    (fun _ _ _ _ _ => rfl) (fun f ps => ?_) t
  cases f with
  | params => exact .flatMap fun t _ => reads_paramNames plan t
  | _ => exact .nil

/-- The name of a type parameter. -/
def typeParamName : Tree → List String
  | .node (.typeParam _) (n :: _) => n.boundNames
  | _ => []

/-- The names of a declarator. -/
def declaratorName : Tree → List String
  | .node (.declarator _) (p :: _) => p.boundNames
  | _ => []

theorem reads_typeParamNames (plan : ModulePlan) (t : Tree) :
    Reads plan t.typeParamNames (t.apply plan).typeParamNames t.leafNames := by
  refine .of_node (fun t h => by cases t <;> first | rfl | cases h) (fun _ _ _ => rfl)
    (fun _ _ _ _ _ => rfl) (fun f ps => ?_) t
  cases f with
  | typeParams =>
    refine .flatMap fun t _ => ?_
    change Reads plan (typeParamName t) (typeParamName (t.apply plan)) t.leafNames
    refine .of_node (fun t h => by cases t <;> first | rfl | cases h) (fun _ _ _ => rfl)
      (fun _ _ _ _ _ => rfl) (fun f ps => ?_) t
    cases f with
    | typeParam _ =>
      rcases ps with _ | ⟨n, _⟩
      · exact .nil
      · exact (reads_boundNames plan n).part (by simp)
    | _ => exact .nil
  | _ => exact .nil

theorem reads_declaratorNames (plan : ModulePlan) (ds : List Tree) :
    Reads plan (declaratorNames ds) (declaratorNames (applyAll plan ds)) (leafNamesOf ds) := by
  refine .flatMap fun t _ => ?_
  change Reads plan (declaratorName t) (declaratorName (t.apply plan)) t.leafNames
  refine .of_node (fun t h => by cases t <;> first | rfl | cases h) (fun _ _ _ => rfl)
    (fun _ _ _ _ _ => rfl) (fun f ps => ?_) t
  cases f with
  | declarator _ =>
    rcases ps with _ | ⟨p, _⟩
    · exact .nil
    · exact (reads_boundNames plan p).part (by simp)
  | _ => exact .nil

/-! ## Namespaces -/

theorem isEmpty_parts_apply (plan : ModulePlan) (t : Tree) :
    (t.apply plan).parts.isEmpty = t.parts.isEmpty := by
  cases t with
  | node f ps => cases ps <;> rfl
  | string lit | number lit =>
    rw [apply, ModulePlan.replace]
    split <;> rfl
  | _ => rfl

theorem passesOn_apply (plan : ModulePlan) (specs d : Tree) :
    passesOn (specs.apply plan) (d.apply plan) = passesOn specs d := by
  cases d with
  | absent => exact congrArg not (isEmpty_parts_apply plan specs)
  | node f ps =>
    have hsettle := f.settle_congr
      (g := fun f => passesOn (specs.apply plan) (.node f (applyAll plan ps))) (fun _ _ => rfl)
      (fun _ _ _ _ => rfl) (applyAll plan ps)
    refine hsettle.trans ?_
    cases f <;> rfl
  | string lit | number lit =>
    rw [apply, ModulePlan.replace]
    split <;> rfl
  | _ => rfl

mutual

theorem isValue_apply (plan : ModulePlan) : ∀ t : Tree, (t.apply plan).isValue = t.isValue
  | .node f ps => by
    have hsettle : isValue (.node (f.settle (applyAll plan ps)) (applyAll plan ps)) =
        isValue (.node f (applyAll plan ps)) :=
      f.settle_congr (g := fun f => isValue (.node f (applyAll plan ps))) (fun _ _ => rfl)
        (fun _ _ _ _ => rfl) _
    rw [apply_node, hsettle]
    cases f with
    | exportNamed _ =>
      obtain _ | ⟨d, _ | ⟨specs, _ | ⟨a, _ | ⟨b, _ | ⟨_, _⟩⟩⟩⟩⟩ := ps
      case cons.cons.cons.cons.nil =>
        exact congrArg₂ or (passesOn_apply plan specs d) (isValue_apply plan d)
      all_goals rfl
    | «namespace» _ _ =>
      obtain _ | ⟨_, _ | ⟨body, _ | ⟨_, _⟩⟩⟩ := ps
      case cons.cons.nil => exact isValue_apply plan body
      all_goals rfl
    | moduleBlock => exact anyValue_applyAll plan ps
    | _ => rfl
  | .string _ | .number _ => by
    rw [apply, ModulePlan.replace]
    split <;> rfl
  | .binding _ | .reference _ | .absent | .name _ | .markupName _ | .label _ | .privateName _
  | .quoted _ => rfl

theorem anyValue_applyAll (plan : ModulePlan) : ∀ ts : List Tree, anyValue (applyAll plan ts) = anyValue ts
  | [] => rfl
  | t :: ts => by
    rw [applyAll_cons, anyValue, anyValue, isValue_apply plan t, anyValue_applyAll plan ts]

end

/-! ## Statements -/

theorem reads_importedName (plan : ModulePlan) (typeOnly : Bool) (t : Tree) :
    Reads plan (t.importedName typeOnly) ((t.apply plan).importedName typeOnly) t.leafNames := by
  refine .of_node (fun t h => by cases t <;> first | rfl | cases h) (fun _ _ _ => rfl)
    (fun _ _ _ _ _ => rfl) (fun f ps => ?_) t
  cases f with
  | importDefault =>
    rcases ps with _ | ⟨n, _ | ⟨_, _⟩⟩
    · exact .nil
    · exact ((reads_boundNames plan n).withNature _).part (by simp)
    · exact .nil
  | importAll =>
    rcases ps with _ | ⟨n, _ | ⟨_, _⟩⟩
    · exact .nil
    · exact ((reads_boundNames plan n).withNature _).part (by simp)
    · exact .nil
  | importNamed alone =>
    rcases ps with _ | ⟨_, _ | ⟨n, _ | ⟨_, _⟩⟩⟩
    · exact .nil
    · exact .nil
    · exact ((reads_boundNames plan n).withNature _).part (by simp)
    · exact .nil
  | _ => exact .nil

theorem reads_imported (plan : ModulePlan) (typeOnly : Bool) (phase : Option String) (t : Tree)
    (ts ts' : List Tree) :
    Reads plan (declared (.node (.import typeOnly phase) (t :: ts)))
      (declared (.node (.import typeOnly phase) (t.apply plan :: ts'))) t.leafNames := by
  have hrest : ∀ (u : Tree) us, declared (.node (.import typeOnly phase) (u :: us)) =
      declared (.node (.import typeOnly phase) [u]) := by
    rintro (_ | _ | _ | _ | _ | _ | _ | _ | _ | _ | ⟨f, _⟩) us
    all_goals first | rfl | cases f <;> rfl
  rw [hrest, hrest (t.apply plan)]
  refine .of_node (g := fun t => declared (.node (.import typeOnly phase) [t]))
    (fun t h => by cases t <;> first | rfl | cases h) (fun _ _ _ => rfl)
    (fun _ _ _ _ _ => rfl) (fun f ps => ?_) t
  cases f with
  | group => exact .flatMap fun t _ => reads_importedName plan typeOnly t
  | _ => exact .nil

theorem reads_declared (plan : ModulePlan) :
    ∀ t : Tree, Reads plan t.declared (t.apply plan).declared t.leafNames
  | .node f ps => by
    refine .of_settle (fun _ _ _ => rfl) (fun _ _ _ _ _ => rfl) ?_
    have hfirst : ∀ (nature : Nature) (n : Tree) (qs : List Tree),
        Reads plan (withNature nature n.boundNames) (withNature nature (n.apply plan).boundNames)
          (leafNamesOf (n :: qs)) :=
      fun nature n _ => ((reads_boundNames plan n).withNature nature).part (by simp)
    cases f with
    | «variables» word _ =>
      cases word with
      | var => exact .nil
      | _ => exact (reads_declaratorNames plan ps).withNature _
    | function info =>
      rcases ps with _ | ⟨n, ps⟩
      · exact .nil
      · rcases info with ⟨role, _, _, _⟩
        cases role with
        | declaration => exact hfirst .value n ps
        | signature => exact hfirst .value n ps
        | _ => exact .nil
    | «class» info =>
      rcases ps with _ | ⟨_, _ | ⟨n, _⟩⟩
      · exact .nil
      · exact .nil
      · rcases info with ⟨expression, _, _⟩
        cases expression with
        | true => exact .nil
        | false => exact ((reads_boundNames plan n).withNature _).part (by simp)
    | typeAlias _ =>
      rcases ps with _ | ⟨n, ps⟩
      · exact .nil
      · exact hfirst .type n ps
    | interface _ =>
      rcases ps with _ | ⟨n, ps⟩
      · exact .nil
      · exact hfirst .type n ps
    | enum _ _ =>
      rcases ps with _ | ⟨n, ps⟩
      · exact .nil
      · exact hfirst .both n ps
    | «namespace» _ _ =>
      rcases ps with _ | ⟨n, ps⟩
      · exact .nil
      · change Reads plan _ (withNature (spaceNature (applyAll plan ps)) _) _
        rw [spaceNature, anyValue_applyAll]
        exact hfirst _ n ps
    | importEquals typeOnly =>
      rcases ps with _ | ⟨n, ps⟩
      · exact .nil
      · exact hfirst _ n ps
    | «import» typeOnly phase =>
      rcases ps with _ | ⟨s, ps⟩
      · exact .nil
      · exact (reads_imported plan typeOnly phase s ps _).part (by simp)
    | exportNamed _ =>
      rcases ps with _ | ⟨d, _ | ⟨_, _ | ⟨_, _ | ⟨_, _ | ⟨_, _⟩⟩⟩⟩⟩
      · exact .nil
      · exact .nil
      · exact .nil
      · exact .nil
      · exact (reads_declared plan d).part (by simp)
      · exact .nil
    | exportDefault =>
      rcases ps with _ | ⟨d, _ | ⟨_, _⟩⟩
      · exact .nil
      · exact (reads_declared plan d).part (by simp)
      · exact .nil
    | labelled =>
      rcases ps with _ | ⟨_, _ | ⟨s, _ | ⟨_, _⟩⟩⟩
      · exact .nil
      · exact .nil
      · exact (reads_declared plan s).part (by simp)
      · exact .nil
    | _ => exact .nil
  | .string _ => .of_literal rfl fun _ => rfl
  | .number _ => .of_literal rfl fun _ => rfl
  | .binding _ | .reference _ | .absent | .name _ | .markupName _ | .label _ | .privateName _
  | .quoted _ => .nil

theorem reads_allDeclared (plan : ModulePlan) (ts : List Tree) :
    Reads plan (allDeclared ts) (allDeclared (applyAll plan ts)) (leafNamesOf ts) :=
  .flatMap fun t _ => reads_declared plan t

/-! ## Variables of a function -/

mutual

theorem reads_varNames (plan : ModulePlan) :
    ∀ t : Tree, Reads plan t.varNames (t.apply plan).varNames t.leafNames
  | .node f ps => by
    refine .of_settle (fun _ _ _ => rfl) (fun _ _ _ _ _ => rfl) ?_
    cases f with
    | «variables» word _ =>
      cases word with
      | var => exact reads_declaratorNames plan ps
      | _ => exact reads_allVarNames plan ps
    | function _ => exact .nil
    | arrow _ _ => exact .nil
    | «class» _ => exact .nil
    | staticBlock => exact .nil
    | «namespace» _ _ => exact .nil
    | global _ => exact .nil
    | _ => exact reads_allVarNames plan ps
  | .string _ => .of_literal rfl fun _ => rfl
  | .number _ => .of_literal rfl fun _ => rfl
  | .binding _ | .reference _ | .absent | .name _ | .markupName _ | .label _ | .privateName _
  | .quoted _ => .nil

theorem reads_allVarNames (plan : ModulePlan) :
    ∀ ts : List Tree, Reads plan (allVarNames ts) (allVarNames (applyAll plan ts)) (leafNamesOf ts)
  | [] => .nil
  | t :: ts =>
    ((reads_varNames plan t).mono (List.subset_append_left _ _)).append
      ((reads_allVarNames plan ts).mono (List.subset_append_right _ _))

end

theorem reads_functionScope (plan : ModulePlan) (ts : List Tree) :
    Reads plan (functionScope ts) (functionScope (applyAll plan ts)) (leafNamesOf ts) :=
  (reads_allDeclared plan ts).append ((reads_allVarNames plan ts).withNature .value)

theorem reads_bodyScope (plan : ModulePlan) (t : Tree) :
    Reads plan t.bodyScope (t.apply plan).bodyScope t.leafNames := by
  refine .of_node (fun t h => by cases t <;> first | rfl | cases h) (fun _ _ _ => rfl)
    (fun _ _ _ _ _ => rfl) (fun f ps => ?_) t
  cases f with
  | body => exact reads_functionScope plan ps
  | _ => exact .nil

/-! ## Types and clauses -/

theorem inferredNames_inferType {ps : List Tree}
    (h : ¬∃ ms n qs, ps = [.node (.typeParam ms) (n :: qs)]) :
    inferredNames (.node .inferType ps) = allInferredNames ps := by
  rw [inferredNames]
  · exact fun ms n qs _ hps => h ⟨ms, n, qs, hps⟩
  · exact fun h => by cases h

/-- A node that is no short form comes from a node of the same form. -/
theorem exists_of_apply_eq_node {plan : ModulePlan} {t : Tree} {us : List Tree} {f : Form}
    (h : t.apply plan = .node f us) (hp : ∀ info, f ≠ .property info)
    (hb : ∀ s c, f ≠ .bindingProperty s c) : ∃ vs, t = .node f vs ∧ applyAll plan vs = us := by
  cases t with
  | node f' vs =>
    obtain ⟨hf, hvs⟩ := Tree.node.inj h
    rcases f'.settle_cases (applyAll plan vs) with heq | ⟨_, _, _, heq⟩ | ⟨_, _, _, _, _, heq⟩
    · exact ⟨vs, by rw [← hf, heq], hvs⟩
    · exact absurd (hf.symm.trans heq) (hp _)
    · exact absurd (hf.symm.trans heq) (hb _ _)
  | string lit => exact absurd h (replace_ne_node plan _ (fun _ _ h => by cases h) _ _)
  | number lit => exact absurd h (replace_ne_node plan _ (fun _ _ h => by cases h) _ _)
  | _ => cases h

theorem exists_of_applyAll_eq_cons {plan : ModulePlan} {ts us : List Tree} {u : Tree}
    (h : applyAll plan ts = u :: us) :
    ∃ v vs, ts = v :: vs ∧ v.apply plan = u ∧ applyAll plan vs = us := by
  cases ts with
  | nil => cases h
  | cons v vs => exact ⟨v, vs, rfl, List.head_eq_of_cons_eq h, List.tail_eq_of_cons_eq h⟩

theorem exists_typeParam_of_applyAll {plan : ModulePlan} {ps : List Tree} {ms : List String} {n : Tree}
    {qs : List Tree} (h : applyAll plan ps = [.node (.typeParam ms) (n :: qs)]) :
    ∃ ms n qs, ps = [.node (.typeParam ms) (n :: qs)] := by
  obtain ⟨t, ts, rfl, ht, hts⟩ := exists_of_applyAll_eq_cons h
  obtain ⟨vs, rfl, hvs⟩ :=
    exists_of_apply_eq_node ht (fun _ h => by cases h) (fun _ _ h => by cases h)
  obtain ⟨v, vs, rfl, -, -⟩ := exists_of_applyAll_eq_cons hvs
  cases ts with
  | nil => exact ⟨ms, v, vs, rfl⟩
  | cons _ _ => cases hts

mutual

theorem reads_inferredNames (plan : ModulePlan) :
    ∀ t : Tree, Reads plan t.inferredNames (t.apply plan).inferredNames t.leafNames
  | .node f ps => by
    refine .of_settle (fun _ _ _ => rfl) (fun _ _ _ _ _ => rfl) ?_
    cases f with
    | conditionalType => exact .nil
    | inferType =>
      -- Anything but a single type parameter is walked like the parts of any other form.
      by_cases hparam : ∃ ms n qs, ps = [.node (.typeParam ms) (n :: qs)]
      · obtain ⟨ms, n, qs, rfl⟩ := hparam
        exact ((reads_boundNames plan n).part (List.mem_cons_self (l := qs))).part
          (List.mem_singleton.2 rfl)
      · have hparam' : ¬∃ ms n qs, applyAll plan ps = [.node (.typeParam ms) (n :: qs)] :=
          fun ⟨_, _, _, h⟩ => hparam (exists_typeParam_of_applyAll h)
        rw [inferredNames_inferType hparam, inferredNames_inferType hparam']
        exact reads_allInferredNames plan ps
    | _ => exact reads_allInferredNames plan ps
  | .string _ => .of_literal rfl fun _ => rfl
  | .number _ => .of_literal rfl fun _ => rfl
  | .binding _ | .reference _ | .absent | .name _ | .markupName _ | .label _ | .privateName _
  | .quoted _ => .nil

theorem reads_allInferredNames (plan : ModulePlan) :
    ∀ ts : List Tree, Reads plan (allInferredNames ts) (allInferredNames (applyAll plan ts)) (leafNamesOf ts)
  | [] => .nil
  | t :: ts =>
    ((reads_inferredNames plan t).mono (List.subset_append_left _ _)).append
      ((reads_allInferredNames plan ts).mono (List.subset_append_right _ _))

end

/-- The statements of a clause under a plan. -/
theorem caseStatements_apply (plan : ModulePlan) (c : Tree) :
    caseStatements [c.apply plan] = applyAll plan (caseStatements [c]) ∧
      leafNamesOf (caseStatements [c]) ⊆ c.leafNames := by
  have hnone : ∀ {c : Tree}, (∀ t ss, c ≠ .node .case (t :: ss)) → caseStatements [c] = [] := by
    intro c hc
    unfold caseStatements
    rw [List.flatMap_singleton]
    split
    · exact absurd rfl (hc _ _)
    · rfl
  by_cases hc : ∃ t ss, c = .node .case (t :: ss)
  · obtain ⟨t, ss, rfl⟩ := hc
    simp [caseStatements, Form.settle, leafNames, leafNamesOf]
  · have hc' : ∀ t ss, c.apply plan ≠ .node .case (t :: ss) := by
      intro t ss h
      obtain ⟨vs, rfl, hvs⟩ :=
        exists_of_apply_eq_node h (fun _ h => by cases h) (fun _ _ h => by cases h)
      obtain ⟨v, vs, rfl, -, -⟩ := exists_of_applyAll_eq_cons hvs
      exact hc ⟨v, vs, rfl⟩
    rw [hnone hc', hnone fun t ss h => hc ⟨t, ss, h⟩]
    exact ⟨rfl, List.nil_subset _⟩

/-- The statements of the clauses under a plan. -/
theorem caseStatements_applyAll (plan : ModulePlan) (cases : List Tree) :
    caseStatements (applyAll plan cases) = applyAll plan (caseStatements cases) ∧
      leafNamesOf (caseStatements cases) ⊆ leafNamesOf cases := by
  induction cases with
  | nil => exact ⟨rfl, List.Subset.refl _⟩
  | cons c cases ih =>
    have hsplit : ∀ (c : Tree) cs, caseStatements (c :: cs) = caseStatements [c] ++ caseStatements cs := by
      simp [caseStatements]
    obtain ⟨hc, hsub⟩ := caseStatements_apply plan c
    rw [applyAll_cons, hsplit, hsplit c, hc, ih.1, applyAll_append, leafNamesOf_append]
    refine ⟨rfl, List.append_subset.2 ⟨fun n hn => ?_, fun n hn => ?_⟩⟩
    · exact List.mem_append_left _ (hsub hn)
    · exact List.mem_append_right _ (ih.2 hn)

end Tree

/-! ## The scopes that forms open -/

theorem reads_signatureScope (plan : ModulePlan) (typeParams params : Tree) {ps : List Tree}
    (htype : typeParams ∈ ps) (hparams : params ∈ ps) :
    Reads plan (signatureScope typeParams params)
      (signatureScope (typeParams.apply plan) (params.apply plan)) (Tree.leafNamesOf ps) :=
  (((Tree.reads_typeParamNames plan typeParams).withNature .type).part htype).append
    (((Tree.reads_allParamNames plan params).withNature .value).part hparams)

/-- The name of a function expression under a plan. -/
theorem reads_ownName (plan : ModulePlan) (f : Form) (ps : List Tree) :
    Reads plan (ownName f ps) (ownName f (Tree.applyAll plan ps)) (Tree.leafNamesOf ps) := by
  cases f with
  | function info =>
    rcases ps with _ | ⟨n, ps⟩
    · exact .nil
    · rw [Tree.applyAll_cons, ownName, ownName]
      split
      · exact ((Tree.reads_boundNames plan n).withNature .value).part List.mem_cons_self
      · exact .nil
  | _ => exact .nil

/-- The names of the scope that a form opens for its part at a position, none where it opens no scope. -/
def scopeNames (f : Form) (ps : List Tree) (i : Nat) : List Declared := (scopeOf f ps i).getD []

/-- A choice between scopes is read off in both ways. -/
theorem Reads.ite {plan : ModulePlan} {names : List String} {c : Prop} [Decidable c]
    {a a' b b' : Option (List Declared)} (ha : Reads plan (a.getD []) (a'.getD []) names)
    (hb : Reads plan (b.getD []) (b'.getD []) names) :
    Reads plan ((if c then a else b).getD []) ((if c then a' else b').getD []) names := by
  split
  · exact ha
  · exact hb

/-- **The names of a scope under a plan** are the names that it had, respelled. -/
theorem reads_scopeNames (plan : ModulePlan) {f : Form} (hf : ∀ c a, f ≠ .enum c a) (ps : List Tree)
    (i : Nat) : Reads plan (scopeNames f ps i) (scopeNames f (Tree.applyAll plan ps) i)
      (Tree.leafNamesOf ps) := by
  cases f with
  | function _ =>
    rcases ps with _ | ⟨n, _ | ⟨tps, _ | ⟨this, _ | ⟨qs, _ | ⟨ret, _ | ⟨body, _ | ⟨_, _⟩⟩⟩⟩⟩⟩⟩
    case cons.cons.cons.cons.cons.cons.nil =>
      have hsignature : Reads plan (signatureScope tps qs) _ (Tree.leafNamesOf [n, tps, this, qs, ret, body]) :=
        reads_signatureScope plan tps qs (by simp) (by simp)
      exact .ite .nil (.ite hsignature (hsignature.append ((Tree.reads_bodyScope plan body).part (by simp))))
    all_goals exact .nil
  | arrow _ _ =>
    rcases ps with _ | ⟨tps, _ | ⟨qs, _ | ⟨ret, _ | ⟨body, _ | ⟨_, _⟩⟩⟩⟩⟩
    case cons.cons.cons.cons.nil =>
      have hsignature : Reads plan (signatureScope tps qs) _ (Tree.leafNamesOf [tps, qs, ret, body]) :=
        reads_signatureScope plan tps qs (by simp) (by simp)
      exact .ite hsignature (hsignature.append ((Tree.reads_bodyScope plan body).part (by simp)))
    all_goals exact .nil
  | «class» info =>
    rcases ps with _ | ⟨_, _ | ⟨n, _ | ⟨tps, _⟩⟩⟩
    case cons.cons.cons =>
      have htype := (Tree.reads_typeParamNames plan tps).withNature .type
      refine .ite .nil ((htype.part (by simp)).append ?_)
      split
      · exact ((Tree.reads_boundNames plan n).withNature .both).part (by simp)
      · exact .nil
    all_goals exact .nil
  | block => exact Tree.reads_allDeclared plan ps
  | moduleBlock => exact Tree.reads_functionScope plan ps
  | staticBlock => exact Tree.reads_functionScope plan ps
  | «for» | forIn | forOf _ =>
    rcases ps with _ | ⟨left, _⟩
    · exact .nil
    · exact (Tree.reads_declared plan left).part List.mem_cons_self
  | switch =>
    rcases ps with _ | ⟨_, cases⟩
    · exact .nil
    · obtain ⟨hcases, hsub⟩ := Tree.caseStatements_applyAll plan cases
      refine .ite .nil ?_
      rw [hcases]
      exact (Tree.reads_allDeclared plan _).mono fun _ hn => List.mem_append_right _ (hsub hn)
  | «catch» =>
    rcases ps with _ | ⟨p, _⟩
    · exact .nil
    · exact ((Tree.reads_boundNames plan p).withNature .value).part List.mem_cons_self
  | typeAlias _ | interface _ =>
    rcases ps with _ | ⟨_, _ | ⟨tps, _⟩⟩
    · exact .nil
    · exact .nil
    · exact .ite .nil (((Tree.reads_typeParamNames plan tps).withNature .type).part (by simp))
  | conditionalType =>
    rcases ps with _ | ⟨_, _ | ⟨bound, _⟩⟩
    · exact .nil
    · exact .nil
    · exact .ite (((Tree.reads_inferredNames plan bound).withNature .type).part (by simp)) .nil
  | mappedType _ _ =>
    rcases ps with _ | ⟨key, _⟩
    · exact .nil
    · exact ((Tree.reads_boundNames plan key).withNature .type).part List.mem_cons_self
  | functionType | callSignature =>
    rcases ps with _ | ⟨tps, _ | ⟨_, _ | ⟨qs, _⟩⟩⟩
    case cons.cons.cons => exact reads_signatureScope plan tps qs (by simp) (by simp)
    all_goals exact .nil
  | constructorType _ | constructSignature =>
    rcases ps with _ | ⟨tps, _ | ⟨qs, _⟩⟩
    · exact .nil
    · exact .nil
    · exact reads_signatureScope plan tps qs (by simp) (by simp)
  | methodSignature _ _ _ =>
    rcases ps with _ | ⟨_, _ | ⟨tps, _ | ⟨_, _ | ⟨qs, _⟩⟩⟩⟩
    case cons.cons.cons.cons => exact .ite .nil (reads_signatureScope plan tps qs (by simp) (by simp))
    all_goals exact .nil
  | «namespace» _ _ =>
    rcases ps with _ | ⟨_, _ | ⟨body, _ | ⟨_, _⟩⟩⟩
    case cons.cons.nil => exact .ite .nil ((Tree.reads_declared plan body).part (by simp))
    all_goals exact .nil
  | enum c a => exact absurd rfl (hf c a)
  | _ => exact .nil

theorem scopeNames_settle (f : Form) (qs ps : List Tree) (i : Nat) :
    scopeNames (f.settle qs) ps i = scopeNames f ps i :=
  f.settle_congr (g := fun f => scopeNames f ps i) (fun _ _ => rfl) (fun _ _ _ _ => rfl) qs

theorem ownName_settle (f : Form) (qs ps : List Tree) : ownName (f.settle qs) ps = ownName f ps :=
  f.settle_congr (g := fun f => ownName f ps) (fun _ _ => rfl) (fun _ _ _ _ => rfl) qs

theorem useOf_settle (use : Use) (f : Form) (qs : List Tree) (i : Nat) :
    useOf use (f.settle qs) i = useOf use f i :=
  f.settle_congr (g := fun f => useOf use f i) (fun _ _ => rfl) (fun _ _ _ _ => rfl) qs

/-! ## Enumerations -/

namespace Tree

theorem apply_eq_name {plan : ModulePlan} {t : Tree} {n : String} :
    t.apply plan = .name n ↔ t = .name n := by
  cases t with
  | string lit => simp only [apply, ModulePlan.replace]; split <;> simp
  | number lit => simp only [apply, ModulePlan.replace]; split <;> simp
  | _ => simp [apply]

theorem apply_eq_quoted {plan : ModulePlan} {t : Tree} {lit : StringLiteral} :
    t.apply plan = .quoted lit ↔ t = .quoted lit := by
  cases t with
  | string lit => simp only [apply, ModulePlan.replace]; split <;> simp
  | number lit => simp only [apply, ModulePlan.replace]; split <;> simp
  | _ => simp [apply]

/-- What a tree names when it is a member of an enumeration. -/
inductive Names : Tree → String → Prop
  | name (computed : Bool) (n : String) (ts : List Tree) :
    Names (.node (.enumMember computed) (.name n :: ts)) n
  | quoted (computed : Bool) (lit : StringLiteral) (ts : List Tree) :
    Names (.node (.enumMember computed) (.quoted lit :: ts)) lit.value

theorem mem_memberNames {ms : List Tree} {n : String} :
    n ∈ memberNames ms ↔ ∃ m ∈ ms, m.Names n := by
  unfold memberNames
  rw [List.mem_filterMap]
  refine exists_congr fun m => and_congr_right fun _ => ?_
  constructor
  · intro h
    split at h
    · cases h
      exact .name _ _ _
    · cases h
      exact .quoted _ _ _
    · cases h
  · rintro (_ | _) <;> rfl

/-- A plan leaves the names of members alone. -/
theorem names_apply {plan : ModulePlan} {m : Tree} {n : String} : (m.apply plan).Names n ↔ m.Names n := by
  constructor
  · intro h
    generalize hm : m.apply plan = m' at h
    cases h with
    | name computed n ts =>
      obtain ⟨vs, rfl, hvs⟩ :=
        exists_of_apply_eq_node hm (fun _ h => by cases h) (fun _ _ h => by cases h)
      obtain ⟨v, vs, rfl, hv, -⟩ := exists_of_applyAll_eq_cons hvs
      rw [apply_eq_name.1 hv]
      exact .name _ _ _
    | quoted computed lit ts =>
      obtain ⟨vs, rfl, hvs⟩ :=
        exists_of_apply_eq_node hm (fun _ h => by cases h) (fun _ _ h => by cases h)
      obtain ⟨v, vs, rfl, hv, -⟩ := exists_of_applyAll_eq_cons hvs
      rw [apply_eq_quoted.1 hv]
      exact .quoted _ _ _
  · rintro (_ | _)
    · exact .name _ _ _
    · exact .quoted _ _ _

theorem mem_memberNames_applyAll {plan : ModulePlan} {ms : List Tree} {n : String} :
    n ∈ memberNames (applyAll plan ms) ↔ n ∈ memberNames ms := by
  induction ms with
  | nil => rfl
  | cons m ms ih =>
    rw [mem_memberNames, mem_memberNames] at ih ⊢
    simp only [applyAll_cons, List.mem_cons, or_and_right, exists_or, exists_eq_left, names_apply, ih]

end Tree

theorem mem_scopeNames_enum {c a : Bool} {ps : List Tree} {i : Nat} {d : Declared} :
    d ∈ scopeNames (.enum c a) ps i ↔
      ∃ n ms, ps = [n, .node .group ms] ∧ i ≠ 0 ∧ d.2 = .both ∧ d.1 ∈ Tree.memberNames ms := by
  by_cases h : ∃ n ms, ps = [n, .node .group ms]
  · obtain ⟨n, ms, rfl⟩ := h
    have hscope : scopeNames (.enum c a) [n, .node .group ms] i =
        (if i = 0 then none else some (Tree.withNature .both (Tree.memberNames ms))).getD [] := rfl
    rw [hscope]
    by_cases hi : i = 0
    · simp [hi]
    · rw [if_neg hi, Option.getD_some, Tree.withNature, List.mem_map]
      constructor
      · rintro ⟨m, hm, rfl⟩
        exact ⟨n, ms, rfl, hi, rfl, hm⟩
      · rintro ⟨_, _, hps, -, hd, hm⟩
        cases hps
        exact ⟨d.1, hm, Prod.ext rfl hd.symm⟩
  · have hnil : scopeNames (.enum c a) ps i = [] := by
      rcases ps with _ | ⟨n, _ | ⟨t, _ | ⟨_, _⟩⟩⟩
      · rfl
      · rfl
      · cases t with
        | node g ms =>
          cases g with
          | group => exact absurd ⟨n, ms, rfl⟩ h
          | _ => rfl
        | _ => rfl
      · cases t with
        | node g _ => cases g <;> rfl
        | _ => rfl
    rw [hnil]
    constructor
    · exact fun hd => absurd hd List.not_mem_nil
    · rintro ⟨n, ms, hps, -⟩
      exact absurd ⟨n, ms, hps⟩ h

/-- **The members of an enumeration under a plan** are the members that it had. -/
theorem mem_scopeNames_enum_applyAll {plan : ModulePlan} {c a : Bool} {ps : List Tree} {i : Nat}
    {d : Declared} :
    d ∈ scopeNames (.enum c a) (Tree.applyAll plan ps) i ↔ d ∈ scopeNames (.enum c a) ps i := by
  rw [mem_scopeNames_enum, mem_scopeNames_enum]
  constructor
  · rintro ⟨n, ms, hps, hi, hd, hm⟩
    obtain ⟨u, us, rfl, -, hus⟩ := Tree.exists_of_applyAll_eq_cons hps
    obtain ⟨v, vs, rfl, hv, hvs⟩ := Tree.exists_of_applyAll_eq_cons hus
    obtain ⟨ms', rfl, rfl⟩ :=
      Tree.exists_of_apply_eq_node hv (fun _ h => by cases h) (fun _ _ h => by cases h)
    cases vs with
    | nil => exact ⟨u, ms', rfl, hi, hd, Tree.mem_memberNames_applyAll.1 hm⟩
    | cons _ _ => cases hvs
  · rintro ⟨n, ms, rfl, hi, hd, hm⟩
    exact ⟨_, _, rfl, hi, hd, Tree.mem_memberNames_applyAll.2 hm⟩

end Abridge
