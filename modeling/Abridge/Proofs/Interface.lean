import Abridge.Proofs.Clashes
import Abridge.Proofs.Inlining
import Abridge.Proofs.Thrift
import Abridge.Proofs.Visibility

/-!
# Properties and interfaces

A module that was shortened has to work with code that was not.  That code knows the properties of the
objects that it is handed, and what the module imports and exports, by their names; so a plan may touch
none of these.  One spelling can be such a name and the name of a variable at once, and then the two are
told apart in a way of its own for each form: a property written in short form is written out, a target in
short form, a parameter that makes a property and the names of a clause are pinned by the survey, and what
stands before the colon is not a name that is resolved.  A key can also be a literal.  Keys are not searched
for literals, but a plan says which literal it means by an offset, so that a key is safe only because no
other literal stands at its offset (`Program.nodup_offsets`).

Some names are exported though the module does not say so.  In `namespace A.B` the second name is one of the
first namespace, as if it were declared in its block with `export` before it, and the block of an ambient
namespace exports all that it declares.  These names the survey does not pin.  They are marked as implied
here (`Shown`), and a plan keeps the properties and the exports of a module exactly when it keeps them.

## What is here

* `Tree.gather`: what the nodes of a tree say, one after the other, each where it stands.
* `Program.propertyNames`, `Program.importedNames`, `Program.exportedNames`: the names that other code
  knows a module by.
* `Program.impliedNames`: those that no export is written for.
* `Form.Guarded`: what a plan of a run leaves alone at a node.
* `names_kept_iff`: a plan respells the implied names and no others.
* `dotted_name_renamed`: the second name of a dotted namespace is renamed.
-/

set_option autoImplicit false

namespace Abridge

/-! ## Names of properties -/

/-- The name of a property, as it is written. -/
inductive PropertyName where
  | text (value : String) (surrogates : Bool := false)
  | number (value : Double)
  | bigint (digits : String)
  | template (raw : String)
  | «private» (name : String)
  deriving DecidableEq, Repr, Inhabited

namespace Tree

/-- The name of a property that is written as a word. -/
def wordName? : Tree → Option PropertyName
  | .name n => some (.text n)
  | .markupName n => some (.text n)
  | .privateName n => some (.private n)
  | _ => none

/-- The name that a key gives to a property, if it is known before the program runs. -/
def keyName? : Tree → Option PropertyName
  | .string lit => some (.text lit.value lit.surrogates)
  | .quoted lit => some (.text lit.value lit.surrogates)
  | .number lit => some (.number lit.value)
  | .node (.bigint digits) [] => some (.bigint digits)
  | .node (.template [raw]) [] => some (.template raw)
  | t => t.wordName?

/-- The name of a property that is still in short form is the name of its value. -/
def shortProperty? (shorthand : Bool) (key value : Tree) : Option PropertyName :=
  if shorthand then (value.shortName?.map fun n => .text n).or key.keyName? else key.keyName?

/-- The properties that a node spells of its own, those of its parts apart: it defines them, reads or writes
them, or takes an object apart by them. -/
def writtenProperties : Form → List Tree → List PropertyName
  | .property info, [k, v] => (shortProperty? info.shorthand k v).toList
  | .bindingProperty shorthand _, [k, v] => (shortProperty? shorthand k v).toList
  | .targetShorthand, .reference n :: _ => [.text n]
  | .targetProperty _, k :: _ => k.keyName?.toList
  | .method _ _, _ :: k :: _ => k.keyName?.toList
  | .field _, _ :: k :: _ => k.keyName?.toList
  | .propertySignature _ _ _, k :: _ => k.keyName?.toList
  | .methodSignature _ _ _, k :: _ => k.keyName?.toList
  | .enumMember _, k :: _ => k.keyName?.toList
  -- A parameter with a modifier makes a property of every object of its class.
  | .param ms _, _ :: p :: _ =>
    if ms.access.isSome || ms.readonly || ms.override then p.boundNames.map fun n => .text n else []
  | .member _, _ :: k :: _ => k.wordName?.toList
  | .privateMember _, _ :: k :: _ => k.wordName?.toList
  | .privateIn, k :: _ => k.wordName?.toList
  | .qualified, _ :: k :: _ => k.wordName?.toList
  | .memberTag, _ :: k :: _ => k.wordName?.toList
  | .markupAttribute, k :: _ => k.wordName?.toList
  | _, _ => []

/-! ## Names of the module interface -/

/-- A name by which another module knows something. -/
def outerName : Tree → List String
  | .name n => [n]
  | .quoted lit => [lit.value]
  | _ => []

/-- What an import specifier takes from the other module, and the name that it has here. -/
def specifierNames : Tree → List String
  | .node .importDefault [n] => "default" :: n.boundNames
  | .node .importAll [n] => "*" :: n.boundNames
  | .node (.importNamed _) [i, n] => i.outerName ++ n.boundNames
  | _ => []

/-- The names that a node imports. -/
def ownImports : Form → List Tree → List String
  | .import _ _, specs :: _ => specs.parts.flatMap specifierNames
  | .importEquals _, n :: _ => n.boundNames
  | _, _ => []

/-- The names that a node is written to export.  A specifier names what it exports twice. -/
def writtenExports : Form → List Tree → List String
  | .exportNamed _, d :: _ => d.introducedNames
  | .exportSpecifier _, [l, e] => l.exportedLocal ++ e.outerName
  | .exportDefault, _ => ["default"]
  | .exportAll _, n :: _ => "*" :: n.outerName
  | .exportAssignment, _ => ["export="]
  | .namespaceExport, n :: _ => n.outerName
  | _, _ => []

/-- The properties that a namespace gets by what a node in it is written to export. -/
def writtenMembers : Form → List Tree → List String
  | .exportNamed _, d :: _ => d.introducedNames
  | .exportSpecifier _, [_, e] => e.outerName
  | _, _ => []

end Tree

/-! ## Implied names -/

/-- Whether a form declares something that a namespace can export. -/
def Form.declares : Form → Bool
  | .variables _ _ | .function _ | .class _ | .typeAlias _ | .interface _ | .enum _ _ | .namespace _ _ => true
  | _ => false

/-- What stands around a node, as far as it matters for exports. -/
structure Enclosure where
  /-- In a namespace, and not in an extension of the global scope inside of it. -/
  space : Bool := false
  /-- In something that is declared to be there already. -/
  ambient : Bool := false

/-- What stands around the parts of a node. -/
def Enclosure.inside (around : Enclosure) : Form → Enclosure
  | .namespace _ ambient => ⟨true, around.ambient || ambient⟩
  | .global ambient => ⟨false, around.ambient || ambient⟩
  | _ => around

namespace Tree

/-- Whether a tree declares something that a namespace can export. -/
def isDeclaration : Tree → Bool
  | .node f _ => f.declares
  | _ => false

/-- Whether a statement exports what does not stand in it.  A block with such a statement exports no more than
it says. -/
def isExportList : Tree → Bool
  | .node (.exportNamed _) (d :: _) => d.isAbsent
  | .node .exportDefault (d :: _) => !d.isDeclaration
  | .node (.exportAll _) _ => true
  | .node .exportAssignment _ => true
  | _ => false

/-- What a statement without `export` declares. -/
def unmarkedNames (t : Tree) : List String := if t.isDeclaration then t.introducedNames else []

/-- The name of a namespace that is the body of another one. -/
def dottedName : Tree → List String
  | .node (.namespace _ _) (n :: _) => n.boundNames
  | _ => []

/-- The names that a node exports without saying so: the second of two dotted names, and the names of the
block of an ambient namespace. -/
def impliedNames (around : Enclosure) : Form → List Tree → List String
  | .namespace _ _, [_, body] => body.dottedName
  | .moduleBlock, ss =>
    if around.space && around.ambient && !ss.any isExportList then ss.flatMap unmarkedNames else []
  | _, _ => []

end Tree

/-- A name that other code knows, as it is written, or as it is implied. -/
inductive Shown (α : Type) where
  | written (name : α)
  | implied (name : String)

namespace Shown

variable {α : Type}

/-- The name itself. -/
def name (text : String → α) : Shown α → α
  | .written a => a
  | .implied n => text n

/-- A name as a plan spells it. -/
def under (plan : ModulePlan) : Shown α → Shown α
  | .written a => .written a
  | .implied n => .implied (plan.rename n)

end Shown

namespace Tree

/-- The properties of a node, those of its parts apart.  What is exported inside a namespace is a property of
the namespace. -/
def ownProperties (around : Enclosure) (f : Form) (ps : List Tree) : List (Shown PropertyName) :=
  (writtenProperties f ps ++ if around.space then (writtenMembers f ps).map fun n => PropertyName.text n
      else []).map .written ++
    (impliedNames around f ps).map .implied

/-- The names that a node exports. -/
def ownExports (around : Enclosure) (f : Form) (ps : List Tree) : List (Shown String) :=
  (writtenExports f ps).map .written ++ (impliedNames around f ps).map .implied

/-! ## Sequences of names -/

section

variable {α : Type}

mutual

/-- What the nodes of a tree say of their own where they stand, one after the other. -/
def gather (own : Enclosure → Form → List Tree → List α) (around : Enclosure) : Tree → List α
  | .node f ps => own around f ps ++ gatherOf own (around.inside f) ps
  | _ => []

/-- What the nodes of trees say. -/
def gatherOf (own : Enclosure → Form → List Tree → List α) (around : Enclosure) : List Tree → List α
  | [] => []
  | t :: ts => t.gather own around ++ gatherOf own around ts

end

end

end Tree

namespace Program

/-- The properties that a program defines, reads, writes or takes objects apart by. -/
def properties (p : Program) : List (Shown PropertyName) := Tree.gatherOf Tree.ownProperties {} p.statements

/-- The names of these properties. -/
def propertyNames (p : Program) : List PropertyName := p.properties.map (Shown.name fun n => .text n)

/-- The names that a program imports. -/
def importedNames (p : Program) : List String := Tree.gatherOf (fun _ => Tree.ownImports) {} p.statements

/-- What a program and the namespaces in it export. -/
def exports (p : Program) : List (Shown String) := Tree.gatherOf Tree.ownExports {} p.statements

/-- The names of these exports. -/
def exportedNames (p : Program) : List String := p.exports.map (Shown.name id)

/-- The names that are exported though no export is written for them. -/
def impliedNames (p : Program) : List String := Tree.gatherOf Tree.impliedNames {} p.statements

end Program

/-! ## Names under a plan -/

namespace Shown

variable {α : Type} {text : String → α} {plan : ModulePlan}

/-- **Names are kept when the implied ones are**, because a plan respells no others. -/
theorem map_name_under_eq_iff (htext : Function.Injective text) {shown : List (Shown α)} :
    (shown.map (under plan)).map (name text) = shown.map (name text) ↔
      ∀ n, .implied n ∈ shown → plan.rename n = n := by
  rw [List.map_map, List.map_inj_left]
  constructor
  · exact fun h n hn => htext (h _ hn)
  · intro h x hx
    cases x with
    | written a => rfl
    | implied n => exact congrArg text (h n hx)

/-- What is written stays and what is implied is respelled. -/
theorem append_map_under {before after : List α} {names names' : List String} (hwritten : after = before)
    (himplied : names' = names.map plan.rename) :
    after.map written ++ names'.map implied =
      (before.map written ++ names.map implied).map (under plan) := by
  rw [hwritten, himplied, List.map_append, List.map_map, List.map_map, List.map_map]
  rfl

theorem implied_mem_append {before : List α} {names : List String} {n : String} :
    implied n ∈ before.map written ++ names.map implied ↔ n ∈ names := by
  simp

end Shown

namespace Tree

section

variable {α β : Type} {plan : ModulePlan}

theorem gather_replace {own : Enclosure → Form → List Tree → List α} {around : Enclosure} (site : Nat) {t : Tree}
    (ht : t.gather own around = []) : (plan.replace site t).gather own around = [] := by
  unfold ModulePlan.replace
  split
  · rfl
  · exact ht

theorem inside_settle (around : Enclosure) (f : Form) (ps : List Tree) :
    around.inside (f.settle ps) = around.inside f :=
  f.settle_congr (g := around.inside) (fun _ _ => rfl) (fun _ _ _ _ => rfl) ps

mutual

/-- What the nodes of a tree say changes in one way if it does so at every node. -/
theorem gather_apply {own : Enclosure → Form → List Tree → List α} {k : α → α} :
    ∀ {around : Enclosure} {t : Tree}, (∀ around f ps, t.HasPart (.node f ps) →
      own around (f.settle (applyAll plan ps)) (applyAll plan ps) = (own around f ps).map k) →
    (t.apply plan).gather own around = (t.gather own around).map k
  | _, .node f ps, h => by
    rw [apply_node, gather, gather, h _ f ps .self, inside_settle, List.map_append,
      gatherOf_applyAll fun t ht around g qs hpart => h around g qs (.inside ht hpart)]
  | _, .string _, _ | _, .number _, _ => gather_replace _ rfl
  | _, .absent, _ | _, .binding _, _ | _, .reference _, _ | _, .name _, _ | _, .markupName _, _
  | _, .label _, _ | _, .privateName _, _ | _, .quoted _, _ => rfl

theorem gatherOf_applyAll {own : Enclosure → Form → List Tree → List α} {k : α → α} :
    ∀ {around : Enclosure} {ts : List Tree}, (∀ t ∈ ts, ∀ around f ps, t.HasPart (.node f ps) →
      own around (f.settle (applyAll plan ps)) (applyAll plan ps) = (own around f ps).map k) →
    gatherOf own around (applyAll plan ts) = (gatherOf own around ts).map k
  | _, [], _ => rfl
  | _, t :: ts, h => by
    rw [applyAll_cons, gatherOf, gatherOf, gather_apply (h t List.mem_cons_self), List.map_append,
      gatherOf_applyAll fun u hu => h u (List.mem_cons_of_mem _ hu)]

end

mutual

/-- What two readers find at the same nodes they find in the same trees. -/
theorem mem_gather_congr {own : Enclosure → Form → List Tree → List α}
    {own' : Enclosure → Form → List Tree → List β} {x : α} {y : β}
    (h : ∀ around f ps, x ∈ own around f ps ↔ y ∈ own' around f ps) :
    ∀ (around : Enclosure) (t : Tree), x ∈ t.gather own around ↔ y ∈ t.gather own' around
  | _, .node f ps => by
    rw [gather, gather, List.mem_append, List.mem_append]
    exact or_congr (h _ f ps) (mem_gatherOf_congr h _ ps)
  | _, .string _ | _, .number _ | _, .absent | _, .binding _ | _, .reference _ | _, .name _
  | _, .markupName _ | _, .label _ | _, .privateName _ | _, .quoted _ =>
    iff_of_false List.not_mem_nil List.not_mem_nil

theorem mem_gatherOf_congr {own : Enclosure → Form → List Tree → List α}
    {own' : Enclosure → Form → List Tree → List β} {x : α} {y : β}
    (h : ∀ around f ps, x ∈ own around f ps ↔ y ∈ own' around f ps) :
    ∀ (around : Enclosure) (ts : List Tree), x ∈ gatherOf own around ts ↔ y ∈ gatherOf own' around ts
  | _, [] => iff_of_false List.not_mem_nil List.not_mem_nil
  | _, t :: ts => by
    rw [gatherOf, gatherOf, List.mem_append, List.mem_append]
    exact or_congr (mem_gather_congr h _ t) (mem_gatherOf_congr h _ ts)

end

end

section

variable {plan : ModulePlan}

theorem wordName?_apply (t : Tree) : (t.apply plan).wordName? = t.wordName? := by
  cases t with
  | string lit | number lit =>
    rw [apply, ModulePlan.replace]
    split <;> rfl
  | _ => rfl

/-- A key that is no site of the plan names the property that it named. -/
theorem keyName?_apply {t : Tree} (ht : ∀ site ∈ t.offsets, plan.sites.get? site = none) :
    (t.apply plan).keyName? = t.keyName? := by
  cases t with
  | string lit | number lit =>
    rw [apply, ModulePlan.replace, ht _ (List.mem_singleton.2 rfl)]
  | node f ps =>
    rcases ps with _ | ⟨u, us⟩
    · cases f <;> rfl
    · cases f with
      | property _ | bindingProperty _ _ => rcases us with _ | ⟨_, _ | ⟨_, _⟩⟩ <;> rfl
      | template pieces => rcases pieces with _ | ⟨_, _ | ⟨_, _⟩⟩ <;> rfl
      | _ => rfl
  | _ => rfl

theorem introducedNames_node {f : Form} (hf : ∀ word ambient, f ≠ .variables word ambient)
    (ps : List Tree) : introducedNames (.node f ps) = (declared (.node f ps)).map Prod.fst := by
  cases f with
  | «variables» word ambient => exact absurd rfl (hf word ambient)
  | _ => rfl

theorem reads_introducedNames (plan : ModulePlan) (t : Tree) :
    Reads plan t.introducedNames (t.apply plan).introducedNames t.leafNames := by
  have hdeclared : ∀ u : Tree,
      Reads plan (u.declared.map Prod.fst) ((u.apply plan).declared.map Prod.fst) u.leafNames := by
    intro u
    have hread := reads_declared plan u
    constructor
    · rw [hread.eq, List.map_map, List.map_map]
      rfl
    · intro n hn
      obtain ⟨d, hd, rfl⟩ := List.mem_map.1 hn
      exact hread.mem d hd
  refine .of_node (fun t h => by cases t <;> first | rfl | cases h) (fun _ _ _ => rfl)
    (fun _ _ _ _ _ => rfl) (fun f ps => ?_) t
  by_cases hf : ∃ word ambient, f = .variables word ambient
  · obtain ⟨word, ambient, rfl⟩ := hf
    exact reads_declaratorNames plan ps
  · have hne : ∀ word ambient, f ≠ .variables word ambient := fun word ambient h => hf ⟨_, _, h⟩
    rw [introducedNames_node hne, introducedNames_node hne]
    have hnode := hdeclared (.node f ps)
    rw [apply_node] at hnode
    rcases f.settle_cases (applyAll plan ps) with heq | ⟨_, _, rfl, -⟩ | ⟨_, _, _, _, rfl, -⟩
    · rwa [heq] at hnode
    · exact .nil
    · exact .nil

mutual

/-- A clause whose names are kept stays as it is. -/
theorem apply_eq_self : ∀ {t : Tree}, t.isClause = true → (∀ n ∈ t.leafNames, plan.rename n = n) →
    t.apply plan = t
  | .node f ps, ht, h => by
    obtain ⟨hf, hps⟩ := Bool.and_eq_true_iff.1 ht
    rw [apply_node, applyAll_eq_self hps h]
    rcases f.settle_cases ps with heq | ⟨_, _, rfl, -⟩ | ⟨_, _, _, _, rfl, -⟩
    · rw [heq]
    · cases hf
    · cases hf
  | .string _, ht, _ | .number _, ht, _ => by cases ht
  | .binding n, _, h => congrArg _ (h n (List.mem_singleton.2 rfl))
  | .reference n, _, h => congrArg _ (h n (List.mem_singleton.2 rfl))
  | .absent, _, _ | .name _, _, _ | .markupName _, _, _ | .label _, _, _ | .privateName _, _, _
  | .quoted _, _, _ => rfl

theorem applyAll_eq_self : ∀ {ts : List Tree}, allClauses ts = true →
    (∀ n ∈ leafNamesOf ts, plan.rename n = n) → applyAll plan ts = ts
  | [], _, _ => rfl
  | t :: ts, hts, h => by
    obtain ⟨ht, hts⟩ := Bool.and_eq_true_iff.1 hts
    rw [applyAll_cons, apply_eq_self ht fun n hn => h n (List.mem_append_left _ hn),
      applyAll_eq_self hts fun n hn => h n (List.mem_append_right _ hn)]

end

end

/-! ## Sites -/

theorem offsetsOf_eq_flatMap (ts : List Tree) : offsetsOf ts = ts.flatMap offsets := by
  induction ts with
  | nil => rfl
  | cons t ts ih => rw [offsetsOf, ih, List.flatMap_cons]

theorem mem_literalsOf {x : Literal × Nat} {f : Form} {all : List Tree} :
    ∀ {ts : List Tree} {i : Nat}, x ∈ literalsOf f all i ts →
      ∃ j t, ts[j]? = some t ∧ f.isSearched all (i + j) = true ∧ x ∈ t.literals
  | [], _, h => absurd h List.not_mem_nil
  | t :: ts, i, h => by
    rcases List.mem_append.1 h with h | h
    · split at h
      · rename_i hsearched
        exact ⟨0, t, rfl, hsearched, h⟩
      · exact absurd h List.not_mem_nil
    · obtain ⟨j, u, hu, hsearched, hx⟩ := mem_literalsOf h
      exact ⟨j + 1, u, hu, by rwa [Nat.add_right_comm i 1 j] at hsearched, hx⟩

mutual

theorem mem_offsets {x : Literal × Nat} : ∀ {t : Tree}, x ∈ t.literals → x.2 ∈ t.offsets
  | .node _ _, h => mem_offsetsOf h
  | .string _, h | .number _, h => by
    cases List.mem_singleton.1 h
    exact List.mem_singleton.2 rfl
  | .absent, h | .binding _, h | .reference _, h | .name _, h | .markupName _, h | .label _, h
  | .privateName _, h | .quoted _, h => absurd h List.not_mem_nil

theorem mem_offsetsOf {x : Literal × Nat} {f : Form} {all : List Tree} :
    ∀ {ts : List Tree} {i : Nat}, x ∈ literalsOf f all i ts → x.2 ∈ offsetsOf ts
  | [], _, h => absurd h List.not_mem_nil
  | t :: ts, i, h => by
    rcases List.mem_append.1 h with h | h
    · split at h
      · exact List.mem_append_left _ (mem_offsets h)
      · exact absurd h List.not_mem_nil
    · exact List.mem_append_right _ (mem_offsetsOf h)

end

/-- The literals of a tree stand at offsets of their own, and those that a plan replaces were searched
for. -/
structure Placed (plan : ModulePlan) (t : Tree) : Prop where
  nodup : t.offsets.Nodup
  searched : ∀ site ∈ t.offsets, ∀ key, plan.sites.get? site = some key →
    site ∈ t.literals.map Prod.snd

/-- **A plan replaces nothing in a part that is not searched**: what stands at its site is elsewhere. -/
theorem Placed.part {plan : ModulePlan} {f : Form} {ps : List Tree} (h : (Tree.node f ps).Placed plan)
    {i : Nat} {t : Tree} (ht : ps[i]? = some t) :
    t.Placed plan ∧ (f.isSearched ps i = false → ∀ site ∈ t.offsets, plan.sites.get? site = none) := by
  have hnodup : (ps.flatMap offsets).Nodup := offsetsOf_eq_flatMap ps ▸ h.nodup
  obtain ⟨hparts, happart⟩ := List.nodup_flatMap.1 hnodup
  have hmem := List.mem_of_getElem? ht
  have hfound : ∀ site ∈ t.offsets, ∀ key, plan.sites.get? site = some key →
      f.isSearched ps i = true ∧ site ∈ t.literals.map Prod.snd := by
    intro site hsite key hkey
    have hnode : site ∈ (Tree.node f ps).offsets := by
      rw [offsets, offsetsOf_eq_flatMap]
      exact List.mem_flatMap.2 ⟨t, hmem, hsite⟩
    obtain ⟨x, hx, rfl⟩ := List.mem_map.1 (h.searched site hnode key hkey)
    obtain ⟨j, u, hu, hsearched, hx⟩ := mem_literalsOf hx
    rw [Nat.zero_add] at hsearched
    -- Different parts have no offset in common.
    obtain rfl : i = j := by
      by_contra hne
      obtain ⟨hi, rfl⟩ := List.getElem?_eq_some_iff.1 ht
      obtain ⟨hj, rfl⟩ := List.getElem?_eq_some_iff.1 hu
      rcases Nat.lt_or_gt_of_ne hne with hlt | hlt
      · exact List.pairwise_iff_getElem.1 happart i j hi hj hlt hsite (mem_offsets hx)
      · exact List.pairwise_iff_getElem.1 happart j i hj hi hlt (mem_offsets hx) hsite
    obtain rfl : u = t := Option.some.inj (hu.symm.trans ht)
    exact ⟨hsearched, List.mem_map_of_mem hx⟩
  refine ⟨⟨hparts t hmem, fun site hsite key hkey => (hfound site hsite key hkey).2⟩, ?_⟩
  intro hsearched site hsite
  cases hget : plan.sites.get? site with
  | none => rfl
  | some key => exact absurd (hsearched.symm.trans (hfound site hsite key hget).1) Bool.false_ne_true

theorem HasPart.placed {plan : ModulePlan} {s t : Tree} (h : s.HasPart t) (hs : s.Placed plan) :
    t.Placed plan := by
  induction h with
  | self => exact hs
  | inside hp _ ih =>
    obtain ⟨i, hi⟩ := List.getElem?_of_mem hp
    exact ih (hs.part hi).1

end Tree

/-! ## What a plan leaves alone at a node -/

/-- A plan keeps the names that the survey pins at a node, and replaces nothing in the parts of it that are
not searched for literals. -/
structure Form.Guarded (plan : ModulePlan) (f : Form) (ps : List Tree) : Prop where
  fits : f.Fits ps
  kept : ∀ n, .pinned n ∈ Tree.sightingsBefore f ps ++ Tree.sightingsAfter f ps → plan.rename n = n
  unsearched : ∀ {i t}, ps[i]? = some t → f.isSearched ps i = false →
    ∀ site ∈ t.offsets, plan.sites.get? site = none

section

variable {plan : ModulePlan} {f : Form} {ps : List Tree}

/-- A key is not searched for literals, and so it names what it named. -/
theorem Form.Guarded.keyName? (h : f.Guarded plan ps) {i : Nat} {k : Tree} (hk : ps[i]? = some k)
    (hsearched : f.isSearched ps i = false) : (k.apply plan).keyName? = k.keyName? :=
  Tree.keyName?_apply (h.unsearched hk hsearched)

/-- Names that the survey pins at a node are read off as they were. -/
theorem Form.Guarded.eq_of_reads {role : Role} {before after names : List String} (h : f.Guarded plan ps)
    (hreads : Reads plan before after names)
    (hpinned : Sighting.pinAll role before ⊆ Tree.sightingsBefore f ps ++ Tree.sightingsAfter f ps) :
    after = before := by
  rw [hreads.eq]
  exact (List.map_congr_left fun n hn => h.kept n (hpinned (Tree.mem_pinAll hn))).trans (List.map_id _)

end

namespace Tree

variable {plan : ModulePlan} {f : Form} {ps : List Tree}

/-- A property in short form keeps its name: if the value is renamed it is written out, and the key says
what the value said. -/
theorem shortProperty?_apply {shorthand : Bool} {k v : Tree}
    (hkey : (k.apply plan).keyName? = k.keyName?)
    (hfits : shorthand = true → ∃ n v', [k, v] = [.name n, v'] ∧ v'.isLiteral = false ∧
      ∀ m, v'.shortName? = some m → m = n) :
    shortProperty? (shorthand && staysShort (k.apply plan) (v.apply plan)) (k.apply plan) (v.apply plan) =
      shortProperty? shorthand k v := by
  cases shorthand with
  | false => exact hkey
  | true =>
    obtain ⟨n, v', heq, hv, hsame⟩ := hfits rfl
    cases heq
    change shortProperty? (true && staysShort (.name n) (v.apply plan)) (.name n) (v.apply plan) = _
    rw [Bool.true_and, staysShort_name, shortName?_apply plan hv]
    unfold shortProperty?
    rw [if_pos rfl, shortName?_apply plan hv]
    cases hshort : v.shortName? with
    | none => rfl
    | some m =>
      obtain rfl := hsame m hshort
      by_cases hrename : plan.rename m = m
      · simp [hrename]
      · simp [Ne.symm hrename, keyName?, wordName?]

/-- **A node spells the properties that it spelled.** -/
theorem writtenProperties_apply (h : f.Guarded plan ps) :
    writtenProperties (f.settle (applyAll plan ps)) (applyAll plan ps) = writtenProperties f ps := by
  cases f with
  | property info =>
    obtain _ | ⟨k, _ | ⟨v, _ | ⟨w, ps⟩⟩⟩ := ps
    · rfl
    · rfl
    · refine congrArg Option.toList (shortProperty?_apply (h.keyName? (i := 0) rfl rfl) fun hshort => ?_)
      have hfits := h.fits
      rwa [Form.Fits, hshort] at hfits
    · rfl
  | bindingProperty shorthand computed =>
    obtain _ | ⟨k, _ | ⟨v, _ | ⟨w, ps⟩⟩⟩ := ps
    · rfl
    · rfl
    · refine congrArg Option.toList (shortProperty?_apply (h.keyName? (i := 0) rfl rfl) fun hshort => ?_)
      subst hshort
      exact h.fits
    · rfl
  | targetShorthand =>
    obtain _ | ⟨r, ps⟩ := ps
    · rfl
    · have hr := h.fits r rfl
      cases r with
      | reference n =>
        have hkept := h.kept n (by simp [sightingsBefore, Sighting.pin])
        rw [applyAll_cons, apply, hkept]
        rfl
      | string lit | number lit => cases hr
      | _ => rfl
  | param ms optional =>
    obtain _ | ⟨d, _ | ⟨p, ps⟩⟩ := ps
    · rfl
    · rfl
    · change writtenProperties (.param ms optional) (_ :: p.apply plan :: _) = _
      rw [writtenProperties, writtenProperties]
      split
      · rename_i hproperty
        have hpinned : Sighting.pinAll .declaration p.boundNames ⊆
            sightingsBefore (.param ms optional) (d :: p :: ps) ++
              sightingsAfter (.param ms optional) (d :: p :: ps) := by
          rw [sightingsAfter, if_pos hproperty]
          exact List.subset_append_right _ _
        exact congrArg _ (h.eq_of_reads (reads_boundNames plan p) hpinned)
      · rfl
  -- The names of members are words, and no plan touches them.
  | member _ | privateMember _ | qualified | memberTag =>
    obtain _ | ⟨o, _ | ⟨k, ps⟩⟩ := ps
    · rfl
    · rfl
    · exact congrArg Option.toList (wordName?_apply k)
  | privateIn | markupAttribute =>
    obtain _ | ⟨k, ps⟩ := ps
    · rfl
    · exact congrArg Option.toList (wordName?_apply k)
  -- Keys are not searched for literals.
  | method _ _ | field _ =>
    obtain _ | ⟨d, _ | ⟨k, ps⟩⟩ := ps
    · rfl
    · rfl
    · exact congrArg Option.toList (h.keyName? (i := 1) rfl rfl)
  | targetProperty _ | propertySignature _ _ _ | methodSignature _ _ _ | enumMember _ =>
    obtain _ | ⟨k, ps⟩ := ps
    · rfl
    · exact congrArg Option.toList (h.keyName? (i := 0) rfl rfl)
  | _ => rfl

/-- **A node imports the names that it imported.** -/
theorem ownImports_apply (h : f.Guarded plan ps) :
    ownImports (f.settle (applyAll plan ps)) (applyAll plan ps) = ownImports f ps := by
  cases f with
  | «import» typeOnly phase =>
    rw [applyAll_eq_self h.fits.2 fun n hn => h.kept n (List.mem_append_left _ (mem_pinAll (h.fits.1 n hn)))]
    rfl
  | importEquals typeOnly =>
    obtain _ | ⟨n, ps⟩ := ps
    · rfl
    · exact h.eq_of_reads (reads_boundNames plan n) (List.subset_append_left _ _)
  | property info | bindingProperty shorthand computed =>
    obtain _ | ⟨k, _ | ⟨v, _ | ⟨w, ps⟩⟩⟩ := ps <;> rfl
  | _ => rfl

theorem outerName_apply (t : Tree) : (t.apply plan).outerName = t.outerName := by
  cases t with
  | string lit | number lit =>
    rw [apply, ModulePlan.replace]
    split <;> rfl
  | _ => rfl

/-- An export specifier stays as it is, and so do its names. -/
theorem applyAll_exportSpecifier {typeOnly : Bool} (h : (Form.exportSpecifier typeOnly).Guarded plan ps) :
    applyAll plan ps = ps ∧ ∀ n ∈ leafNamesOf ps, plan.rename n = n := by
  obtain ⟨l, e, rfl, hl, he, hclauses⟩ := h.fits
  have hkept : ∀ n ∈ leafNamesOf [l, e], plan.rename n = n := by
    intro n hn
    have hn : n ∈ l.leafNames := by simpa [leafNamesOf, he] using hn
    exact h.kept n (List.mem_append_left _ (mem_pinAll (hl n hn)))
  exact ⟨applyAll_eq_self hclauses hkept, hkept⟩

/-- **A node is written to export what it was written to export.** -/
theorem writtenExports_apply (h : f.Guarded plan ps) :
    writtenExports (f.settle (applyAll plan ps)) (applyAll plan ps) = writtenExports f ps := by
  cases f with
  | exportNamed typeOnly =>
    obtain _ | ⟨d, ps⟩ := ps
    · rfl
    · exact h.eq_of_reads (reads_introducedNames plan d) (List.subset_append_left _ _)
  | exportSpecifier typeOnly =>
    rw [(applyAll_exportSpecifier h).1]
    rfl
  | exportAll typeOnly =>
    obtain _ | ⟨n, ps⟩ := ps
    · rfl
    · exact congrArg (List.cons "*") (outerName_apply n)
  | namespaceExport =>
    obtain _ | ⟨n, ps⟩ := ps
    · rfl
    · exact outerName_apply n
  | property info | bindingProperty shorthand computed =>
    obtain _ | ⟨k, _ | ⟨v, _ | ⟨w, ps⟩⟩⟩ := ps <;> rfl
  | _ => rfl

/-- What a node is written to export in a namespace keeps its name. -/
theorem writtenMembers_apply (h : f.Guarded plan ps) :
    writtenMembers (f.settle (applyAll plan ps)) (applyAll plan ps) = writtenMembers f ps := by
  cases f with
  | exportNamed typeOnly =>
    obtain _ | ⟨d, ps⟩ := ps
    · rfl
    · exact h.eq_of_reads (reads_introducedNames plan d) (List.subset_append_left _ _)
  | exportSpecifier typeOnly =>
    rw [(applyAll_exportSpecifier h).1]
    rfl
  | property info | bindingProperty shorthand computed =>
    obtain _ | ⟨k, _ | ⟨v, _ | ⟨w, ps⟩⟩⟩ := ps <;> rfl
  | _ => rfl

/-! ## Implied names under a plan -/

theorem isDeclaration_apply (plan : ModulePlan) : ∀ t : Tree, (t.apply plan).isDeclaration = t.isDeclaration :=
  apply_eq_of_form false
    ⟨by rintro (_ | _) ⟨⟩ <;> rfl, fun _ _ _ => rfl, fun _ _ _ _ _ => rfl⟩
    fun f _ => by cases f <;> rfl

theorem isExportList_apply (plan : ModulePlan) : ∀ t : Tree, (t.apply plan).isExportList = t.isExportList := by
  refine apply_eq_of_form false
    ⟨by rintro (_ | _) ⟨⟩ <;> rfl, fun _ _ _ => rfl, fun _ _ _ _ _ => rfl⟩ fun f ps => ?_
  cases f with
  | exportNamed _ =>
    cases ps with
    | nil => rfl
    | cons d ps => exact isAbsent_apply plan d
  | exportDefault =>
    cases ps with
    | nil => rfl
    | cons d ps => exact congrArg not (isDeclaration_apply plan d)
  | _ => rfl

theorem any_isExportList_applyAll (plan : ModulePlan) (ss : List Tree) :
    (applyAll plan ss).any isExportList = ss.any isExportList := by
  induction ss with
  | nil => rfl
  | cons s ss ih => rw [applyAll_cons, List.any_cons, List.any_cons, isExportList_apply, ih]

theorem reads_unmarkedNames (plan : ModulePlan) (t : Tree) :
    Reads plan t.unmarkedNames (t.apply plan).unmarkedNames t.leafNames := by
  rw [unmarkedNames, unmarkedNames, isDeclaration_apply]
  split
  · exact reads_introducedNames plan t
  · exact .nil

theorem reads_dottedName (plan : ModulePlan) (t : Tree) :
    Reads plan t.dottedName (t.apply plan).dottedName t.leafNames := by
  refine .of_node (fun t h => by cases t <;> first | rfl | cases h) (fun _ _ _ => rfl)
    (fun _ _ _ _ _ => rfl) (fun f ps => ?_) t
  cases f with
  | «namespace» _ _ =>
    rcases ps with _ | ⟨n, _⟩
    · exact .nil
    · exact (reads_boundNames plan n).part List.mem_cons_self
  | _ => exact .nil

/-- **The implied names of a node are respelled.** -/
theorem impliedNames_apply (plan : ModulePlan) (around : Enclosure) (f : Form) (ps : List Tree) :
    impliedNames around (f.settle (applyAll plan ps)) (applyAll plan ps) =
      (impliedNames around f ps).map plan.rename := by
  have hsettle := f.settle_congr (g := fun f => impliedNames around f (applyAll plan ps)) (fun _ _ => rfl)
    (fun _ _ _ _ => rfl) (applyAll plan ps)
  refine hsettle.trans ?_
  cases f with
  | «namespace» word ambient =>
    obtain _ | ⟨n, _ | ⟨body, _ | ⟨_, _⟩⟩⟩ := ps
    · rfl
    · rfl
    · exact (reads_dottedName plan body).eq
    · rfl
  | moduleBlock =>
    rw [impliedNames, impliedNames, any_isExportList_applyAll]
    split
    · exact (Reads.flatMap fun t _ => reads_unmarkedNames plan t).eq
    · rfl
  | _ => rfl

theorem ownProperties_apply (h : f.Guarded plan ps) (around : Enclosure) :
    ownProperties around (f.settle (applyAll plan ps)) (applyAll plan ps) =
      (ownProperties around f ps).map (Shown.under plan) := by
  refine Shown.append_map_under ?_ (impliedNames_apply plan around f ps)
  rw [writtenProperties_apply h, writtenMembers_apply h]

theorem ownExports_apply (h : f.Guarded plan ps) (around : Enclosure) :
    ownExports around (f.settle (applyAll plan ps)) (applyAll plan ps) =
      (ownExports around f ps).map (Shown.under plan) :=
  Shown.append_map_under (writtenExports_apply h) (impliedNames_apply plan around f ps)

end Tree

/-! ## Runs -/

namespace Settled

variable {p : CompiledProfile} {modules : List ReadModule} {final : Planner}

/-- A literal that a plan replaces was searched for. -/
theorem mem_literals (h : Settled p modules final) {m : ReadModule} {plan : ModulePlan}
    (hx : (m, plan) ∈ modules.zip (planModules p modules)) {site : Nat} {key : String}
    (hsite : plan.sites.get? site = some key) : site ∈ m.program.literals.map Prod.snd := by
  obtain ⟨pairs, hentries, -, hsites⟩ := (h.planned hx).hoists
  rw [hsites] at hsite
  rcases Planner.placed_eq_some hsite with ⟨x, hx', hmem, rfl⟩ | hnone
  · have hentry := List.mem_map_of_mem (f := Prod.snd) hx'
    rw [hentries] at hentry
    exact List.mem_map_of_mem (Program.mem_literals_of_site (List.mem_filter.1 hentry).1 hmem)
  · cases hnone

/-- **A plan guards every node of its module.** -/
theorem guarded (h : Settled p modules final) {m : ReadModule} {plan : ModulePlan}
    (hx : (m, plan) ∈ modules.zip (planModules p modules))
    (hread : Program.parse? m.source.text m.source.dialect = some m.program) {s : Tree}
    (hs : s ∈ m.program.statements) {f : Form} {ps : List Tree} (hpart : s.HasPart (.node f ps)) :
    f.Guarded plan ps := by
  obtain ⟨i, hi⟩ := List.getElem?_of_mem hs
  have hshaped := Tree.allShaped_iff.1 (Program.shaped_of_parse? hread) s hs
  obtain ⟨⟨hfits, -⟩, hseen⟩ := hpart.seen hshaped false
  have hplaced : (Tree.node .group m.program.statements).Placed plan :=
    ⟨Program.nodup_offsets hread, fun site _ key hsite => h.mem_literals hx hsite⟩
  refine ⟨hfits, ?_, fun ht => ((hpart.placed (hplaced.part hi).1).part ht).2⟩
  intro n hn
  rcases hseen with ⟨params, hsub⟩ | hclause
  · have hsighting : Sighting.pinned n ∈ m.program.sightings := by
      refine Tree.sightings_subset_sightingsOf (f := .group) hi rfl (hsub ?_)
      rw [Tree.sightings, List.mem_append]
      exact (List.mem_append.1 hn).imp (List.mem_append_left _) id
    refine h.rename_pinned hx (mem_sortNames.2 (List.mem_append_left _ (List.mem_append_left _ ?_)))
    exact List.mem_filterMap.2 ⟨_, hsighting, rfl⟩
  -- The nodes inside a clause pin nothing of their own.
  · have hform : Tree.isClauseForm f = true := (Bool.and_eq_true_iff.1 hclause).1
    cases f <;> first | exact absurd hn List.not_mem_nil | cases hform

end Settled

namespace Program

variable {p : Program} {plan : ModulePlan} {n : String}

theorem implied_mem_properties : .implied n ∈ p.properties ↔ n ∈ p.impliedNames :=
  Tree.mem_gatherOf_congr (fun _ _ _ => Shown.implied_mem_append) _ _

theorem implied_mem_exports : .implied n ∈ p.exports ↔ n ∈ p.impliedNames :=
  Tree.mem_gatherOf_congr (fun _ _ _ => Shown.implied_mem_append) _ _

end Program

/-- **Properties, imports and exports keep their names, but for implied ones.**  In every run, what a module
defines, reads, writes or takes apart by the name of a property it does by the same name under its plan, and
it imports and exports the same names, each in the same order, except that implied names are spelled as the
plan has it.  So a plan keeps the properties, and the exports, exactly when it keeps the implied names.  A
property that is still in short form counts under the name of its value. -/
theorem names_kept_iff {profile : Profile} {p : CompiledProfile} (hp : profile.compile = .ok p)
    {modules : List ReadModule}
    (hread : ∀ m ∈ modules, Program.parse? m.source.text m.source.dialect = some m.program)
    {m : ReadModule} {plan : ModulePlan} (hx : (m, plan) ∈ modules.zip (planModules p modules)) :
    (m.program.apply plan).importedNames = m.program.importedNames ∧
      (m.program.apply plan).properties = m.program.properties.map (Shown.under plan) ∧
      (m.program.apply plan).exports = m.program.exports.map (Shown.under plan) ∧
      ((m.program.apply plan).propertyNames = m.program.propertyNames ↔
        ∀ n ∈ m.program.impliedNames, plan.rename n = n) ∧
      ((m.program.apply plan).exportedNames = m.program.exportedNames ↔
        ∀ n ∈ m.program.impliedNames, plan.rename n = n) := by
  obtain ⟨final, h⟩ := exists_settled hp modules
  have hguarded : ∀ s ∈ m.program.statements, ∀ f ps, s.HasPart (.node f ps) → f.Guarded plan ps :=
    fun s hs f ps hpart => h.guarded hx (hread m (List.of_mem_zip hx).1) hs hpart
  have himports : (m.program.apply plan).importedNames = m.program.importedNames.map id :=
    Tree.gatherOf_applyAll fun s hs _ f ps hpart =>
      (Tree.ownImports_apply (hguarded s hs f ps hpart)).trans (List.map_id _).symm
  have hproperties : (m.program.apply plan).properties = m.program.properties.map (Shown.under plan) :=
    Tree.gatherOf_applyAll fun s hs around f ps hpart =>
      Tree.ownProperties_apply (hguarded s hs f ps hpart) around
  have hexports : (m.program.apply plan).exports = m.program.exports.map (Shown.under plan) :=
    Tree.gatherOf_applyAll fun s hs around f ps hpart =>
      Tree.ownExports_apply (hguarded s hs f ps hpart) around
  have htext : Function.Injective fun n => PropertyName.text n := fun _ _ heq => by cases heq; rfl
  refine ⟨himports.trans (List.map_id _), hproperties, hexports, ?_, ?_⟩
  · rw [Program.propertyNames, Program.propertyNames, hproperties, Shown.map_name_under_eq_iff htext]
    exact forall_congr' fun n => imp_congr_left Program.implied_mem_properties
  · rw [Program.exportedNames, Program.exportedNames, hexports,
      Shown.map_name_under_eq_iff Function.injective_id]
    exact forall_congr' fun n => imp_congr_left Program.implied_mem_exports

/-- A source in which one name is both a variable and a property, in short forms and outside of them. -/
def SourceModule.twofold : SourceModule :=
  { path := ⟨"a.js"⟩
    text := "import\x7bsum as total\x7dfrom'm';export const f=(\x7bamount=1\x7d)=>(\x7bamount,total:total.size\x7d);"
    dialect := {} }

/-- The names of that module under a profile that shortens every name. -/
theorem names_kept_iff_twofold :
    ∃ program plan, Profile.eager.compile = .ok .eager ∧
      Program.parse? SourceModule.twofold.text SourceModule.twofold.dialect = some program ∧
      planModules .eager [⟨.twofold, program⟩] = [plan] ∧
      (program.apply plan).propertyNames = [.text "amount", .text "amount", .text "total", .text "size"] ∧
      (program.apply plan).importedNames = ["sum", "total"] ∧
      (program.apply plan).exportedNames = ["f"] := by
  obtain ⟨program, hprogram, hnames⟩ := Option.map_eq_some_iff.1
    (show ((Program.parse? SourceModule.twofold.text SourceModule.twofold.dialect).map
        fun q => (q.propertyNames, q.importedNames, q.exportedNames, q.impliedNames)) =
      some ([.text "amount", .text "amount", .text "total", .text "size"], ["sum", "total"], ["f"], []) by
      decide +kernel)
  obtain ⟨hproperties, himports, hexports, himplied⟩ : program.propertyNames = _ ∧
      program.importedNames = _ ∧ program.exportedNames = _ ∧ program.impliedNames = [] := by
    simpa only [Prod.mk.injEq] using hnames
  obtain ⟨plan, hplan⟩ := List.length_eq_one_iff.1 (length_planModules .eager [⟨.twofold, program⟩])
  have hread : ∀ m ∈ [(⟨.twofold, program⟩ : ReadModule)],
      Program.parse? m.source.text m.source.dialect = some m.program := by
    rw [List.forall_mem_singleton]
    exact hprogram
  have hx : ((⟨.twofold, program⟩, plan) : ReadModule × ModulePlan) ∈
      [(⟨.twofold, program⟩ : ReadModule)].zip (planModules .eager [⟨.twofold, program⟩]) := by
    rw [hplan]
    exact List.mem_singleton.2 rfl
  obtain ⟨himports', -, -, hproperties', hexports'⟩ := names_kept_iff Profile.compile_eager hread hx
  have hkept : ∀ n ∈ program.impliedNames, plan.rename n = n := by
    rw [himplied]
    exact fun _ hn => absurd hn List.not_mem_nil
  exact ⟨program, plan, Profile.compile_eager, hprogram, hplan, (hproperties'.2 hkept).trans hproperties,
    himports'.trans himports, (hexports'.2 hkept).trans hexports⟩

/-- The program `export namespace Outer.Inner{export let value}Outer.Inner.value;`. -/
def Program.withDottedNames : Program where
  statements :=
    [.node (.exportNamed false)
      [.node (.namespace "namespace" false)
        [.binding "Outer",
         .node (.namespace "namespace" false)
          [.binding "Inner",
           .node .moduleBlock
            [.node (.exportNamed false)
              [.node (.variables .let false)
                [.node (.declarator false) [.binding "value", .absent, .absent]],
               .node .group [], .absent, .absent]]]],
       .node .group [], .absent, .absent],
     .node .expression
      [.node (.member false) [.node (.member false) [.reference "Outer", .name "Inner"], .name "value"]]]

/-- The module of that program. -/
def ReadModule.withDottedNames : ReadModule :=
  { source :=
      { path := ⟨"a.ts"⟩, text := "export namespace Outer.Inner\x7bexport let value\x7dOuter.Inner.value;"
        dialect := { jsx := false, typescript := true } }
    program := .withDottedNames }

theorem ReadModule.parse?_withDottedNames :
    Program.parse? withDottedNames.source.text withDottedNames.source.dialect = some withDottedNames.program := by
  decide +kernel

/-- The survey pins the first of the two dotted names, and what is exported in the block. -/
theorem Program.survey_withDottedNames :
    Program.withDottedNames.survey { jsx := false, typescript := true } =
      { firstRoles := [("Outer", .declaration), ("Inner", .declaration), ("value", .declaration)]
        pinned := ["Outer", "value"]
        namesInUse := ["Inner", "Outer", "value"] } := by
  have hfree : Program.withDottedNames.unresolved = [] := sortNames_eq (by decide +kernel) (by decide)
  apply Program.survey_eq hfree (by decide) <;> decide +kernel

/-- **The second of two dotted names is renamed**, where it is declared and not where it is read: the module
exports another name, and reads a property that the namespace does not have. -/
theorem dotted_name_renamed :
    Profile.eager.compile = .ok .eager ∧
      Program.parse? ReadModule.withDottedNames.source.text ReadModule.withDottedNames.source.dialect =
        some ReadModule.withDottedNames.program ∧
      ReadModule.withDottedNames.program.exportedNames = ["Outer", "Inner", "value"] ∧
      ∃ plan, planModules .eager [.withDottedNames] = [plan] ∧
        (ReadModule.withDottedNames.program.apply plan).exportedNames ≠
          ReadModule.withDottedNames.program.exportedNames ∧
        (ReadModule.withDottedNames.program.apply plan).propertyNames ≠
          ReadModule.withDottedNames.program.propertyNames := by
  refine ⟨Profile.compile_eager, ReadModule.parse?_withDottedNames, by decide +kernel, ?_⟩
  have hchanged : ((planModules .eager [.withDottedNames]).all fun plan =>
      (Program.withDottedNames.apply plan).exportedNames != Program.withDottedNames.exportedNames &&
        (Program.withDottedNames.apply plan).propertyNames != Program.withDottedNames.propertyNames) = true := by
    simp only [planModules, List.map_cons, List.map_nil, Program.analyse, ReadModule.withDottedNames,
      Program.survey_withDottedNames]
    decide +kernel
  obtain ⟨plan, hplan, hplan'⟩ := exists_plan_of_all hchanged
  obtain ⟨hexports, hproperties⟩ := Bool.and_eq_true_iff.1 hplan'
  exact ⟨plan, hplan, bne_iff_ne.1 hexports, bne_iff_ne.1 hproperties⟩

end Abridge
