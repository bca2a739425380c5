import Abridge.Proofs.Capture
import Abridge.Proofs.Runs

/-!
# Shortening keeps what names mean

A shortened program has the names of the program that it was made of, respelled, references in the place
of some literals, and at most one statement more, which declares what these references mean.  This file
shows that nothing else changes about its names: two of them mean the same declaration exactly when they
did before, what was declared outside the program still is and keeps its spelling, and every new
reference means the new statement.

The places of a program shift by the statement that is put before it (`ModulePlan.inserted`), and
otherwise stay as they are, so an occurrence and its counterpart are known by their places.

## What is here

* `Occurrence.SameDeclaration`: two occurrences mean the same declaration.
* `KeepsBindings`: what a shortened program has to do with the program that it was made of.
* `keepsBindings_of_respects`: every module of every run keeps its bindings, as long as its plan respects
  the members of its enumerations.
-/

set_option autoImplicit false

namespace Abridge

/-! ## Occurrences have places of their own -/

namespace Tree

mutual

theorem place_of_mem_occurrences {o : Occurrence} :
    ∀ {t : Tree} {env : Env} {use : Use} {spot : Spot}, o ∈ t.occurrences env use spot →
      spot <:+ o.place
  | .node f ps, _, _, spot, h => by
    obtain ⟨j, -, hj⟩ := place_of_mem_occurrencesOf h
    exact (List.suffix_cons j spot).trans hj
  | .binding _, _, _, spot, h => List.mem_singleton.1 h ▸ List.suffix_refl spot
  | .reference _, _, _, spot, h => List.mem_singleton.1 h ▸ List.suffix_refl spot
  | .absent, _, _, _, h | .name _, _, _, _, h | .markupName _, _, _, _, h | .label _, _, _, _, h
  | .privateName _, _, _, _, h | .quoted _, _, _, _, h | .string _, _, _, _, h
  | .number _, _, _, _, h => absurd h List.not_mem_nil

theorem place_of_mem_occurrencesOf {o : Occurrence} {f : Form} {all : List Tree} {env : Env}
    {use : Use} {spot : Spot} : ∀ {ts : List Tree} {i : Nat},
      o ∈ occurrencesOf f all env use spot i ts → ∃ j, i ≤ j ∧ (j :: spot) <:+ o.place
  | [], _, h => absurd h List.not_mem_nil
  | t :: ts, i, h => by
    rcases List.mem_append.1 h with h | h
    · exact ⟨i, Nat.le_refl i, place_of_mem_occurrences h⟩
    · obtain ⟨j, hij, hj⟩ := place_of_mem_occurrencesOf h
      exact ⟨j, Nat.le_of_succ_le hij, hj⟩

end

mutual

theorem nodup_places : ∀ (t : Tree) (env : Env) (use : Use) (spot : Spot),
    ((t.occurrences env use spot).map Occurrence.place).Nodup
  | .node f ps, env, use, spot => nodup_placesOf f ps env use spot ps 0
  | .binding _, _, _, _ | .reference _, _, _, _ => List.nodup_singleton _
  | .absent, _, _, _ | .name _, _, _, _ | .markupName _, _, _, _ | .label _, _, _, _
  | .privateName _, _, _, _ | .quoted _, _, _, _ | .string _, _, _, _ | .number _, _, _, _ =>
    List.nodup_nil

theorem nodup_placesOf (f : Form) (all : List Tree) (env : Env) (use : Use) (spot : Spot) :
    ∀ (ts : List Tree) (i : Nat),
      ((occurrencesOf f all env use spot i ts).map Occurrence.place).Nodup
  | [], _ => List.nodup_nil
  | t :: ts, i => by
    rw [occurrencesOf, List.map_append]
    refine (nodup_places t _ _ _).append (nodup_placesOf f all env use spot ts (i + 1)) ?_
    intro place hfirst hrest
    obtain ⟨o, ho, rfl⟩ := List.mem_map.1 hfirst
    obtain ⟨o', ho', hplace⟩ := List.mem_map.1 hrest
    obtain ⟨j, hij, hj⟩ := place_of_mem_occurrencesOf ho'
    have hi := place_of_mem_occurrences ho
    rw [hplace] at hj
    -- Two places under one node that agree stand in the same part.
    have hsuffix := List.suffix_of_suffix_length_le hi hj (Nat.le_refl _)
    have heq : i = j := List.head_eq_of_cons_eq (hsuffix.eq_of_length rfl)
    omega

end

theorem occurrencesOf_append (f : Form) (all : List Tree) (env : Env) (use : Use) (spot : Spot) :
    ∀ (ts us : List Tree) (i : Nat), occurrencesOf f all env use spot i (ts ++ us) =
      occurrencesOf f all env use spot i ts ++ occurrencesOf f all env use spot (i + ts.length) us
  | [], us, i => rfl
  | t :: ts, us, i => by
    have hlength : i + (t :: ts).length = i + 1 + ts.length := by
      rw [List.length_cons]
      omega
    rw [List.cons_append, occurrencesOf, occurrencesOf_append f all env use spot ts us (i + 1),
      occurrencesOf, List.append_assoc, hlength]

/-- The occurrences of the statements of a program under a plan. -/
theorem mem_occurrencesOf_statements {plan : ModulePlan} {names : List String}
    (htidy : plan.Tidy names) {count : Nat} {o : Occurrence} (all all' : List Tree) {env env' : Env} :
    ∀ {ts : List Tree} {i : Nat}, AllSteady plan ts → leafNamesOf ts ⊆ names →
      (∀ t ∈ ts, Env.Follows plan count env env' (t.demands .value) (t.keys plan)) →
      (o ∈ occurrencesOf .group all' env' .value [] (i + count) (applyAll plan ts) ↔
        (∃ o' ∈ occurrencesOf .group all env .value [] i ts, o = o'.under plan count) ∨
          o.Replaces plan count (literalPlacesOf [] i ts))
  | [], i, _, _, _ => by simp [occurrencesOf, literalPlacesOf, Occurrence.Replaces]
  | t :: ts, i, hsteady, hnames, hfollows => by
    have hfirst := mem_occurrences_apply htidy (o := o) (List.cons_ne_nil i []) hsteady.1
      (fun n hn => hnames (List.mem_append_left _ hn)) (hfollows t List.mem_cons_self)
      (fun _ _ => rfl)
    have hrest := mem_occurrencesOf_statements htidy (o := o) all all' (i := i + 1) hsteady.2
      (fun n hn => hnames (List.mem_append_right _ hn))
      (fun u hu => hfollows u (List.mem_cons_of_mem _ hu))
    rw [Nat.add_right_comm] at hrest
    rw [applyAll_cons, occurrencesOf, List.mem_append]
    refine (or_congr hfirst hrest).trans ?_
    rw [occurrencesOf, literalPlacesOf]
    simp only [Occurrence.Replaces, List.mem_append, or_and_right, exists_or]
    exact or_or_or_comm

end Tree

/-! ## The inserted statement -/

/-- The number of statements that a plan puts before a program. -/
def ModulePlan.inserted (plan : ModulePlan) : Nat := if plan.hoisted.isEmpty then 0 else 1

/-- The keys that a plan declares. -/
def ModulePlan.declaredKeys (plan : ModulePlan) : List String := plan.hoisted.map Prod.fst

theorem Parse.names_of_declares {entries : List (String × Literal)} {ts : List Tree}
    (h : List.Forall₂ Parse.Declares entries ts) :
    Tree.declaratorNames ts = entries.map Prod.fst ∧ Tree.allVarNames ts = [] := by
  induction h with
  | nil => exact ⟨rfl, rfl⟩
  | @cons e t entries ts ht _ ih =>
    obtain ⟨v, rfl, hv⟩ := ht
    have hvars : v.varNames = [] := hv.read_eq (fun _ => rfl) (fun _ => rfl) fun _ => rfl
    obtain ⟨hnames, hvars'⟩ := ih
    refine ⟨?_, ?_⟩
    · rw [List.map_cons, ← hnames]
      rfl
    · simp [Tree.allVarNames, Tree.varNames, Tree.keepsVars, hvars, hvars']

/-- A declaration of keys introduces them in the scope that it stands in. -/
theorem Parse.occurrences_of_declares {kind : VarWord} {all : List Tree} {env : Env} {use : Use}
    {spot : Spot} {o : Occurrence} :
    ∀ {entries : List (String × Literal)} {ts : List Tree} {i : Nat},
      List.Forall₂ Parse.Declares entries ts →
      o ∈ Tree.occurrencesOf (.variables kind false) all env use spot i ts →
      o.introduces = true ∧ o.scope = env.find? o.name .any ∧ o.name ∈ entries.map Prod.fst
  | _, _, _, .nil, ho => absurd ho List.not_mem_nil
  | e :: entries, _, i, .cons ⟨v, ht, hv⟩ hall, ho => by
    subst ht
    rcases List.mem_append.1 ho with ho | ho
    · have hleaves : v.leaves = [] := hv.read_eq (fun _ => rfl) (fun _ => rfl) fun _ => rfl
      have hv' : ∀ env use spot, v.occurrences env use spot = [] := fun env use spot =>
        List.map_eq_nil_iff.1 ((Tree.occurrences_leaves env use spot v).trans hleaves)
      simp only [Tree.occurrences, Tree.occurrencesOf, hv', List.append_nil, List.mem_singleton] at ho
      subst ho
      exact ⟨rfl, rfl, List.mem_cons_self⟩
    · obtain ⟨hintroduces, hscope, hname⟩ := occurrences_of_declares hall ho
      exact ⟨hintroduces, hscope, List.mem_cons_of_mem _ hname⟩

/-- A program with statements before it that declare the keys of a plan. -/
structure Inserts (plan : ModulePlan) (before after : Program) (pre : List Tree) : Prop where
  statements : after.statements = pre ++ Tree.applyAll plan before.statements
  length : pre.length = plan.inserted
  introduced : ∀ key, key ∈ pre.flatMap Tree.introducedNames ↔ key ∈ plan.declaredKeys
  scope : ∀ d : Declared, d ∈ Tree.functionScope after.statements ↔
    (d.2 = .value ∧ d.1 ∈ plan.declaredKeys) ∨
      d ∈ Tree.functionScope (Tree.applyAll plan before.statements)
  occurrences : ∀ all env, ∀ o ∈ Tree.occurrencesOf .group all env .value [] 0 pre,
    o.introduces = true ∧ o.scope = env.find? o.name .any ∧ o.name ∈ plan.declaredKeys

/-- The names of a program with one declaration more. -/
theorem mem_functionScope_cons {kind : VarWord} {entries : List (String × Literal)} {ts ss : List Tree}
    (hts : List.Forall₂ Parse.Declares entries ts) {d : Declared} :
    d ∈ Tree.functionScope (.node (.variables kind false) ts :: ss) ↔
      (d.2 = .value ∧ d.1 ∈ entries.map Prod.fst) ∨ d ∈ Tree.functionScope ss := by
  obtain ⟨hnames, hvars⟩ := Parse.names_of_declares hts
  have hvalue : d ∈ Tree.withNature .value (Tree.declaratorNames ts) ↔
      d.2 = .value ∧ d.1 ∈ entries.map Prod.fst := by
    rw [hnames, Tree.withNature, List.mem_map]
    constructor
    · rintro ⟨n, hn, rfl⟩
      exact ⟨rfl, hn⟩
    · rintro ⟨hd, hn⟩
      exact ⟨d.1, hn, Prod.ext rfl hd.symm⟩
  have hscope : d ∈ Tree.functionScope (.node (.variables kind false) ts :: ss) ↔
      (d ∈ Tree.declared (.node (.variables kind false) ts) ∨
        d ∈ Tree.withNature .value (Tree.varNames (.node (.variables kind false) ts))) ∨
        d ∈ Tree.functionScope ss := by
    simp only [Tree.functionScope, Tree.allDeclared, List.flatMap_cons, Tree.allVarNames,
      Tree.withNature, List.map_append, List.mem_append]
    exact or_or_or_comm
  rw [hscope, ← hvalue]
  refine or_congr_left ?_
  -- The keyword decides whether the names belong to the block or to the function; here both are one.
  cases kind with
  | var => exact or_iff_right List.not_mem_nil
  | _ =>
    have hnone : d ∉ Tree.withNature .value (Tree.allVarNames ts) := by
      rw [hvars]
      exact List.not_mem_nil
    exact or_iff_left hnone

/-- **Applying a plan and hoisting** puts a declaration of the keys before the program, when there are
any. -/
theorem exists_inserts {m : ReadModule} {plan : ModulePlan}
    (hkeys : ∀ x ∈ plan.hoisted, Parse.IsKey x.1 ∧ x.2.isFinite = true) :
    ∃ program pre, m.rewrite plan = some program ∧ Inserts plan m.program program pre := by
  by_cases hhoisted : plan.hoisted = []
  · refine ⟨m.program.apply plan, [], ?_, rfl, ?_, ?_, ?_, ?_⟩
    · rw [ReadModule.rewrite, hhoisted]
      rfl
    · simp [ModulePlan.inserted, hhoisted]
    · simp [ModulePlan.declaredKeys, hhoisted]
    · intro d
      simp [ModulePlan.declaredKeys, hhoisted, Program.apply]
    · exact fun _ _ o ho => absurd ho List.not_mem_nil
  · obtain ⟨ts, hrewrite, hall⟩ := Program.hoist_eq hkeys hhoisted (m.program.apply plan)
      m.source.dialect
    have hdeclared : ∀ key, key ∈ (declared plan.hoisted).map Prod.fst ↔ key ∈ plan.declaredKeys := by
      intro key
      constructor
      · intro h
        obtain ⟨e, he, rfl⟩ := List.mem_map.1 h
        exact List.mem_map_of_mem (mem_of_mem_declared he)
      · intro h
        obtain ⟨e, he, rfl⟩ := List.mem_map.1 h
        obtain ⟨e', he', hkey⟩ := exists_mem_declared he
        exact List.mem_map.2 ⟨e', he', hkey⟩
    obtain ⟨hnames, -⟩ := Parse.names_of_declares hall
    refine ⟨_, [.node (.variables (Parse.declarationKind m.source.dialect) false) ts], hrewrite, rfl,
      ?_, ?_, ?_, ?_⟩
    · simp [ModulePlan.inserted, hhoisted]
    · intro key
      rw [List.flatMap_singleton, Tree.introducedNames, hnames, hdeclared]
    · intro d
      rw [← hdeclared]
      exact mem_functionScope_cons hall
    · intro all env o ho
      rw [Tree.occurrencesOf, Tree.occurrencesOf, List.append_nil] at ho
      obtain ⟨hintroduces, hscope, hname⟩ := Parse.occurrences_of_declares hall ho
      exact ⟨hintroduces, hscope, (hdeclared o.name).1 hname⟩

/-! ## Programs -/

/-- Two occurrences mean the same declaration. -/
def Occurrence.SameDeclaration (o o' : Occurrence) : Prop :=
  o.scope.isSome = true ∧ o.scope = o'.scope ∧ o.name = o'.name

/-- The literals of a program, each with its place and its offset. -/
def Program.literalPlaces (p : Program) : List (Spot × Nat) := Tree.literalPlacesOf [] 0 p.statements

/-- **What names mean is kept**: how a program under a plan resolves, next to the program itself. -/
structure KeepsBindings (plan : ModulePlan) (before after : Program) : Prop where
  /-- No two occurrences have one place. -/
  places : (after.occurrences.map Occurrence.place).Nodup
  /-- Every occurrence has its counterpart. -/
  counterparts : ∀ o ∈ before.occurrences, o.under plan plan.inserted ∈ after.occurrences
  /-- Occurrences mean the same declaration exactly when their counterparts do. -/
  same : ∀ o ∈ before.occurrences, ∀ o' ∈ before.occurrences, o.SameDeclaration o' ↔
    (o.under plan plan.inserted).SameDeclaration (o'.under plan plan.inserted)
  /-- What is declared nowhere is declared nowhere afterwards and keeps its spelling. -/
  unresolved : ∀ o ∈ before.occurrences, o.introduces = false → o.scope = none →
    (o.under plan plan.inserted).scope = none ∧ (o.under plan plan.inserted).name = o.name
  /-- What replaces a literal means a declaration of the inserted statement and no other. -/
  replaced : ∀ x ∈ before.literalPlaces, ∀ key, plan.sites.get? x.2 = some key →
    ⟨Spot.shift plan.inserted x.1, key, false, some []⟩ ∈ after.occurrences ∧
      key ∈ (after.statements.take plan.inserted).flatMap Tree.introducedNames ∧
      ∀ o ∈ before.occurrences, (o.under plan plan.inserted).name ≠ key
  /-- There is nothing else but what the inserted statement introduces. -/
  others : ∀ o ∈ after.occurrences, (∃ o' ∈ before.occurrences, o = o'.under plan plan.inserted) ∨
    o.Replaces plan plan.inserted before.literalPlaces ∨
    (o.introduces = true ∧ o.scope = some [] ∧ o.name ∈ plan.declaredKeys)

namespace Inserts

variable {plan : ModulePlan} {names : List String} {before after : Program} {pre : List Tree}

theorem answers_declaredKeys (h : Inserts plan before after pre) {key : String}
    (hkey : key ∈ plan.declaredKeys) {use : Use} (huse : Nature.value.supports use = true) :
    answers (Tree.functionScope after.statements) key use = true :=
  answers_iff.2 ⟨(key, .value), (h.scope _).2 (.inl ⟨rfl, hkey⟩), rfl, huse⟩

/-- The scope of the whole program answers as it did, and knows the keys. -/
theorem follows (h : Inserts plan before after pre) (htidy : plan.Tidy names)
    (hnames : Tree.leafNamesOf before.statements ⊆ names)
    (hfresh : ∀ key ∈ plan.declaredKeys, ∀ n ∈ names, plan.rename n ≠ key)
    (hsites : ∀ site key, plan.sites.get? site = some key → key ∈ plan.declaredKeys) {t : Tree}
    (ht : t ∈ before.statements) :
    Env.Follows plan plan.inserted [before.topFrame] [after.topFrame] (t.demands .value)
      (t.keys plan) := by
  constructor
  · intro d hd
    have hd' : d.1 ∈ names :=
      hnames (Tree.mem_leafNamesOf.2 ⟨t, ht, Tree.mem_leafNames_of_mem_demands hd⟩)
    have hafter : answers (Tree.functionScope after.statements) (plan.rename d.1) d.2 =
        answers (Tree.functionScope (Tree.applyAll plan before.statements)) (plan.rename d.1) d.2 := by
      rw [Bool.eq_iff_iff, answers_iff, answers_iff]
      refine exists_congr fun x => ?_
      rw [h.scope, or_and_right]
      refine or_iff_right ?_
      rintro ⟨⟨-, hkey⟩, hname, -⟩
      exact hfresh _ hkey _ hd' hname.symm
    have hreads := (Tree.reads_functionScope plan before.statements).answers_eq
      (fun m hm => htidy.inj m (hnames hm) _ hd') d.2
    rw [Program.topFrame, Program.topFrame, Env.find?_cons, Env.find?_cons, hafter, hreads]
    split <;> rfl
  · intro key hkey use huse
    obtain ⟨site, hsite⟩ := Tree.exists_site_of_mem_keys hkey
    rw [Program.topFrame, Env.find?_cons, if_pos (h.answers_declaredKeys (hsites site key hsite) huse)]

/-- The occurrences of a program under a plan. -/
theorem mem_occurrences (h : Inserts plan before after pre) (htidy : plan.Tidy names)
    (hnames : Tree.leafNamesOf before.statements ⊆ names)
    (hfresh : ∀ key ∈ plan.declaredKeys, ∀ n ∈ names, plan.rename n ≠ key)
    (hsites : ∀ site key, plan.sites.get? site = some key → key ∈ plan.declaredKeys)
    (hsteady : Tree.AllSteady plan before.statements) {o : Occurrence} :
    o ∈ after.occurrences ↔
      o ∈ Tree.occurrencesOf .group after.statements [after.topFrame] .value [] 0 pre ∨
        (∃ o' ∈ before.occurrences, o = o'.under plan plan.inserted) ∨
          o.Replaces plan plan.inserted before.literalPlaces := by
  have hrest := Tree.mem_occurrencesOf_statements htidy (o := o) before.statements after.statements
    (i := 0) hsteady hnames fun t ht => h.follows htidy hnames hfresh hsites ht
  unfold Program.occurrences
  nth_rewrite 2 [h.statements]
  rw [Tree.occurrencesOf_append, List.mem_append, h.length]
  exact or_congr_right hrest

/-- What the inserted statement introduces belongs to the whole program. -/
theorem mem_occurrencesOf_pre (h : Inserts plan before after pre) {o : Occurrence}
    (ho : o ∈ Tree.occurrencesOf .group after.statements [after.topFrame] .value [] 0 pre) :
    o.introduces = true ∧ o.scope = some [] ∧ o.name ∈ plan.declaredKeys := by
  obtain ⟨hintroduces, hscope, hname⟩ := h.occurrences _ _ o ho
  refine ⟨hintroduces, ?_, hname⟩
  rw [hscope, Program.topFrame, Env.find?_cons, if_pos (h.answers_declaredKeys hname rfl)]

end Inserts

/-- Counterparts mean the same declaration exactly when the occurrences did. -/
theorem Occurrence.sameDeclaration_under {plan : ModulePlan} {names : List String}
    (htidy : plan.Tidy names) {o o' : Occurrence} (ho : o.name ∈ names) (ho' : o'.name ∈ names)
    (count : Nat) : (o.under plan count).SameDeclaration (o'.under plan count) ↔
      o.SameDeclaration o' := by
  unfold SameDeclaration under
  rw [Option.isSome_map, (Option.map_injective (Spot.shift_injective count)).eq_iff]
  refine and_congr_right fun _ => and_congr_right fun _ => ?_
  exact ⟨htidy.inj _ ho _ ho', fun h => h ▸ rfl⟩

/-- **A program keeps its bindings** under a plan that is tidy on its names and leaves its scopes as they
are. -/
theorem Inserts.keepsBindings {plan : ModulePlan} {names : List String} {before after : Program}
    {pre : List Tree} (h : Inserts plan before after pre) (htidy : plan.Tidy names)
    (hnames : Tree.leafNamesOf before.statements ⊆ names)
    (hfresh : ∀ key ∈ plan.declaredKeys, ∀ n ∈ names, plan.rename n ≠ key)
    (hsites : ∀ site key, plan.sites.get? site = some key → key ∈ plan.declaredKeys)
    (hsteady : Tree.AllSteady plan before.statements)
    (hfree : ∀ o ∈ before.occurrences, o.introduces = false → o.scope = none →
      plan.rename o.name = o.name) : KeepsBindings plan before after := by
  have hmem : ∀ {o}, o ∈ after.occurrences ↔ _ :=
    h.mem_occurrences htidy hnames hfresh hsites hsteady
  have hspelled : ∀ o ∈ before.occurrences, o.name ∈ names :=
    fun o ho => hnames (Program.mem_leafNamesOf_of_mem_occurrences ho)
  constructor
  · exact Tree.nodup_placesOf _ _ _ _ _ _ _
  · exact fun o ho => hmem.2 (.inr (.inl ⟨o, ho, rfl⟩))
  · exact fun o ho o' ho' =>
      (Occurrence.sameDeclaration_under htidy (hspelled o ho) (hspelled o' ho') _).symm
  · intro o ho hintroduces hscope
    refine ⟨?_, hfree o ho hintroduces hscope⟩
    rw [Occurrence.under, hscope]
    rfl
  · intro x hx key hkey
    refine ⟨hmem.2 (.inr (.inr ⟨x, hx, key, hkey, rfl⟩)), ?_, ?_⟩
    · rw [h.statements, ← h.length, List.take_left, h.introduced]
      exact hsites x.2 key hkey
    · exact fun o ho => htidy.fresh x.2 key hkey _ (hspelled o ho)
  · intro o ho
    rcases hmem.1 ho with ho | ho | ho
    · exact .inr (.inr (h.mem_occurrencesOf_pre ho))
    · exact .inl ho
    · exact .inr (.inl ho)

/-! ## Runs -/

namespace Settled

variable {p : CompiledProfile} {modules : List ReadModule} {final : Planner}

/-- What a module renames has its key in the last planner. -/
theorem exists_assigned (h : Settled p modules final) {m : ReadModule} {plan : ModulePlan}
    (hx : (m, plan) ∈ modules.zip (planModules p modules)) (n : String) :
    plan.rename n = n ∨ (Thing.name n, plan.rename n) ∈ final.assigned := by
  cases hget : plan.renames.get? n with
  | none => exact .inl (by rw [ModulePlan.rename, hget, Option.getD_none])
  | some key =>
    right
    rw [ModulePlan.rename, hget, Option.getD_some]
    obtain ⟨r, hr, rfl, rfl⟩ := ((h.planned hx).agrees.renames n key).1 hget
    exact (h.mem_renamings (List.mem_flatMap.2 ⟨plan, (List.of_mem_zip hx).2, hr⟩)).2

/-- A key is spelled in no module of the run. -/
theorem key_notMem (h : Settled p modules final) {m : ReadModule} (hm : m ∈ modules) {e : Thing × String}
    (he : e ∈ final.assigned) : e.2 ∉ (m.program.survey m.source.dialect).namesInUse :=
  fun hn => (h.sound.fresh _ (h.sound.taken e he)).1 (List.mem_flatMap.2 ⟨m, hm, hn⟩)

/-- The keys of literals are no names under the plan. -/
theorem rename_ne_key (h : Settled p modules final) {m : ReadModule} {plan : ModulePlan}
    (hx : (m, plan) ∈ modules.zip (planModules p modules)) {key : String}
    (hkey : key ∈ plan.declaredKeys) {n : String}
    (hn : n ∈ (m.program.survey m.source.dialect).namesInUse) : plan.rename n ≠ key := by
  obtain ⟨e, he, rfl⟩ := List.mem_map.1 hkey
  obtain ⟨-, hassigned⟩ := h.mem_hoisted (List.mem_flatMap.2 ⟨plan, (List.of_mem_zip hx).2, he⟩)
  intro heq
  rcases h.exists_assigned hx n with hkept | hname
  · refine h.key_notMem (List.of_mem_zip hx).1 hassigned ?_
    rwa [← heq, hkept]
  · have hthing := (h.sound.key_eq_iff hname hassigned).1 heq
    cases hthing

/-- What replaces literals is declared. -/
theorem mem_declaredKeys (h : Settled p modules final) {m : ReadModule} {plan : ModulePlan}
    (hx : (m, plan) ∈ modules.zip (planModules p modules)) {site : Nat} {key : String}
    (hsite : plan.sites.get? site = some key) : key ∈ plan.declaredKeys := by
  obtain ⟨pairs, -, hhoisted, hsites⟩ := (h.planned hx).hoists
  rw [hsites] at hsite
  rcases Planner.placed_eq_some hsite with ⟨x, hx, -, rfl⟩ | hnone
  · rw [ModulePlan.declaredKeys, hhoisted, List.map_map]
    exact List.mem_map_of_mem hx
  · cases hnone

/-- **A plan of a run is tidy** on the names that its module spells. -/
theorem tidy (h : Settled p modules final) {m : ReadModule} {plan : ModulePlan}
    (hx : (m, plan) ∈ modules.zip (planModules p modules)) :
    plan.Tidy (m.program.survey m.source.dialect).namesInUse := by
  have hm : m ∈ modules := (List.of_mem_zip hx).1
  constructor
  · intro n hn n' hn' heq
    rcases h.exists_assigned hx n with hkept | hassigned
    · rcases h.exists_assigned hx n' with hkept' | hassigned'
      · rw [← hkept, heq, hkept']
      · exact absurd (by rwa [← heq, hkept]) (h.key_notMem hm hassigned')
    · rcases h.exists_assigned hx n' with hkept' | hassigned'
      · exact absurd (by rwa [heq, hkept']) (h.key_notMem hm hassigned)
      · exact Thing.name.inj ((h.sound.key_eq_iff hassigned hassigned').1 heq)
  · exact fun site key hsite n hn => h.rename_ne_key hx (h.mem_declaredKeys hx hsite) hn

/-- A plan keeps what is pinned. -/
theorem rename_pinned (h : Settled p modules final) {m : ReadModule} {plan : ModulePlan}
    (hx : (m, plan) ∈ modules.zip (planModules p modules)) {n : String}
    (hn : n ∈ (m.program.survey m.source.dialect).pinned) : plan.rename n = n := by
  cases hget : plan.renames.get? n with
  | none => rw [ModulePlan.rename, hget, Option.getD_none]
  | some key =>
    obtain ⟨r, hr, rfl, -⟩ := ((h.planned hx).agrees.renames n key).1 hget
    exact absurd hn ((h.planned hx).agrees.allowed r hr).2.1

/-- A plan minds every statement of its module. -/
theorem minded (h : Settled p modules final) {m : ReadModule} {plan : ModulePlan}
    (hx : (m, plan) ∈ modules.zip (planModules p modules)) {t : Tree}
    (ht : t ∈ m.program.statements) :
    t.Minded plan (m.program.survey m.source.dialect).namesInUse := by
  have hwatched : Watched plan (m.program.survey m.source.dialect).namesInUse m.program.sightings := by
    constructor
    · intro n hn
      refine h.rename_pinned hx (mem_sortNames.2 (List.mem_append_left _ (List.mem_append_left _ ?_)))
      exact List.mem_filterMap.2 ⟨_, hn, rfl⟩
    · exact fun n hn => mem_sortNames.2 (List.mem_append_left _ hn)
  obtain ⟨i, hi⟩ := List.getElem?_of_mem ht
  exact .inl ⟨_, hwatched.mono (Tree.sightings_subset_sightingsOf (f := .group) hi rfl)⟩

/-- A module is shortened under its plan. -/
theorem inserts (h : Settled p modules final) {m : ReadModule} {plan : ModulePlan}
    (hx : (m, plan) ∈ modules.zip (planModules p modules)) :
    ∃ program pre, m.rewrite plan = some program ∧ Inserts plan m.program program pre := by
  refine exists_inserts fun x hx' => ?_
  have hmem := List.mem_flatMap.2 ⟨plan, (List.of_mem_zip hx).2, hx'⟩
  exact ⟨h.isKey hmem, (h.mem_hoisted hmem).1⟩

end Settled

/-- **Every module of every run keeps its bindings.**  A module that was read is shortened under its plan
to a program in which every occurrence has its counterpart, two of them mean the same declaration exactly
when they did, names that are declared nowhere stay as they are, and what replaces a literal means the
statement that was put before the program.  The plan only has to respect the members of enumerations that
are written as texts, and the literals that stand for types. -/
theorem keepsBindings_of_respects {profile : Profile} {p : CompiledProfile}
    (hp : profile.compile = .ok p) {modules : List ReadModule}
    (hread : ∀ m ∈ modules, Program.parse? m.source.text m.source.dialect = some m.program)
    {m : ReadModule} {plan : ModulePlan} (hx : (m, plan) ∈ modules.zip (planModules p modules))
    (hrespects : Tree.respectsAll plan m.program.statements = true) :
    ∃ program, m.rewrite plan = some program ∧ KeepsBindings plan m.program program := by
  obtain ⟨final, h⟩ := exists_settled hp modules
  have hshaped : Tree.AllShaped m.program.statements :=
    Program.shaped_of_parse? (hread m (List.of_mem_zip hx).1)
  have hnames : Tree.leafNamesOf m.program.statements ⊆
      (m.program.survey m.source.dialect).namesInUse :=
    fun n hn => Program.mem_namesInUse hshaped hn _
  have htidy := h.tidy hx
  obtain ⟨program, pre, hprogram, hinserts⟩ := h.inserts hx
  refine ⟨program, hprogram, hinserts.keepsBindings htidy hnames ?_ ?_ ?_ ?_⟩
  · exact fun key hkey n hn => h.rename_ne_key hx hkey hn
  · exact fun site key hsite => h.mem_declaredKeys hx hsite
  · refine Tree.allSteady_iff.2 fun t ht => ?_
    exact Tree.steady_of_respects htidy (Tree.allShaped_iff.1 hshaped t ht)
      (fun n hn => hnames (Tree.mem_leafNamesOf.2 ⟨t, ht, hn⟩))
      (Tree.respectsAll_iff.1 hrespects t ht) (h.minded hx ht)
  · exact fun o ho hintroduces hscope =>
      h.rename_pinned hx (Program.mem_pinned_of_unresolved ho hintroduces hscope _)

end Abridge
