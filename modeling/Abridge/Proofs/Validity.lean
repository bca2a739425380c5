import Abridge.Proofs.Faults

/-!
# Validity of shortened programs

A program is valid when no two of its declarations clash, everything in it stands where it may, and its
exports mean something.  This file follows the three through a run.

Clashes are counted by `Abridge.Proofs.Clashes`, and what stands where it must not by
`Abridge.Proofs.Faults`; what is left is the declaration that is put in front (`Fronts`).  Its keys are
different from each other and from all names of the program, so it takes part in no clash, and they are
ordinary names, so it has no faults of its own.  An export names a variable of the module, which is pinned
and keeps its name.  A scope that declared the name before the plan still does so, and no other name and no
key takes its spelling, so it is declared nowhere only if it was declared nowhere before.

What remains are the literals that strict code deletes.  The module at the end of this file has two.

## What is here

* `Fronts`: a program under a plan, with its declaration in front.
* `Fronts.clashes`, `Fronts.placeFaults`, `Fronts.exportFaults`: what is wrong with such a program.
* `Program.deletions`: how often a plan makes the strict code of a program delete a name.
* `faults_rewrite`: the faults of a valid module of a run under its plan.
-/

set_option autoImplicit false

namespace Abridge

/-! ## The declaration in front -/

/-- How a program under a plan is made up: one declaration of the keys, if there are any, stands in front of
what there was. -/
structure Fronts (plan : ModulePlan) (before after : Program) (pre : List Tree) : Prop where
  directives : after.directives = before.directives
  statements : after.statements = pre ++ Tree.applyAll plan before.statements
  front : pre = [] ∨ ∃ kind ts, pre = [.node (.variables kind false) ts] ∧
    List.Forall₂ Parse.Declares (declared plan.hoisted) ts

theorem exists_fronts {m : ReadModule} {plan : ModulePlan}
    (hkeys : ∀ x ∈ plan.hoisted, Parse.IsKey x.1 ∧ x.2.isFinite = true) :
    ∃ program pre, m.rewrite plan = some program ∧ Fronts plan m.program program pre := by
  by_cases hhoisted : plan.hoisted = []
  · refine ⟨m.program.apply plan, [], ?_, rfl, rfl, .inl rfl⟩
    rw [ReadModule.rewrite, hhoisted]
    rfl
  · obtain ⟨ts, hrewrite, hall⟩ := Program.hoist_eq hkeys hhoisted (m.program.apply plan)
      m.source.dialect
    exact ⟨_, _, hrewrite, rfl, rfl, .inr ⟨_, ts, rfl, hall⟩⟩

theorem Literal.faults_of_denotes {l : Literal} {t : Tree} (h : l.Denotes t) (c : Context) :
    t.faults c = 0 := by
  unfold Denotes at h
  split at h
  · obtain ⟨-, -, hlegacy⟩ := h
    rw [Tree.faults, hlegacy, Bool.and_false]
    rfl
  · obtain ⟨-, hlegacy⟩ := h
    rw [Tree.faults, hlegacy, Bool.and_false]
    rfl
  · obtain ⟨-, -, hlegacy⟩ := h
    change 0 + (faultWhen (_ && Context.hasLegacyZero _) + 0) = 0
    rw [hlegacy, Bool.and_false]
    rfl
  · exact h.elim

theorem Literal.clashes_of_denotes {l : Literal} {t : Tree} (h : l.Denotes t) (around : Surroundings) :
    t.clashes around = 0 :=
  h.read_eq (g := (·.clashes around)) (fun _ => rfl) (fun _ => rfl) fun _ => rfl

namespace Parse

variable {entries : List (String × Literal)} {ts : List Tree}

/-- A declaration of ordinary names has no faults. -/
theorem faultsOf_of_declares {f : Form} {all : List Tree} {c : Context} :
    ∀ {entries : List (String × Literal)} {ts : List Tree} {i : Nat}, List.Forall₂ Declares entries ts →
      (∀ e ∈ entries, IsOrdinary e.1) → Tree.faultsOf f all c i ts = 0
  | _, _, _, .nil, _ => rfl
  | e :: entries, _, i, .cons ⟨v, ht, hv⟩ hall, hkeys => by
    subst ht
    obtain ⟨hkey, hkeys⟩ := List.forall_mem_cons.1 hkeys
    rw [Tree.faultsOf, faultsOf_of_declares hall hkeys, Nat.add_zero]
    simp only [Tree.faults, Tree.faultsOf, hkey.bindingFaults_eq_zero, Literal.faults_of_denotes hv]
    rfl

theorem clashesOf_of_declares {f : Form} {all : List Tree} {around : Surroundings} :
    ∀ {entries : List (String × Literal)} {ts : List Tree} {i : Nat}, List.Forall₂ Declares entries ts →
      Tree.clashesOf f all around i ts = 0
  | _, _, _, .nil => rfl
  | e :: entries, _, i, .cons ⟨v, ht, hv⟩ hall => by
    subst ht
    rw [Tree.clashesOf, clashesOf_of_declares hall, Nat.add_zero]
    simp only [Tree.clashes, Tree.clashesOf, Literal.clashes_of_denotes hv]
    rfl

/-- The values of a declaration of keys declare nothing. -/
theorem vars_of_declares (h : List.Forall₂ Declares entries ts) :
    Tree.directVarsOf ts = [] ∧ ∀ seen, Tree.escapingFrom seen ts = [] := by
  induction h with
  | nil => exact ⟨rfl, fun _ => rfl⟩
  | cons hfirst _ ih =>
    obtain ⟨v, rfl, hv⟩ := hfirst
    obtain ⟨hdirect, hescaping⟩ := ih
    have hdirect' : v.directVars = [] := hv.read_eq (fun _ => rfl) (fun _ => rfl) fun _ => rfl
    have hescaping' : v.escapingVars = [] := hv.read_eq (fun _ => rfl) (fun _ => rfl) fun _ => rfl
    constructor
    · simp [Tree.directVarsOf, Tree.directVars, Tree.keepsVars, Tree.opensBlock, hdirect, hdirect']
    · simp [Tree.escapingFrom, Tree.escapingVars, Tree.keepsVars, hescaping, hescaping']

/-- A declaration of keys declares them in the scope that it stands in, all in one way. -/
theorem scopeDeclarations_of_declares (h : List.Forall₂ Declares entries ts) (strict : Bool)
    (standing : Tree.Standing) (kind : VarWord) :
    ∃ k, Tree.scopeDeclarations strict standing [.node (.variables kind false) ts] =
      Tree.withKind k (entries.map Prod.fst) := by
  obtain ⟨hnames, hvars⟩ := names_of_declares h
  obtain ⟨hdirect, hescaping⟩ := vars_of_declares h
  cases kind with
  | var =>
    have hself : (Tree.declaratorNames ts).filter (fun n => !(Tree.declaratorNames ts).contains n) = [] :=
      List.filter_eq_nil_iff.2 fun n hn => by simp [hn]
    refine ⟨.variable, ?_⟩
    simp only [Tree.scopeDeclarations, Tree.lexicalDeclarations, VarWord.isLexical, Tree.directVars,
      Tree.keepsVars, Tree.opensBlock, Tree.escapingVars, Tree.settledVars, Tree.allVarNames, Tree.varNames,
      Bool.or_self, Bool.false_eq_true, if_false, List.flatMap_singleton, List.append_nil, hself]
    rw [hnames]
    simp [Tree.withKind]
  | _ =>
    refine ⟨.lexical, ?_⟩
    simp [Tree.scopeDeclarations, Tree.lexicalDeclarations, VarWord.isLexical, Tree.directVars,
      Tree.keepsVars, Tree.opensBlock, Tree.escapingVars, Tree.settledVars, Tree.allVarNames, Tree.varNames,
      Tree.withKind, hnames, hvars, hdirect, hescaping]

end Parse

/-! ## Keys -/

/-- The words of the built-in types do not end in a digit. -/
theorem notMem_typeWords_candidate (lead : String) (n : Nat) :
    ShortNames.candidate lead n ∉ Context.typeWords := by
  have hwords : ∀ w ∈ Context.typeWords, w.toList.getLast?.all (fun c => !c.isDigit) = true := by decide
  intro hmem
  have hlast := hwords _ hmem
  have hne : Nat.toDigits 10 n ≠ [] := Nat.toDigits_ne_nil
  rw [ShortNames.toList_candidate, List.getLast?_append_of_ne_nil _ hne, List.getLast?_eq_some_getLast hne,
    Option.all_some, Nat.isDigit_of_mem_toDigits (by decide) (by decide) (List.getLast_mem hne)] at hlast
  cases hlast

namespace Settled

variable {p : CompiledProfile} {modules : List ReadModule} {final : Planner}

/-- The keys of a run are ordinary names. -/
theorem isOrdinary (h : Settled p modules final) {e : Thing × String} (he : e ∈ final.assigned) :
    IsOrdinary e.2 := by
  have htaken := h.sound.taken e he
  obtain ⟨-, hfree, -⟩ := h.sound.fresh _ htaken
  obtain ⟨lead, n, hcounted⟩ := h.sound.counted _ htaken
  constructor
  · intro hmem
    rw [isProtectedName, List.contains_iff_mem.2 hmem] at hfree
    cases hfree
  · rw [hcounted]
    exact notMem_typeWords_candidate lead n

/-- **What a plan of a run writes is ordinary**, and it keeps the reserved names. -/
theorem writesOrdinary (h : Settled p modules final) {m : ReadModule} {plan : ModulePlan}
    (hx : (m, plan) ∈ modules.zip (planModules p modules)) : plan.WritesOrdinary := by
  constructor
  · intro n hn
    have hprotected : p.isProtected n = true := by
      rw [CompiledProfile.isProtected, isProtectedName, List.contains_iff_mem.2 hn]
      rfl
    rw [ModulePlan.rename, h.get?_renames_eq_none hx (.inl hprotected), Option.getD_none]
  · exact fun n => (h.exists_assigned hx n).imp id fun hassigned => h.isOrdinary hassigned
  · intro site key hsite
    obtain ⟨e, he, rfl⟩ := List.mem_map.1 (h.mem_declaredKeys hx hsite)
    exact h.isOrdinary (h.mem_hoisted (List.mem_flatMap.2 ⟨plan, (List.of_mem_zip hx).2, he⟩)).2

end Settled

/-! ## Clashes -/

/-- Declarations of different names do not clash. -/
theorem countClashes_eq_zero :
    ∀ {ds earlier : List Declaration}, (ds.map Declaration.name).Nodup →
      (∀ d ∈ ds, ∀ e ∈ earlier, e.name ≠ d.name) → countClashes earlier ds = 0
  | [], _, _, _ => rfl
  | d :: ds, earlier, hnodup, hearlier => by
    obtain ⟨hd, hds⟩ := List.nodup_cons.1 hnodup
    have hclash : d.clashesWith earlier = false := by
      rw [Declaration.clashesWith, List.any_eq_false]
      intro e he h
      exact hearlier d List.mem_cons_self e he (eq_of_beq (Bool.and_eq_true_iff.1 h).1)
    have hrest : countClashes (d :: earlier) ds = 0 := by
      refine countClashes_eq_zero hds fun b hb e he heq => ?_
      rcases List.mem_cons.1 he with rfl | he
      · exact hd (heq ▸ List.mem_map_of_mem hb)
      · exact hearlier b (List.mem_cons_of_mem _ hb) e he heq
    rw [countClashes, hclash, hrest]
    rfl

/-- What a statement of a program declares does not depend on where it stands. -/
theorem clashesOf_group (all : List Tree) (around : Surroundings) (ts : List Tree) (i : Nat) :
    Tree.clashesOf .group all around i ts = total (ts.map (Tree.clashes { strict := around.strict })) := by
  induction ts generalizing i with
  | nil => rfl
  | cons t ts ih =>
    rw [Tree.clashesOf, ih (i + 1)]
    rfl

theorem total_append (ms ns : List Nat) : total (ms ++ ns) = total ms + total ns := by
  induction ms with
  | nil => exact (Nat.zero_add _).symm
  | cons m ms ih => rw [List.cons_append, total, total, ih, Nat.add_assoc]

theorem total_eq_zero {ns : List Nat} : total ns = 0 ↔ ∀ n ∈ ns, n = 0 := by
  induction ns with
  | nil => simp [total]
  | cons n ns ih => simp [total, ih]

/-- How often a plan makes the strict code of a program delete a name that was a literal. -/
def Program.deletions (p : Program) (plan : ModulePlan) (d : Dialect) : Nat :=
  let c : Context := { dialect := d, strict := p.isStrict d, top := true, outermost := true }
  total (p.statements.map (Tree.deletions plan c))

namespace Fronts

variable {plan : ModulePlan} {before after : Program} {pre : List Tree}

theorem isStrict (h : Fronts plan before after pre) (d : Dialect) : after.isStrict d = before.isStrict d := by
  rw [Program.isStrict, Program.isStrict, h.directives]

/-- What stands in front declares the keys and nothing else. -/
theorem exists_declarations (h : Fronts plan before after pre) (strict : Bool) (standing : Tree.Standing) :
    ∃ kind keys, Tree.scopeDeclarations strict standing pre = Tree.withKind kind keys ∧
      keys.Sublist ((declared plan.hoisted).map Prod.fst) := by
  rcases h.front with rfl | ⟨kind, ts, rfl, hts⟩
  · exact ⟨.lexical, [], rfl, List.nil_sublist _⟩
  · obtain ⟨k, hk⟩ := Parse.scopeDeclarations_of_declares hts strict standing kind
    exact ⟨k, _, hk, List.Sublist.refl _⟩

/-- **As many declarations of a program clash under a plan as before.** -/
theorem clashes (h : Fronts plan before after pre) {names : List String} (hplan : plan.Separates names)
    (hnames : Tree.leafNamesOf before.statements ⊆ names)
    (hfresh : ∀ key ∈ plan.declaredKeys, ∀ n ∈ names, plan.rename n ≠ key) (d : Dialect) :
    after.clashes d = before.clashes d := by
  rw [Program.clashes, Program.clashes, h.isStrict, h.statements, clashesOf_group, clashesOf_group,
    List.map_append, total_append]
  generalize before.isStrict d = strict
  generalize (if d.module = true then Tree.Standing.module else Tree.Standing.head) = standing
  -- What stands in front has no clashes inside.
  have hpre : total (pre.map (Tree.clashes { strict })) = 0 := by
    rcases h.front with rfl | ⟨kind, ts, rfl, hts⟩
    · rfl
    · rw [List.map_singleton, total, Tree.clashes, Parse.clashesOf_of_declares hts]
      rfl
  have hparts : total ((Tree.applyAll plan before.statements).map (Tree.clashes { strict })) =
      total (before.statements.map (Tree.clashes { strict })) := by
    rw [Tree.applyAll_eq_map, List.map_map]
    refine congrArg total (List.map_congr_left fun t ht => ?_)
    have hsub : t.leafNames ⊆ names := fun n hn => hnames (Tree.mem_leafNamesOf.2 ⟨t, ht, hn⟩)
    have hclashes : (t.apply plan).clashes (({ strict } : Surroundings).under plan) =
        t.clashes { strict } := Tree.clashes_apply hplan hsub fun _ hd => absurd hd List.not_mem_nil
    exact hclashes
  have hreads := Tree.reads_scopeDeclarations strict standing (hplan.mono hnames)
  obtain ⟨kind, keys, hdeclares, hsub⟩ := h.exists_declarations strict standing
  have hkey : ∀ e ∈ Tree.withKind kind keys, e.name ∈ plan.declaredKeys := by
    intro e he
    obtain ⟨key, hmem, rfl⟩ := List.mem_map.1 he
    obtain ⟨x, hx, hxkey⟩ := List.mem_map.1 (hsub.subset hmem)
    exact hxkey ▸ List.mem_map_of_mem (mem_of_mem_declared hx)
  -- Nor do its declarations clash with each other, nor those of the program with them.
  have hfront : countClashes [] (Tree.withKind kind keys) = 0 := by
    refine countClashes_eq_zero ?_ fun _ _ _ he => absurd he List.not_mem_nil
    rw [Tree.withKind, List.map_map, show Declaration.name ∘ (fun n => ⟨n, kind⟩) = id from rfl, List.map_id]
    exact (declared_collates plan.hoisted).distinct.sublist hsub
  have hrest : countClashes (Tree.withKind kind keys).reverse
      (Tree.scopeDeclarations strict standing (Tree.applyAll plan before.statements)) =
      countClashes [] (Tree.scopeDeclarations strict standing before.statements) := by
    have hapart : ∀ d ∈ Tree.scopeDeclarations strict standing (Tree.applyAll plan before.statements),
        d.clashesWith (Tree.withKind kind keys).reverse = false := by
      intro d hd
      rw [hreads.eq] at hd
      obtain ⟨d', hd', rfl⟩ := List.mem_map.1 hd
      rw [Declaration.clashesWith, List.any_eq_false]
      intro e he hclash
      exact hfresh _ (hkey e (List.mem_reverse.1 he)) _ (hnames (hreads.mem d' hd'))
        (eq_of_beq (Bool.and_eq_true_iff.1 hclash).1).symm
    have hskip : countClashes ([] ++ (Tree.withKind kind keys).reverse) _ = countClashes [] _ :=
      countClashes_skip hapart
    have hmapped : countClashes (([] : List Declaration).map (Spelled.respell plan)) _ =
        countClashes [] (Tree.scopeDeclarations strict standing before.statements) :=
      countClashes_map hplan (fun d hd => hnames (hreads.mem d hd))
        fun _ he => absurd he List.not_mem_nil
    rw [List.nil_append] at hskip
    rw [hskip, hreads.eq]
    exact hmapped
  have hscope : countClashes [] (Tree.scopeDeclarations strict standing
      (pre ++ Tree.applyAll plan before.statements)) =
      countClashes [] (Tree.scopeDeclarations strict standing before.statements) := by
    rw [Tree.scopeDeclarations, List.flatMap_append]
    change countClashes [] (Tree.scopeDeclarations strict standing pre ++ Tree.scopeDeclarations strict
      standing (Tree.applyAll plan before.statements)) = _
    rw [hdeclares, countClashes_append, hfront, List.append_nil, hrest, Nat.zero_add]
  rw [hscope, hpre, hparts, Nat.zero_add]

/-! ## Places -/

/-- **A valid program has as many misplaced parts under a plan as it deletes names that were literals.** -/
theorem placeFaults (h : Fronts plan before after pre) (hplan : plan.WritesOrdinary)
    (hkeys : ∀ e ∈ plan.hoisted, IsOrdinary e.1) (hshaped : Tree.AllShaped before.statements) {d : Dialect}
    (hvalid : before.placeFaults d = 0) : after.placeFaults d = before.deletions plan d := by
  obtain ⟨hdirectives, hstatements⟩ := Nat.add_eq_zero_iff.1 hvalid
  have hpre : total (pre.map (Tree.faults
      { dialect := d, strict := before.isStrict d, top := true, outermost := true })) = 0 := by
    rcases h.front with rfl | ⟨kind, ts, rfl, hts⟩
    · rfl
    · have hkeys' : ∀ e ∈ declared plan.hoisted, IsOrdinary e.1 :=
        fun e he => hkeys e (mem_of_mem_declared he)
      rw [List.map_singleton, total, Tree.faults, Parse.faultsOf_of_declares hts hkeys']
      rfl
  simp only [Program.placeFaults, h.isStrict, h.directives, h.statements, List.map_append, total_append,
    hdirectives, hpre, Nat.zero_add, Program.deletions, Tree.applyAll_eq_map, List.map_map]
  refine congrArg total (List.map_congr_left fun t ht => ?_)
  exact Tree.faults_apply hplan (Tree.allShaped_iff.1 hshaped t ht)
    (total_eq_zero.1 hstatements _ (List.mem_map_of_mem ht))

end Fronts

/-! ## Exports -/

/-- A name that a scope declares before a plan it declares under it, if the plan keeps the name. -/
def Env.Knows (n : String) (env env' : Env) : Prop := ∀ use, env'.find? n use = none → env.find? n use = none

/-- A kept name is declared under a plan where it was declared before. -/
theorem Reads.answers_of_kept {plan : ModulePlan} {before after : List Declared} {names : List String}
    (h : Reads plan before after names) {n : String} (hn : plan.rename n = n) {use : Use}
    (hanswers : answers before n use = true) : answers after n use = true := by
  obtain ⟨d, hd, rfl, huse⟩ := answers_iff.1 hanswers
  refine answers_iff.2 ⟨(plan.rename d.1, d.2), ?_, hn, huse⟩
  rw [h.eq]
  exact List.mem_map_of_mem (f := Spelled.respell plan) hd

theorem answers_scopeNames_of_kept {plan : ModulePlan} {n : String} (hn : plan.rename n = n) {f : Form}
    {ps : List Tree} {i : Nat} {use : Use} (h : answers (scopeNames f ps i) n use = true) :
    answers (scopeNames f (Tree.applyAll plan ps) i) n use = true := by
  by_cases hf : ∀ c a, f ≠ .enum c a
  · exact (reads_scopeNames plan hf ps i).answers_of_kept hn h
  · cases f with
    | enum c a => rwa [answers_enum_applyAll]
    | _ => exact absurd (fun _ _ h => by cases h) hf

/-- **One step into a node**: what is known around it is known around its parts. -/
theorem Env.Knows.inside {plan : ModulePlan} {n : String} (hn : plan.rename n = n) {env env' : Env}
    (h : env.Knows n env') (f : Form) (ps : List Tree) (spot spot' : Spot) (i : Nat) :
    (env.inside f ps spot i).Knows n
      (env'.inside (f.settle (Tree.applyAll plan ps)) (Tree.applyAll plan ps) spot' i) := by
  intro use hnone
  rw [Env.find?_inside, scopeNames_settle, ownName_settle] at hnone
  rw [Env.find?_inside]
  split at hnone
  · cases hnone
  · rename_i hscope
    split at hnone
    · cases hnone
    · rename_i hown
      rw [if_neg fun hbefore => hscope (answers_scopeNames_of_kept hn hbefore),
        if_neg fun hbefore => hown ((reads_ownName plan f ps).answers_of_kept hn hbefore)]
      exact h use hnone

/-- A use of a name that no scope around it declares. -/
def Occurrence.IsFree (n : String) (o : Occurrence) : Prop :=
  o.introduces = false ∧ o.name = n ∧ o.scope = none

namespace Tree

variable {plan : ModulePlan} {names : List String} {n : String}

mutual

/-- A name that is kept is free under a plan only if it was free before. -/
theorem exists_isFree (htidy : plan.Tidy names) (hn : n ∈ names) (hkept : plan.rename n = n) :
    ∀ {t : Tree} {env env' : Env} {use : Use} {spot spot' : Spot}, t.leafNames ⊆ names →
      env.Knows n env' → (∃ o ∈ (t.apply plan).occurrences env' use spot', o.IsFree n) →
      ∃ o ∈ t.occurrences env use spot, o.IsFree n
  | .node f ps, env, env', use, spot, spot', hnames, hknows, h => by
    exact exists_isFreeOf htidy hn hkept hnames hknows h
  | .binding m, env, env', use, spot, spot', hnames, hknows, ⟨o, ho, hfree⟩ => by
    rw [List.mem_singleton.1 ho] at hfree
    cases hfree.1
  | .reference m, env, env', use, spot, spot', hnames, hknows, ⟨o, ho, hfree⟩ => by
    rw [List.mem_singleton.1 ho] at hfree
    obtain ⟨-, hname, hscope⟩ := hfree
    obtain rfl : m = n :=
      htidy.inj m (hnames (List.mem_singleton.2 rfl)) n hn (hname.trans hkept.symm)
    refine ⟨_, List.mem_singleton.2 rfl, rfl, rfl, hknows use ?_⟩
    rwa [hkept] at hscope
  | .string lit, env, env', use, spot, spot', hnames, hknows, ⟨o, ho, hfree⟩ 
  | .number lit, env, env', use, spot, spot', hnames, hknows, ⟨o, ho, hfree⟩ => by
    rw [apply, ModulePlan.replace] at ho
    split at ho
    · rename_i key hkey
      rw [List.mem_singleton.1 ho] at hfree
      exact absurd (hkept.trans hfree.2.1.symm) (htidy.fresh _ key hkey n hn)
    · exact absurd ho List.not_mem_nil
  | .absent, _, _, _, _, _, _, _, ⟨_, ho, _⟩ | .name _, _, _, _, _, _, _, _, ⟨_, ho, _⟩
  | .markupName _, _, _, _, _, _, _, _, ⟨_, ho, _⟩ | .label _, _, _, _, _, _, _, _, ⟨_, ho, _⟩
  | .privateName _, _, _, _, _, _, _, _, ⟨_, ho, _⟩ | .quoted _, _, _, _, _, _, _, _, ⟨_, ho, _⟩ =>
    absurd ho List.not_mem_nil

theorem exists_isFreeOf (htidy : plan.Tidy names) (hn : n ∈ names) (hkept : plan.rename n = n) {f : Form}
    {all : List Tree} :
    ∀ {ts : List Tree} {env env' : Env} {use : Use} {spot spot' : Spot} {i : Nat}, leafNamesOf ts ⊆ names →
      env.Knows n env' →
      (∃ o ∈ occurrencesOf (f.settle (applyAll plan all)) (applyAll plan all) env' use spot' i
        (applyAll plan ts), o.IsFree n) →
      ∃ o ∈ occurrencesOf f all env use spot i ts, o.IsFree n
  | [], _, _, _, _, _, _, _, _, ⟨_, ho, _⟩ => absurd ho List.not_mem_nil
  | t :: ts, env, env', use, spot, spot', i, hnames, hknows, ⟨o, ho, hfree⟩ => by
    obtain ⟨ht, hts⟩ := List.append_subset.1 hnames
    rw [applyAll_cons, occurrencesOf, useOf_settle] at ho
    rcases List.mem_append.1 ho with ho | ho
    · obtain ⟨o', ho', hfree'⟩ := exists_isFree htidy hn hkept ht
        (hknows.inside hkept f all spot spot' i) ⟨o, ho, hfree⟩
      exact ⟨o', List.mem_append_left _ ho', hfree'⟩
    · obtain ⟨o', ho', hfree'⟩ := exists_isFreeOf htidy hn hkept hts hknows ⟨o, ho, hfree⟩
      exact ⟨o', List.mem_append_right _ ho', hfree'⟩

end

/-- A name that is kept is free in statements under a plan only if it was free before. -/
theorem exists_isFree_statements (htidy : plan.Tidy names) (hn : n ∈ names) (hkept : plan.rename n = n)
    (all all' : List Tree) {env env' : Env} (hknows : env.Knows n env') :
    ∀ {ts : List Tree} {i i' : Nat}, leafNamesOf ts ⊆ names →
      (∃ o ∈ occurrencesOf .group all' env' .value [] i' (applyAll plan ts), o.IsFree n) →
      ∃ o ∈ occurrencesOf .group all env .value [] i ts, o.IsFree n
  | [], _, _, _, ⟨_, ho, _⟩ => absurd ho List.not_mem_nil
  | t :: ts, i, i', hnames, ⟨o, ho, hfree⟩ => by
    obtain ⟨ht, hts⟩ := List.append_subset.1 hnames
    rcases List.mem_append.1 ho with ho | ho
    · obtain ⟨o', ho', hfree'⟩ := exists_isFree htidy hn hkept ht hknows ⟨o, ho, hfree⟩
      exact ⟨o', List.mem_append_left _ ho', hfree'⟩
    · obtain ⟨o', ho', hfree'⟩ :=
        exists_isFree_statements htidy hn hkept all all' hknows hts ⟨o, ho, hfree⟩
      exact ⟨o', List.mem_append_right _ ho', hfree'⟩

/-- Whether a specifier exports a name that means nothing. -/
def isMissing (unresolved : List String) : Tree → Bool
  | .node (.exportSpecifier _) [.reference n, _] => unresolved.contains n
  | _ => false

theorem missingExports_exportNamed (unresolved : List String) (typeOnly : Bool) (d t source attributes : Tree) :
    missingExports unresolved (.node (.exportNamed typeOnly) [d, t, source, attributes]) =
      t.groupParts?.elim 0 fun specs => (specs.filter (isMissing unresolved)).length := by
  cases t with
  | node f specs => cases f <;> rfl
  | _ => rfl

theorem missingExports_of_length {ps : List Tree} (hps : ps.length ≠ 4) (unresolved : List String)
    (typeOnly : Bool) : missingExports unresolved (.node (.exportNamed typeOnly) ps) = 0 := by
  obtain _ | ⟨_, _ | ⟨t, _ | ⟨_, _ | ⟨_, _ | ⟨_, _⟩⟩⟩⟩⟩ := ps
  · rfl
  · rfl
  · cases t with
    | node f specs => cases f <;> rfl
    | _ => rfl
  · cases t with
    | node f specs => cases f <;> rfl
    | _ => rfl
  · exact absurd rfl hps
  · cases t with
    | node f specs => cases f <;> rfl
    | _ => rfl

/-- A specifier under a plan exports what it exported. -/
theorem isMissing_of_apply {unresolved unresolved' : List String} {t : Tree}
    (hguarded : ∀ f ps, t.HasPart (.node f ps) → f.Guarded plan ps)
    (hfree : ∀ n ∈ t.leafNames, plan.rename n = n → n ∈ unresolved' → n ∈ unresolved)
    (h : (t.apply plan).isMissing unresolved' = true) : t.isMissing unresolved = true := by
  cases t with
  | node f ps =>
    cases f with
    | exportSpecifier typeOnly =>
      obtain ⟨hself, hkept⟩ := applyAll_exportSpecifier (hguarded _ _ .self)
      rw [apply_node, hself] at h
      obtain _ | ⟨l, _ | ⟨e, _ | ⟨_, _⟩⟩⟩ := ps
      · cases h
      · cases l <;> cases h
      · cases l with
        | reference n =>
          have hmem : n ∈ leafNamesOf [.reference n, e] := List.mem_cons_self
          exact List.contains_iff_mem.2 (hfree n hmem (hkept n hmem) (List.contains_iff_mem.1 h))
        | _ => cases h
      · cases l <;> cases h
    | property _ | bindingProperty _ _ => obtain _ | ⟨_, _ | ⟨_, _ | ⟨_, _⟩⟩⟩ := ps <;> cases h
    | _ => cases h
  | string _ | number _ =>
    rw [apply, ModulePlan.replace] at h
    split at h <;> cases h
  | _ => cases h

/-- A statement whose exports all meant something exports nothing else under a plan. -/
theorem missingExports_apply {unresolved unresolved' : List String} {t : Tree}
    (hguarded : ∀ f ps, t.HasPart (.node f ps) → f.Guarded plan ps)
    (hfree : ∀ n ∈ t.leafNames, plan.rename n = n → n ∈ unresolved' → n ∈ unresolved)
    (h : t.missingExports unresolved = 0) : (t.apply plan).missingExports unresolved' = 0 := by
  cases t with
  | node f ps =>
    cases f with
    | exportNamed typeOnly =>
      by_cases hlength : ps.length = 4
      · obtain _ | ⟨d, _ | ⟨t, _ | ⟨source, _ | ⟨attributes, _ | ⟨_, _⟩⟩⟩⟩⟩ := ps
        any_goals cases hlength
        rw [missingExports_exportNamed] at h
        simp only [apply_node, Form.settle, applyAll_cons, applyAll_nil, missingExports_exportNamed,
          groupParts?_apply]
        cases hspecs : t.groupParts? with
        | none => rfl
        | some specs =>
          obtain rfl : t = .node .group specs := by
            cases t with
            | node g qs =>
              cases g with
              | group => exact congrArg _ (Option.some.inj hspecs)
              | _ => cases hspecs
            | _ => cases hspecs
          rw [hspecs, Option.elim_some] at h
          rw [Option.map_some, Option.elim_some, ← Nat.le_zero, ← h]
          have hgroup : Tree.node .group specs ∈ [d, .node .group specs, source, attributes] := by simp
          refine length_filter_applyAll_le fun spec hspec => isMissing_of_apply ?_ ?_
          · exact fun f ps hpart => hguarded f ps (.inside hgroup (.inside hspec hpart))
          · exact fun n hn => hfree n (mem_leafNamesOf.2 ⟨_, hgroup, mem_leafNamesOf.2 ⟨spec, hspec, hn⟩⟩)
      · exact missingExports_of_length (by rwa [length_applyAll]) unresolved' typeOnly
    | property _ | bindingProperty _ _ => obtain _ | ⟨_, _ | ⟨_, _ | ⟨_, _⟩⟩⟩ := ps <;> rfl
    | _ => rfl
  | string _ | number _ =>
    rw [apply, ModulePlan.replace]
    split <;> rfl
  | _ => rfl

end Tree

theorem Program.mem_unresolved {p : Program} {n : String} :
    n ∈ p.unresolved ↔ ∃ o ∈ p.occurrences, o.IsFree n := by
  rw [unresolved, mem_sortNames, List.mem_filterMap]
  refine exists_congr fun o => and_congr_right fun _ => ?_
  unfold Occurrence.IsFree
  cases o.introduces <;> cases o.scope <;> simp

namespace Fronts

variable {plan : ModulePlan} {names : List String} {before after : Program} {pre : List Tree}

/-- The scope of the program knows the names that it knew. -/
theorem knows (h : Fronts plan before after pre) {n : String} (hkept : plan.rename n = n) :
    Env.Knows n [before.topFrame] [after.topFrame] := by
  have hsub : Tree.functionScope (Tree.applyAll plan before.statements) ⊆
      Tree.functionScope after.statements := by
    intro d hd
    rw [h.statements]
    rcases h.front with rfl | ⟨kind, ts, rfl, hts⟩
    · exact hd
    · exact (mem_functionScope_cons hts).2 (.inr hd)
  intro use hnone
  rw [Program.topFrame, Env.find?_cons] at hnone ⊢
  split at hnone
  · cases hnone
  · rename_i hafter
    rw [if_neg fun hbefore => hafter ?_]
    · rfl
    · obtain ⟨d, hd, hrest⟩ :=
        answers_iff.1 ((Tree.reads_functionScope plan before.statements).answers_of_kept hkept hbefore)
      exact answers_iff.2 ⟨d, hsub hd, hrest⟩

/-- A kept name means something in a program under a plan if it did before. -/
theorem mem_unresolved (h : Fronts plan before after pre) (htidy : plan.Tidy names)
    (hnames : Tree.leafNamesOf before.statements ⊆ names) {n : String} (hn : n ∈ names)
    (hkept : plan.rename n = n) (hmem : n ∈ after.unresolved) : n ∈ before.unresolved := by
  obtain ⟨o, ho, hfree⟩ := Program.mem_unresolved.1 hmem
  refine Program.mem_unresolved.2 ?_
  unfold Program.occurrences at ho ⊢
  nth_rewrite 2 [h.statements] at ho
  rw [Tree.occurrencesOf_append] at ho
  rcases List.mem_append.1 ho with ho | ho
  -- What stands in front introduces names and uses none.
  · rcases h.front with rfl | ⟨kind, ts, rfl, hts⟩
    · exact absurd ho List.not_mem_nil
    · rw [Tree.occurrencesOf, Tree.occurrencesOf, List.append_nil] at ho
      obtain ⟨hintroduces, -⟩ := Parse.occurrences_of_declares hts ho
      exact absurd (hfree.1.symm.trans hintroduces) Bool.false_ne_true
  · exact Tree.exists_isFree_statements htidy hn hkept before.statements after.statements
      (h.knows hkept) hnames ⟨o, ho, hfree⟩

/-- **A program whose exports all mean something has such exports under a plan.** -/
theorem exportFaults (h : Fronts plan before after pre) (htidy : plan.Tidy names)
    (hnames : Tree.leafNamesOf before.statements ⊆ names)
    (hguarded : ∀ s ∈ before.statements, ∀ f ps, s.HasPart (.node f ps) → f.Guarded plan ps) {d : Dialect}
    (hvalid : before.exportFaults d = 0) : after.exportFaults d = 0 := by
  unfold Program.exportFaults at hvalid ⊢
  split
  · rfl
  · rename_i hmodule
    rw [if_neg hmodule] at hvalid
    dsimp only at hvalid ⊢
    refine total_eq_zero.2 fun k hk => ?_
    obtain ⟨s, hs, rfl⟩ := List.mem_map.1 hk
    rw [h.statements] at hs
    rcases List.mem_append.1 hs with hs | hs
    · rcases h.front with rfl | ⟨kind, ts, rfl, -⟩
      · exact absurd hs List.not_mem_nil
      · rw [List.mem_singleton.1 hs]
        rfl
    · rw [Tree.applyAll_eq_map] at hs
      obtain ⟨t, ht, rfl⟩ := List.mem_map.1 hs
      refine Tree.missingExports_apply (hguarded t ht) (fun n hn hkept => ?_)
        (total_eq_zero.1 hvalid _ (List.mem_map_of_mem ht))
      have hn : n ∈ names := hnames (Tree.mem_leafNamesOf.2 ⟨t, ht, hn⟩)
      exact h.mem_unresolved htidy hnames hn hkept

end Fronts

/-- What is wrong with a valid module of a run under its plan. -/
theorem Settled.exists_faults {p : CompiledProfile} {modules : List ReadModule} {final : Planner}
    (h : Settled p modules final) {m : ReadModule} {plan : ModulePlan}
    (hx : (m, plan) ∈ modules.zip (planModules p modules))
    (hread : Program.parse? m.source.text m.source.dialect = some m.program)
    (hvalid : m.program.faults m.source.dialect = 0) :
    ∃ program, m.rewrite plan = some program ∧
      program.faults m.source.dialect = m.program.deletions plan m.source.dialect := by
  have hshaped : Tree.AllShaped m.program.statements := Program.shaped_of_parse? hread
  have hnames : Tree.leafNamesOf m.program.statements ⊆
      (m.program.survey m.source.dialect).namesInUse :=
    fun n hn => Program.mem_namesInUse hshaped hn _
  have hhoisted : ∀ x ∈ plan.hoisted, x ∈ (planModules p modules).flatMap ModulePlan.hoisted :=
    fun x hx' => List.mem_flatMap.2 ⟨plan, (List.of_mem_zip hx).2, hx'⟩
  obtain ⟨program, pre, hprogram, hfronts⟩ : ∃ program pre, m.rewrite plan = some program ∧
      Fronts plan m.program program pre :=
    exists_fronts fun x hx' => ⟨h.isKey (hhoisted x hx'), (h.mem_hoisted (hhoisted x hx')).1⟩
  obtain ⟨hrest, hexports⟩ := Nat.add_eq_zero_iff.1 hvalid
  obtain ⟨hclashes, hplaces⟩ := Nat.add_eq_zero_iff.1 hrest
  have hclashes' : program.clashes m.source.dialect = 0 :=
    (hfronts.clashes (h.tidy hx).inj hnames
      (fun key hkey n hn => h.rename_ne_key hx hkey hn) m.source.dialect).trans hclashes
  have hplaces' := hfronts.placeFaults (h.writesOrdinary hx)
    (fun e he => h.isOrdinary (h.mem_hoisted (hhoisted e he)).2) hshaped hplaces
  have hexports' := hfronts.exportFaults (h.tidy hx) hnames
    (fun s hs f ps hpart => h.guarded hx hread hs hpart) hexports
  refine ⟨program, hprogram, ?_⟩
  rw [Program.faults, hclashes', hplaces', hexports', Nat.zero_add, Nat.add_zero]

/-- **A valid module stays valid, but for names that strict code deletes.**  In every run, whatever the
dialects, a module without faults is shortened under its plan to a program that has exactly as many faults as
the plan replaces literals that strict code deletes.  There are no other faults: no two declarations start to
clash, no name is forbidden where it stands, and every export still means something. -/
theorem faults_rewrite {profile : Profile} {p : CompiledProfile} (hp : profile.compile = .ok p)
    {modules : List ReadModule}
    (hread : ∀ m ∈ modules, Program.parse? m.source.text m.source.dialect = some m.program)
    {m : ReadModule} {plan : ModulePlan} (hx : (m, plan) ∈ modules.zip (planModules p modules))
    (hvalid : m.program.faults m.source.dialect = 0) :
    ∃ program, m.rewrite plan = some program ∧
      program.faults m.source.dialect = m.program.deletions plan m.source.dialect := by
  obtain ⟨final, h⟩ := exists_settled hp modules
  exact h.exists_faults hx (hread m (List.of_mem_zip hx).1) hvalid

/-- A module in which one string occurs twice is valid, and stays so when the string is hoisted. -/
theorem faults_rewrite_repeated :
    ReadModule.repeated.program.faults ReadModule.repeated.source.dialect = 0 ∧
      ∃ plan program, planModules .eager [.repeated] = [plan] ∧
        (ReadModule.repeated.program.replaced plan).length = 2 ∧
        ReadModule.repeated.rewrite plan = some program ∧
        program.faults ReadModule.repeated.source.dialect = 0 := by
  have hvalid : ReadModule.repeated.program.faults ReadModule.repeated.source.dialect = 0 := by
    decide +kernel
  obtain ⟨plan, hplan, hreplaced⟩ := exists_plan_repeated
  obtain ⟨program, hprogram, hfaults⟩ := faults_rewrite Profile.compile_eager
    (List.forall_mem_singleton.2 ReadModule.parse?_repeated)
    (show (.repeated, plan) ∈ _ by rw [hplan]; exact List.mem_singleton.2 rfl) hvalid
  exact ⟨hvalid, plan, program, hplan, by rw [hreplaced]; rfl, hprogram, hfaults⟩

/-! ## Deleting a literal -/

/-- A module that deletes one string twice, as strict code may. -/
def ReadModule.deleting : ReadModule where
  source := { path := ⟨"a.js"⟩, text := "delete\"loading\";delete\"loading\";", dialect := {} }
  program :=
    { statements := [.node .expression [.node (.unary .delete) [.string (.loading 6)]],
        .node .expression [.node (.unary .delete) [.string (.loading 22)]]] }

theorem ReadModule.parse?_deleting :
    Program.parse? deleting.source.text deleting.source.dialect = some deleting.program := by
  decide +kernel

theorem exists_plan_deleting :
    ∃ plan, planModules .eager [.deleting] = [plan] ∧ ReadModule.deleting.program.deletions plan {} = 2 := by
  have hempty : sortNames [] = [] := sortNames_eq (by decide) (by decide)
  have hfree : ReadModule.deleting.program.unresolved = [] := hempty
  have hsurvey : ReadModule.deleting.program.survey {} = {} := by
    simp only [Program.survey, hfree]
    change Survey.mk [] (sortNames []) (sortNames []) (sortNames []) false = _
    rw [hempty]
  have hplans : planModules .eager [.deleting] =
      Planner.planRun .eager [{ literals := ReadModule.deleting.program.literalTable .eager }] := by
    change Planner.planRun .eager [{ survey := ReadModule.deleting.program.survey {}, literals := _ }] = _
    rw [hsurvey]
    rfl
  obtain ⟨plan, hplan⟩ := List.length_eq_one_iff.1 (length_planModules .eager [.deleting])
  have hdeletions : ((Planner.planRun .eager
      [{ literals := ReadModule.deleting.program.literalTable .eager }]).all
        fun plan => ReadModule.deleting.program.deletions plan {} == 2) = true := by
    decide +kernel
  rw [← hplans, hplan, List.all_cons, List.all_nil, Bool.and_true] at hdeletions
  exact ⟨plan, hplan, eq_of_beq hdeletions⟩

/-- **A valid module that becomes invalid**: it deletes a string twice, which is hoisted, and then it deletes
the name of the string. -/
theorem deleted_literal_faults :
    Profile.eager.compile = .ok .eager ∧
      Program.parse? ReadModule.deleting.source.text ReadModule.deleting.source.dialect =
        some ReadModule.deleting.program ∧
      ReadModule.deleting.program.faults ReadModule.deleting.source.dialect = 0 ∧
      ∃ plan program, planModules .eager [.deleting] = [plan] ∧
        ReadModule.deleting.rewrite plan = some program ∧
        program.faults ReadModule.deleting.source.dialect ≠ 0 := by
  have hvalid : ReadModule.deleting.program.faults ReadModule.deleting.source.dialect = 0 := by
    decide +kernel
  obtain ⟨plan, hplan, hdeletions⟩ := exists_plan_deleting
  obtain ⟨final, h⟩ := exists_settled Profile.compile_eager [.deleting]
  obtain ⟨program, hprogram, hfaults⟩ := h.exists_faults
    (show (.deleting, plan) ∈ _ by rw [hplan]; exact List.mem_singleton.2 rfl)
    ReadModule.parse?_deleting hvalid
  refine ⟨Profile.compile_eager, ReadModule.parse?_deleting, hvalid, plan, program, hplan, hprogram, ?_⟩
  rw [hfaults]
  exact hdeletions ▸ (by decide)

end Abridge
