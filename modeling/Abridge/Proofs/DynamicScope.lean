import Abridge.Proofs.Ambience
import Abridge.Proofs.Interface
import Abridge.Proofs.Restoration

/-!
# Names that code reaches by their spelling

A direct call of `eval` runs a text in the scope of the call, and a `with` statement puts the properties
of an object before the names of its scope.  Either way a name can be meant by code that no plan sees, and
so a module with one of them keeps all its names.  Literals may still be hoisted, but not out of the body
of a `with` statement, where the key could be a property of the object.

A call of `eval` is direct however many parentheses stand around the name.  The survey looks at the callee
as it is written and passes over one in parentheses.  Such a module is renamed like any other, and what
the text says no longer means what it meant.

## What is here

* `Tree.ReachesNames`: the nodes that let code reach names by their spelling.
* `Program.dynamicScope_iff`: the survey finds all of them but the calls in parentheses.
* `dynamic_kept`: what it finds keeps the plans of a run from renaming, and no plan changes the body of a
  `with` statement.
* `parenthesised_eval_renamed`: a module that calls `eval` in parentheses is renamed.
-/

set_option autoImplicit false

namespace Abridge

namespace Tree

/-! ## What reaches names -/

/-- An expression is the name `eval`, in any number of parentheses. -/
inductive NamesEval : Tree → Prop
  | name : NamesEval (.reference "eval")
  | paren {t : Tree} : NamesEval t → NamesEval (.node .paren [t])

/-- A node lets code reach names by their spelling: a direct call of `eval`, or a `with` statement. -/
inductive ReachesNames : Tree → Prop
  | eval {optional : Bool} {callee : Tree} {args : List Tree} :
    NamesEval callee → ReachesNames (.node (.call optional) (callee :: args))
  | with {ps : List Tree} : ReachesNames (.node .with ps)

/-- A call of an expression in parentheses. -/
inductive CallsParenthesised : Tree → Prop
  | call {optional : Bool} {ps args : List Tree} :
    CallsParenthesised (.node (.call optional) (.node .paren ps :: args))

theorem ReachesNames.not_isClause {t : Tree} (h : t.ReachesNames) : t.isClause = false := by
  cases h <;> rfl

/-- The survey notices what reaches names, when it comes by the node, unless it is a call in
parentheses. -/
theorem ReachesNames.noticed {t : Tree} (h : t.ReachesNames) (ht : ¬ t.CallsParenthesised) (params : Bool) :
    Sighting.dynamic ∈ t.sightings params := by
  have hbefore : ∀ {f ps}, Sighting.dynamic ∈ sightingsBefore f ps →
      Sighting.dynamic ∈ (Tree.node f ps).sightings params :=
    fun h => List.mem_append_left _ (List.mem_append_left _ h)
  cases h with
  | eval hcallee =>
    cases hcallee with
    | name => exact hbefore (List.mem_singleton.2 rfl)
    | paren => exact absurd .call ht
  | «with» => exact hbefore (List.mem_singleton.2 rfl)

theorem dynamic_not_mem_pinAll {role : Role} {names : List String} :
    Sighting.dynamic ∉ Sighting.pinAll role names := by
  simp [Sighting.pinAll, Sighting.pin]

theorem dynamic_not_mem_keySighting {computed : Bool} {k : Tree} :
    Sighting.dynamic ∉ k.keySighting computed := by
  unfold keySighting
  split
  · split <;> simp
  · exact List.not_mem_nil

/-- What the survey notices of a node is a direct call of `eval` or a `with` statement. -/
theorem reachesNames_of_before {f : Form} {ps : List Tree} (h : Sighting.dynamic ∈ sightingsBefore f ps) :
    (Tree.node f ps).ReachesNames ∧ ¬ (Tree.node f ps).CallsParenthesised := by
  unfold sightingsBefore at h
  split at h
  case h_15 =>
    split at h
    · rename_i heval
      rw [eq_of_beq heval]
      exact ⟨.eval .name, nofun⟩
    · exact absurd h List.not_mem_nil
  case h_16 => exact ⟨.with, nofun⟩
  -- The other nodes pin names, or see a key.
  all_goals
    exact absurd h (by simp [dynamic_not_mem_pinAll, dynamic_not_mem_keySighting, Sighting.pin])

theorem dynamic_not_mem_after {f : Form} {ps : List Tree} : Sighting.dynamic ∉ sightingsAfter f ps := by
  unfold sightingsAfter
  split
  · split
    · exact dynamic_not_mem_pinAll
    · exact List.not_mem_nil
  · simp
  · exact List.not_mem_nil

mutual

/-- **What the survey notices in a tree is a node of it** that reaches names. -/
theorem exists_reachesNames {params : Bool} : ∀ {t : Tree}, Sighting.dynamic ∈ t.sightings params →
    ∃ u, t.HasPart u ∧ u.ReachesNames ∧ ¬ u.CallsParenthesised
  | .node f ps, h => by
    rcases List.mem_append.1 h with h | h
    · rcases List.mem_append.1 h with h | h
      · exact ⟨_, .self, reachesNames_of_before h⟩
      · obtain ⟨p, hp, u, hu, hreaches⟩ := exists_reachesNamesOf h
        exact ⟨u, .inside hp hu, hreaches⟩
    · exact absurd h dynamic_not_mem_after
  | .binding _, h => by
    rw [sightings] at h
    cases List.mem_singleton.1 h
  | .reference _, h | .name _, h | .markupName _, h => by cases List.mem_singleton.1 h
  | .absent, h | .label _, h | .privateName _, h | .string _, h | .number _, h | .quoted _, h =>
    absurd h List.not_mem_nil

theorem exists_reachesNamesOf {f : Form} {params : Bool} :
    ∀ {ts : List Tree} {i : Nat}, Sighting.dynamic ∈ sightingsOf f params i ts →
      ∃ t ∈ ts, ∃ u, t.HasPart u ∧ u.ReachesNames ∧ ¬ u.CallsParenthesised
  | [], _, h => absurd h List.not_mem_nil
  | t :: ts, i, h => by
    rcases List.mem_append.1 h with h | h
    · split at h
      · exact ⟨t, List.mem_cons_self, exists_reachesNames h⟩
      · exact absurd h List.not_mem_nil
    · obtain ⟨u, hu, hreaches⟩ := exists_reachesNamesOf h
      exact ⟨u, List.mem_cons_of_mem _ hu, hreaches⟩

end

end Tree

/-- **The survey finds every node that reaches names**, and nothing else, but for calls in parentheses. -/
theorem Program.dynamicScope_iff {p : Program} (hp : Tree.AllShaped p.statements) (d : Dialect) :
    (p.survey d).dynamicScope = true ↔
      ∃ s ∈ p.statements, ∃ t, s.HasPart t ∧ t.ReachesNames ∧ ¬ t.CallsParenthesised := by
  have hscope : (p.survey d).dynamicScope = p.sightings.contains .dynamic := rfl
  rw [hscope, List.contains_iff_mem]
  constructor
  · exact Tree.exists_reachesNamesOf
  · rintro ⟨s, hs, t, hpart, hreaches, hcallee⟩
    obtain ⟨-, params, hsub⟩ := exists_sightings_subset hp hs hpart hreaches.not_isClause
    exact hsub (hreaches.noticed hcallee params)

/-! ## What a plan leaves as it is -/

namespace Tree

variable {plan : ModulePlan}

/-- A short form whose parts stay as they are stays short. -/
theorem settle_eq_self {f : Form} {ps : List Tree} (hfits : f.Fits ps) : f.settle ps = f := by
  have hshort : ∀ {n v}, (∀ m, shortName? v = some m → m = n) → staysShort (.name n) v = true := by
    intro n v hsame
    rw [staysShort_name, Option.all_eq_true]
    exact fun m hm => beq_iff_eq.2 (hsame m hm).symm
  cases f with
  | property info =>
    obtain ⟨kind, method, shorthand, computed⟩ := info
    cases shorthand with
    | true =>
      obtain ⟨n, v, rfl, -, hsame⟩ := hfits
      simp only [Form.settle, hshort hsame, Bool.and_self]
    | false => obtain _ | ⟨k, _ | ⟨v, _ | ⟨w, ps⟩⟩⟩ := ps <;> rfl
  | bindingProperty shorthand computed =>
    cases shorthand with
    | true =>
      obtain ⟨n, v, rfl, -, hsame⟩ := hfits
      simp only [Form.settle, hshort hsame, Bool.and_self]
    | false => obtain _ | ⟨k, _ | ⟨v, _ | ⟨w, ps⟩⟩⟩ := ps <;> rfl
  | _ => rfl

mutual

/-- **A tree stays as it is** under a plan that keeps its names and has no site in it. -/
theorem apply_eq_self_of_shaped : ∀ {t : Tree}, t.Shaped → (∀ n ∈ t.leafNames, plan.rename n = n) →
    (∀ site ∈ t.offsets, plan.sites.get? site = none) → t.apply plan = t
  | .node f ps, ht, hnames, hsites => by
    rw [apply_node, applyAll_eq_self_of_shaped ht.2 hnames hsites, settle_eq_self ht.1]
  | .string lit, _, _, hsites | .number lit, _, _, hsites => by
    rw [apply, ModulePlan.replace, hsites lit.start (List.mem_singleton.2 rfl)]
  | .binding n, _, hnames, _ => congrArg _ (hnames n (List.mem_singleton.2 rfl))
  | .reference n, _, hnames, _ => congrArg _ (hnames n (List.mem_singleton.2 rfl))
  | .absent, _, _, _ | .name _, _, _, _ | .markupName _, _, _, _ | .label _, _, _, _
  | .privateName _, _, _, _ | .quoted _, _, _, _ => rfl

theorem applyAll_eq_self_of_shaped : ∀ {ts : List Tree}, AllShaped ts →
    (∀ n ∈ leafNamesOf ts, plan.rename n = n) →
    (∀ site ∈ offsetsOf ts, plan.sites.get? site = none) → applyAll plan ts = ts
  | [], _, _, _ => rfl
  | t :: ts, hts, hnames, hsites => by
    rw [applyAll_cons,
      apply_eq_self_of_shaped hts.1 (fun n hn => hnames n (List.mem_append_left _ hn))
        (fun site hsite => hsites site (List.mem_append_left _ hsite)),
      applyAll_eq_self_of_shaped hts.2 (fun n hn => hnames n (List.mem_append_right _ hn))
        (fun site hsite => hsites site (List.mem_append_right _ hsite))]

end

end Tree

/-! ## Runs -/

/-- A plan renames nothing in a module whose names can be reached by their spelling. -/
theorem Settled.get?_renames_of_dynamicScope {p : CompiledProfile} {modules : List ReadModule}
    {final : Planner} (h : Settled p modules final) {m : ReadModule} {plan : ModulePlan}
    (hx : (m, plan) ∈ modules.zip (planModules p modules))
    (hscope : (m.program.survey m.source.dialect).dynamicScope = true) (n : String) :
    plan.renames.get? n = none := by
  cases hget : plan.renames.get? n with
  | none => rfl
  | some key =>
    obtain ⟨r, hr, -, -⟩ := ((h.planned hx).agrees.renames n key).1 hget
    obtain ⟨-, -, hstatic⟩ := (h.planned hx).agrees.allowed r hr
    exact absurd (hstatic.symm.trans hscope) Bool.false_ne_true

/-- **A module whose names can be reached by their spelling keeps them all.**  Modules that all parse are
read.  Where a node of a module is a direct call of `eval`, not in parentheses, or a `with` statement, at
whatever depth, the plan of the module renames nothing; and what stands in the body of a `with` statement,
literals included, is left as it is. -/
theorem dynamic_kept {profile : Profile} {p : CompiledProfile} (hp : profile.compile = .ok p)
    {sources : List SourceModule}
    (hparse : ∀ s ∈ sources, (Program.parse? s.text s.dialect).isSome = true) :
    ∃ modules, (Path.sortBy SourceModule.path sources).mapM SourceModule.read = .ok modules ∧
      ∀ x ∈ modules.zip (planModules p modules),
        ((∃ s ∈ x.1.program.statements, ∃ t, s.HasPart t ∧ t.ReachesNames ∧ ¬ t.CallsParenthesised) →
          ∀ n, x.2.renames.get? n = none) ∧
        ∀ s ∈ x.1.program.statements, ∀ object body, s.HasPart (.node .with (object :: body)) →
          (∀ site ∈ Tree.offsetsOf body, x.2.sites.get? site = none) ∧
            Tree.applyAll x.2 body = body := by
  obtain ⟨modules, hread, hmodules⟩ := exists_read hparse
  obtain ⟨final, h⟩ := exists_settled hp modules
  refine ⟨modules, hread, ?_⟩
  rintro ⟨m, plan⟩ hx
  have hparsed := hmodules.programs m (List.of_mem_zip hx).1
  have hshaped : Tree.AllShaped m.program.statements := Program.shaped_of_parse? hparsed
  have hnames : (∃ s ∈ m.program.statements, ∃ t, s.HasPart t ∧ t.ReachesNames ∧ ¬ t.CallsParenthesised) →
      ∀ n, plan.renames.get? n = none := fun hreaches =>
    h.get?_renames_of_dynamicScope hx ((Program.dynamicScope_iff hshaped m.source.dialect).2 hreaches)
  refine ⟨hnames, ?_⟩
  intro s hs object body hpart
  -- Only the object is searched for literals.
  have hsites : ∀ site ∈ Tree.offsetsOf body, plan.sites.get? site = none := by
    intro site hsite
    rw [Tree.offsetsOf_eq_flatMap] at hsite
    obtain ⟨t, ht, hsite⟩ := List.mem_flatMap.1 hsite
    obtain ⟨i, hi⟩ := List.getElem?_of_mem ht
    exact (h.guarded hx hparsed hs hpart).unsearched (i := i + 1) hi rfl site hsite
  obtain ⟨⟨-, -, hbody⟩, -⟩ := Program.exists_sightings_subset hshaped hs hpart rfl
  have hkept := hnames ⟨s, hs, _, hpart, .with, nofun⟩
  exact ⟨hsites, Tree.applyAll_eq_self_of_shaped hbody
    (fun n _ => ModulePlan.rename_of_get?_eq_none (hkept n)) hsites⟩

/-- The statement `f("loading","loading");` in the body of a `with` statement. -/
def Tree.loadingTwice : Tree :=
  .node .expression
    [.node (.call false)
      [.reference "f", .absent,
       .group [.string { value := "loading", start := 21 }, .string { value := "loading", start := 31 }]]]

/-- The program `let count=1;with(o)f("loading","loading");`. -/
def Program.withObject : Program where
  statements :=
    [.node (.variables .let false)
      [.node (.declarator false)
        [.binding "count", .absent,
         .number { value := .finite false 4503599627370496 (-52) Double.isCanonical_one, raw := "1", start := 10 }]],
     .node .with [.reference "o", .loadingTwice]]

theorem Program.parse?_withObject :
    Program.parse? "let count=1;with(o)f(\"loading\",\"loading\");" { module := false } =
      some .withObject := by
  decide +kernel

/-- The script of that program. -/
def ReadModule.withObject : ReadModule :=
  { source :=
      { path := ⟨"a.cjs"⟩, text := "let count=1;with(o)f(\"loading\",\"loading\");"
        dialect := { module := false } }
    program := .withObject }

/-- A script with a `with` statement that has a literal twice in its body. -/
theorem dynamic_kept_with :
    ∃ p, Profile.balanced.compile = .ok p ∧
      (Path.sortBy SourceModule.path [ReadModule.withObject.source]).mapM SourceModule.read =
        .ok [.withObject] ∧
      ∃ plan, planModules p [.withObject] = [plan] ∧ plan.renames.get? "count" = none ∧
        Tree.applyAll plan [.loadingTwice] = [.loadingTwice] := by
  obtain ⟨p, hp⟩ := Profile.exists_compile_balanced
  obtain ⟨hparse, hread⟩ := ReadModule.read_singleton (m := .withObject) Program.parse?_withObject
  obtain ⟨modules, hread', hkept⟩ := dynamic_kept hp hparse
  obtain rfl : [.withObject] = modules := Except.ok.inj (hread.symm.trans hread')
  obtain ⟨plan, hplan, hx⟩ := exists_plan_singleton p .withObject
  have hwith : Tree.node .with [.reference "o", .loadingTwice] ∈ Program.withObject.statements :=
    List.mem_cons_of_mem _ (List.mem_singleton.2 rfl)
  obtain ⟨hnames, hbodies⟩ := hkept _ hx
  exact ⟨p, hp, hread, plan, hplan, hnames ⟨_, hwith, _, .self, .with, nofun⟩ "count",
    (hbodies _ hwith _ _ .self).2⟩

/-- The program `let count=1;(eval)("count");`. -/
def Program.withParenthesisedEval : Program where
  statements :=
    [.node (.variables .let false)
      [.node (.declarator false)
        [.binding "count", .absent,
         .number { value := .finite false 4503599627370496 (-52) Double.isCanonical_one, raw := "1", start := 10 }]],
     .node .expression
      [.node (.call false)
        [.node .paren [.reference "eval"], .absent, .group [.string { value := "count", start := 19 }]]]]

theorem Program.parse?_withParenthesisedEval :
    Program.parse? "let count=1;(eval)(\"count\");" {} = some .withParenthesisedEval := by
  decide +kernel

/-- The survey notices nothing but the names. -/
theorem Program.survey_withParenthesisedEval :
    Program.withParenthesisedEval.survey {} =
      { firstRoles := [("count", .declaration), ("eval", .other)]
        pinned := ["eval"]
        namesInUse := ["count", "eval"] } := by
  have hfree : Program.withParenthesisedEval.unresolved = ["eval"] :=
    sortNames_eq (by decide +kernel) (by decide)
  apply Program.survey_eq hfree (by decide) <;> decide +kernel

/-- The module of that program. -/
def ReadModule.withParenthesisedEval : ReadModule :=
  { source := { path := ⟨"a.js"⟩, text := "let count=1;(eval)(\"count\");", dialect := {} }
    program := .withParenthesisedEval }

/-- **A module that calls `eval` in parentheses is renamed**, and the text that it runs no longer finds the
variable. -/
theorem parenthesised_eval_renamed :
    Profile.eager.compile = .ok .eager ∧
      Program.parse? ReadModule.withParenthesisedEval.source.text
          ReadModule.withParenthesisedEval.source.dialect =
        some ReadModule.withParenthesisedEval.program ∧
      (∃ s ∈ ReadModule.withParenthesisedEval.program.statements, ∃ t, s.HasPart t ∧ t.ReachesNames) ∧
      ∃ plan key, planModules .eager [.withParenthesisedEval] = [plan] ∧
        plan.renames.get? "count" = some key := by
  refine ⟨Profile.compile_eager, Program.parse?_withParenthesisedEval,
    ⟨_, List.mem_cons_of_mem _ (List.mem_singleton.2 rfl), _,
      .inside (List.mem_singleton.2 rfl) .self, .eval (.paren .name)⟩, ?_⟩
  have hrenames : ((planModules .eager [.withParenthesisedEval]).all fun plan =>
      (plan.renames.get? "count").isSome) = true := by
    simp only [planModules, List.map_cons, List.map_nil, Program.analyse,
      ReadModule.withParenthesisedEval, Program.survey_withParenthesisedEval]
    decide +kernel
  obtain ⟨plan, hplan, hcount⟩ := exists_plan_of_all hrenames
  obtain ⟨key, hkey⟩ := Option.isSome_iff_exists.1 hcount
  exact ⟨plan, key, hplan, hkey⟩

end Abridge
