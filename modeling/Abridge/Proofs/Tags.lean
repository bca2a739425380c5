import Abridge.Proofs.Exactness

/-!
# Names of markup tags

A markup tag that starts with a small letter is an element of the host, and one that starts with a
capital is a name of the module.  So a name that is used as a tag may only get a short name that starts
with a capital.  The classifier looks at the lead of the rule that decides the category of the name.

For a name that is new to the run this is the rule that its short name is made with.  A name that the run
has renamed before has its short name already, and all that is left of the rule is the category.  The
classifier then looks at the first rule of that category, and this need not be the one that made the
short name: nothing keeps two rules of a profile from having one category and different leads.

## What is here

* `Renaming.MadeBy`, `Classifier.Ruled`: the rules that the short names of a run were made with.
* `Planner.Checks`: what the planner knows about the short name of a tag.
* `startsCapital_of_tag`: the short name of a tag starts with a capital, unless two rules of its category
  differ in this.
* `tag_gets_small_letter`: a run of two modules in which they do.
-/

set_option autoImplicit false

namespace Abridge

open Classifier (startsCapital)

/-! ## Short names and their rules -/

/-- The short name of a renaming was made with the lead of a rule, and its category is that of the rule. -/
structure Renaming.MadeBy (r : Renaming) (rule : CompiledRule) : Prop where
  category : r.category = rule.rule.name
  shortName : ∃ n, r.shortName = ShortNames.candidate rule.rule.lead n

/-- A short name starts as its lead does. -/
theorem startsCapital_candidate {lead : String} (h : startsCapital lead = true) (n : Nat) :
    startsCapital (ShortNames.candidate lead n) = true := by
  rw [startsCapital, ShortNames.toList_candidate]
  cases hlead : lead.toList with
  | nil => rw [startsCapital, hlead] at h; cases h
  | cons c cs => rwa [startsCapital, hlead] at h

/-- The first rule of a category. -/
def CompiledProfile.firstRule? (p : CompiledProfile) (category : String) : Option CompiledRule :=
  p.rules.find? fun rule => rule.rule.name == category

namespace Classifier

/-- All short names were made by rules of the profile. -/
def Ruled (p : CompiledProfile) (c : Classifier) : Prop :=
  ∀ r ∈ c.renamings, ∃ rule ∈ p.rules, r.MadeBy rule

/-- The rule of a verdict decides the category of the name, and its lead suits a tag. -/
theorem rule?_of_verdict {c : Classifier} {p : CompiledProfile} {survey : Survey} {name : String}
    {role : Role} {rule : CompiledRule} (h : c.verdict p survey name role = .rename rule) :
    c.rule? p name role = some rule ∧
      (name ∈ survey.markupTags → startsCapital rule.rule.lead = true) := by
  unfold verdict at h
  split at h
  · cases h
  split at h
  · cases h
  split at h
  · cases h
  split at h
  · cases h
  split at h
  · cases h
  split at h
  · cases h
  split at h
  · cases h
  rename_i found hrule
  split at h
  · cases h
  rename_i htag
  cases h
  refine ⟨hrule, fun hname => ?_⟩
  simpa [hname] using htag

end Classifier

/-! ## One module -/

namespace Planner

/-- What the planner made sure of when it gave a name of a module its short name: a rule made it, and when
the name is a tag, either the lead of that rule starts with a capital or that of the first rule of the same
category does. -/
structure Checks (p : CompiledProfile) (survey : Survey) (name key : String) (rule : CompiledRule) :
    Prop where
  mem : rule ∈ p.rules
  made : ∃ n, key = ShortNames.candidate rule.rule.lead n
  suits : name ∈ survey.markupTags → startsCapital rule.rule.lead = true ∨
    ∃ first, p.firstRule? rule.rule.name = some first ∧ startsCapital first.rule.lead = true

/-- **One name**: the classifier stays ruled, and a renamed name was checked. -/
theorem checks_bind {p : CompiledProfile} {c : Classifier} (hc : c.Ruled p) (short : ShortNames)
    (survey : Survey) (name : String) (role : Role) :
    (c.bind short p survey name role).2.1.Ruled p ∧
      ∀ r, (c.bind short p survey name role).1 = some r →
        r.name = name ∧ ∃ rule, Checks p survey name r.shortName rule := by
  cases hverdict : c.verdict p survey name role with
  | keep reason =>
    rw [Classifier.bind, hverdict]
    exact ⟨hc, fun r hr => by cases hr⟩
  | rename rule =>
    obtain ⟨hrule, htag⟩ := Classifier.rule?_of_verdict hverdict
    cases hfind : c.find? name with
    | some r =>
      simp only [Classifier.bind, hverdict, hfind]
      refine ⟨hc, ?_⟩
      rintro _ ⟨⟩
      have hname : r.name = name := by simpa using List.find?_some hfind
      have hmem : r ∈ c.renamings := List.mem_of_find?_eq_some hfind
      obtain ⟨made, hmade, hby⟩ := hc r hmem
      -- The rule of the verdict is the first one of the category, which is that of the rule that made it.
      rw [Classifier.rule?, hfind] at hrule
      refine ⟨hname, made, hmade, hby.shortName, fun hin => .inr ⟨rule, ?_, htag hin⟩⟩
      rw [CompiledProfile.firstRule?, ← hby.category]
      exact hrule
    | none =>
      rw [Classifier.rule?, hfind] at hrule
      have hmem : rule ∈ p.rules := List.mem_of_find?_eq_some hrule
      simp only [Classifier.bind, hverdict, hfind]
      refine ⟨fun r hr => ?_, ?_⟩
      · rcases List.mem_append.1 hr with hr | hr
        · exact hc r hr
        · rw [List.mem_singleton.1 hr]
          exact ⟨rule, hmem, rfl, short.next_eq_candidate rule.rule.lead⟩
      · rintro _ ⟨⟩
        exact ⟨rfl, rule, hmem, short.next_eq_candidate rule.rule.lead, fun hin => .inl (htag hin)⟩

/-- **One module**: all that its plan renames was checked. -/
theorem checks_planModule {p : CompiledProfile} {planner : Planner} (hc : planner.classifier.Ruled p)
    (a : Analysis) :
    (planModule p planner a).2.classifier.Ruled p ∧
      ∀ name key, (planModule p planner a).1.renames.get? name = some key →
        ∃ rule, Checks p a.survey name key rule := by
  refine planModule_induct (motive := fun state => state.2.classifier.Ruled p ∧
    ∀ name key, state.1.renames.get? name = some key → ∃ rule, Checks p a.survey name key rule) ?_ ?_ ?_
  · exact ⟨hc, fun name key h => by cases h⟩
  · rintro ⟨plan, planner⟩ ⟨name, role⟩ - ⟨hruled, hchecks⟩
    obtain ⟨hruled', hbind⟩ := checks_bind hruled planner.short a.survey name role
    rw [planName]
    rcases hstep : planner.classifier.bind planner.short p a.survey name role with ⟨r | r, classifier, short⟩
    · rw [hstep] at hruled'
      exact ⟨hruled', hchecks⟩
    · rw [hstep] at hruled' hbind
      obtain ⟨hname, hrule⟩ := hbind r rfl
      refine ⟨hruled', fun n key hget => ?_⟩
      change (plan.renames.put r.name r.shortName).get? n = some key at hget
      rw [Table.get?_put] at hget
      split at hget
      · rename_i hn
        cases hget
        rwa [← beq_iff_eq.1 hn, hname]
      · exact hchecks n key hget
  · rintro ⟨plan, planner⟩ entry - ⟨hruled, hchecks⟩
    refine ⟨?_, hchecks⟩
    change (keyOf p planner entry.value).2.classifier.Ruled p
    rw [keyOf]
    split <;> exact hruled

/-- **A whole run**: all that its plans rename was checked. -/
theorem checks_planAll {p : CompiledProfile} : ∀ {planner : Planner} (calls : List Analysis),
    planner.classifier.Ruled p → List.Forall₂ (fun a plan => ∀ name key,
      plan.renames.get? name = some key → ∃ rule, Checks p a.survey name key rule) calls
      (planAll p planner calls)
  | _, [], _ => .nil
  | planner, a :: calls, hc => by
    obtain ⟨hruled, hchecks⟩ := checks_planModule hc a
    exact .cons hchecks (checks_planAll calls hruled)

/-- **The short name of a tag starts with a capital**, whichever modules of the run renamed the name
before, unless the profile has two rules of one category of which the first has a lead with a capital
and the other, which made the short name, has not. -/
theorem startsCapital_of_tag (p : CompiledProfile) (analyses : List Analysis) :
    ∀ x ∈ analyses.zip (planRun p analyses), ∀ name ∈ x.1.survey.markupTags, ∀ key,
      x.2.renames.get? name = some key →
        startsCapital key = true ∨
        ∃ first rule, rule ∈ p.rules ∧ p.firstRule? rule.rule.name = some first ∧
          startsCapital first.rule.lead = true ∧ startsCapital rule.rule.lead = false ∧
          ∃ n, key = ShortNames.candidate rule.rule.lead n := by
  rintro ⟨a, plan⟩ hx name hname key hkey
  have hstart : (start analyses).classifier.Ruled p := fun r hr => nomatch hr
  have hplans := checks_planAll analyses hstart
  obtain ⟨rule, hrule, ⟨n, rfl⟩, htag⟩ := (List.forall₂_iff_zip.1 hplans).2 hx name key hkey
  cases hcapital : startsCapital rule.rule.lead with
  | true => exact .inl (startsCapital_candidate hcapital n)
  | false =>
    obtain ⟨first, hfirst, hlead⟩ := (htag hname).resolve_left (by rw [hcapital]; exact Bool.false_ne_true)
    exact .inr ⟨first, rule, hrule, hfirst, hlead, hcapital, n, rfl⟩

end Planner

/-! ## Two rules of one category -/

/-- A profile with two rules of one category: parameters get short names with a capital, and other names get
short names with a small letter. -/
def Profile.twoLeads : Profile :=
  { minIdentifierLength := 0
    categoryRules :=
      [{ name := "part", lead := "C", pattern := "", roles := some [.parameter] },
       { name := "part", lead := "v", pattern := "" }] }

/-- That profile, checked. -/
def CompiledProfile.twoLeads : CompiledProfile :=
  { profile := .twoLeads
    rules :=
      [⟨{ name := "part", lead := "C", pattern := "", roles := some [.parameter] }, .empty⟩,
       ⟨{ name := "part", lead := "v", pattern := "" }, .empty⟩]
    critical := [] }

theorem Profile.compile_twoLeads : Profile.twoLeads.compile = .ok .twoLeads := by
  have hbound : Profile.twoLeads.hasReductionBound = true := by decide +kernel
  have hleads : (Profile.twoLeads.leads.find? fun text => !isUsableLead text) = none := by decide +kernel
  rw [compile, hbound, hleads]
  rfl

/-- What a module introduces and uses the one name `A` for. -/
def Survey.ofPart (role : Role) (markupTags : List String) : Survey :=
  { firstRoles := [("A", role)], namesInUse := ["A"], markupTags }

/-- The module `const A=1;`. -/
def ReadModule.declaringPart : ReadModule where
  source := { path := ⟨"a.js"⟩, text := "const A=1;", dialect := {} }
  program :=
    { statements :=
        [.node (.variables .const false)
          [.node (.declarator false)
            [.binding "A", .absent,
             .number { value := .finite false 4503599627370496 (-52) Double.isCanonical_one, raw := "1", start := 8 }]]] }

/-- The module `const A=1;<A/>;`, which uses the name as a tag. -/
def ReadModule.taggingPart : ReadModule where
  source := { path := ⟨"b.js"⟩, text := "const A=1;<A/>;", dialect := {} }
  program :=
    { statements := ReadModule.declaringPart.program.statements ++
        [.node .expression
          [.node .element
            [.node (.opening true) [.reference "A", .absent, .group []], .group [], .absent]]] }

/-- What the planner is told about a module whose one name is `A`. -/
def Analysis.ofPart (role : Role) (markupTags : List String) : Analysis :=
  { survey := .ofPart role markupTags }

namespace ReadModule

theorem analysis_eq_ofPart {m : ReadModule} {p : CompiledProfile} {role : Role} {tags : List String}
    (hsurvey : m.program.survey m.source.dialect = .ofPart role tags)
    (hliterals : m.program.literalTable p.profile = []) : m.analysis p = .ofPart role tags := by
  rw [analysis, Program.analyse, hsurvey, hliterals, Analysis.ofPart]

theorem survey_taggingPart : taggingPart.program.survey {} = .ofPart .declaration ["A"] := by
  have hfree : taggingPart.program.unresolved = [] := sortNames_eq (by decide +kernel) .nil
  apply Program.survey_eq hfree (by decide) <;> decide +kernel

theorem analysis_taggingPart : taggingPart.analysis .twoLeads = .ofPart .declaration ["A"] :=
  analysis_eq_ofPart survey_taggingPart (by decide +kernel)

theorem analysis_declaringPart : declaringPart.analysis .twoLeads = .ofPart .declaration [] := by
  have hfree : declaringPart.program.unresolved = [] := sortNames_eq (by decide +kernel) .nil
  refine analysis_eq_ofPart ?_ (by decide +kernel)
  apply Program.survey_eq hfree (by decide) <;> decide +kernel

end ReadModule

/-- The analyses of a module that introduces `A` in a role and of one that uses it as a tag. -/
def Analysis.partAndTag (role : Role) : List Analysis := [.ofPart role [], .ofPart .declaration ["A"]]

/-- Behind a module in which the name is a parameter, the short name of the tag has a capital. -/
theorem Planner.startsCapital_of_tag_parameter :
    ∃ x ∈ (Analysis.partAndTag .parameter).zip (planRun .twoLeads (Analysis.partAndTag .parameter)),
      "A" ∈ x.1.survey.markupTags ∧ x.2.renames.get? "A" = some "C0" ∧
        (startsCapital "C0" = true ∨
        ∃ first rule, rule ∈ CompiledProfile.twoLeads.rules ∧
          CompiledProfile.twoLeads.firstRule? rule.rule.name = some first ∧
          startsCapital first.rule.lead = true ∧ startsCapital rule.rule.lead = false ∧
          ∃ n, "C0" = ShortNames.candidate rule.rule.lead n) := by
  have hx : ((Analysis.partAndTag .parameter).zip (planRun .twoLeads (Analysis.partAndTag .parameter)))[1]? =
      some (.ofPart .declaration ["A"], (planRun .twoLeads (Analysis.partAndTag .parameter))[1]!) := by rfl
  have hmem := List.mem_of_getElem? hx
  have htag : "A" ∈ (Analysis.ofPart .declaration ["A"]).survey.markupTags := List.mem_singleton.2 rfl
  have hkey : (planRun .twoLeads (Analysis.partAndTag .parameter))[1]!.renames.get? "A" = some "C0" := by
    decide +kernel
  exact ⟨_, hmem, htag, hkey, startsCapital_of_tag _ _ _ hmem _ htag _ hkey⟩

/-- **A tag can get a short name with a small letter.**  The first module makes the short name with the
second rule, and in the next one the first rule stands for the category. -/
theorem tag_gets_small_letter :
    Profile.twoLeads.compile = .ok .twoLeads ∧
      (∀ m ∈ [ReadModule.declaringPart, .taggingPart],
        Program.parse? m.source.text m.source.dialect = some m.program) ∧
      "A" ∈ (ReadModule.taggingPart.program.survey {}).markupTags ∧
      ∃ first plan, planModules .twoLeads [.declaringPart, .taggingPart] = [first, plan] ∧
        plan.renames.get? "A" = some "v0" ∧ startsCapital "v0" = false := by
  refine ⟨Profile.compile_twoLeads, by decide +kernel, ?_, ?_⟩
  · rw [ReadModule.survey_taggingPart]
    exact List.mem_singleton.2 rfl
  · have hplans : planModules .twoLeads [.declaringPart, .taggingPart] =
        Planner.planRun .twoLeads (Analysis.partAndTag .declaration) := by
      change Planner.planRun .twoLeads
        [ReadModule.declaringPart.analysis .twoLeads, ReadModule.taggingPart.analysis .twoLeads] = _
      rw [ReadModule.analysis_declaringPart, ReadModule.analysis_taggingPart, Analysis.partAndTag]
    rw [hplans]
    exact ⟨_, _, rfl, by decide +kernel, by decide⟩

end Abridge
