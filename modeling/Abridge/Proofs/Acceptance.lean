import Abridge.Proofs.Account
import Abridge.Proofs.Coverage
import Abridge.Proofs.Percentages

/-!
# What an accepted run is

A run is accepted when its review has no issue.  The review of a run is folded from those of its modules,
and each of those is folded from a list of findings; this file shows that nothing is lost on the way, so
that a run is accepted exactly when each of its modules passes each check, and is rejected with its modules
as they came otherwise.

The bound on the reduction is checked module by module, while the report gives the reduction of the whole.
The whole shrinks by a weighted mean of what its modules shrink by, so the bound holds for it too.  All
percentages are doubles here: a module of twenty bytes that loses eleven of them shrinks by slightly more
than fifty-five percent (`run_rejected_at_bound`).

## What is here

* `CompiledProfile.Admits`: what is asked of a shortened module.
* `CompiledProfile.passed_review_iff`: a review passes exactly when this holds.
* `IsVerdict`: how a run is decided.
* `run_verdict`: every run over modules that parse is decided so.
-/

set_option autoImplicit false

namespace Abridge

/-! ## Checked profiles -/

namespace Profile

/-- The critical patterns of a checked profile are those of its texts. -/
theorem forall₂_compileCritical :
    ∀ {texts : List String} {patterns : List Pattern}, compileCritical texts = .ok patterns →
      List.Forall₂ (fun text pattern => Pattern.parse? text = some pattern) texts patterns
  | [], patterns, h => by
    rw [compileCritical, Except.ok.injEq] at h
    rw [← h]
    exact .nil
  | text :: texts, patterns, h => by
    rw [compileCritical] at h
    split at h
    · exact absurd h (by simp)
    · rename_i pattern hpattern
      split at h
      · rename_i rest hrest
        rw [Except.ok.injEq] at h
        rw [← h]
        exact .cons hpattern (forall₂_compileCritical hrest)
      · exact absurd h (by simp)

/-- What a profile that passes its checks asks of a module. -/
theorem compile_bounds {profile : Profile} {p : CompiledProfile} (h : profile.compile = .ok p) :
    p.profile.hasReductionBound = true ∧
      List.Forall₂ (fun text pattern => Pattern.parse? text = some pattern) p.profile.criticalPatterns
        p.critical := by
  rw [compile] at h
  split at h
  · exact absurd h (by simp)
  rename_i hbound
  split at h
  · exact absurd h (by simp)
  split at h
  · exact absurd h (by simp)
  split at h
  · exact absurd h (by simp)
  split at h
  · exact absurd h (by simp)
  rename_i critical hcritical
  rw [Except.ok.injEq] at h
  subst h
  exact ⟨by simpa using hbound, forall₂_compileCritical hcritical⟩

/-- The greatest accepted reduction is a positive number. -/
theorem maxReductionPercent_spec {profile : Profile} (h : profile.hasReductionBound = true) :
    profile.maxReductionPercent.isFinite = true ∧
      Double.lt (.zero false) profile.maxReductionPercent = true := by
  obtain ⟨hpos, hle⟩ := Bool.and_eq_true_iff.1 h
  refine ⟨?_, hpos⟩
  obtain ⟨hfinite, -, -⟩ := Double.ofNat_spec (n := 100) (by norm_num)
  generalize Double.ofNat 100 = hundred at hfinite hle
  generalize profile.maxReductionPercent = bound at hpos hle
  cases hundred with
  | finite =>
    cases bound with
    | finite => rfl
    | infinite s =>
      -- Only the negative infinity is at most a hundred, and that one is not positive.
      cases s
      · cases hle
      · cases hpos
    | nan => cases hle
  | _ => cases hfinite

end Profile

/-! ## The review of a module -/

theorem Review.issues_foldl_issue :
    ∀ (findings : List Finding) (r : Review),
      (findings.foldl Review.issue r).issues = r.issues ++ findings.map fun finding => Note.mk finding []
  | [], r => (List.append_nil _).symm
  | f :: findings, r => by
    rw [List.foldl_cons, Review.issues_foldl_issue findings, Review.issue, List.append_assoc]
    rfl

namespace CompiledProfile

/-- What is asked of a shortened module and the manifest of its run. -/
structure Admits (p : CompiledProfile) (m : Manifest) (before after : String) (d : Dialect) : Prop where
  /-- Its reduction is not greater than the bound. -/
  reduction : Double.lt p.profile.maxReductionPercent
    (reductionPercent before.utf8ByteSize after.utf8ByteSize) = false
  /-- It matches every critical pattern. -/
  critical : ∀ text ∈ p.profile.criticalPatterns,
    ∃ pattern, Pattern.parse? text = some pattern ∧ pattern.isMatch after = true
  /-- It is a valid program of its dialect. -/
  valid : ∃ program, Program.parse? after d = some program ∧ program.faults d = 0
  /-- The manifest is not too large. -/
  size : m.byteSize ≤ p.profile.maxManifestBytes
  /-- The manifest can be undone. -/
  invertible : m.conflict? = none

theorem issues_checkReduction (p : CompiledProfile) {r : Review} (h : r.issues = []) :
    (p.checkReduction r).issues = [] ↔
      Double.lt p.profile.maxReductionPercent r.reductionPercent = false := by
  unfold checkReduction
  split_ifs with hlt
  · rw [hlt]
    simp [Review.issue]
  · exact iff_of_true h (by simpa using hlt)
  · exact iff_of_true h (by simpa using hlt)
  · exact iff_of_true h (by simpa using hlt)

theorem manifestFindings_eq_nil {p : CompiledProfile} {m : Manifest} :
    p.manifestFindings m = [] ↔ m.byteSize ≤ p.profile.maxManifestBytes ∧ m.conflict? = none := by
  rw [manifestFindings, List.append_eq_nil_iff]
  refine and_congr ?_ ?_
  · by_cases hlarge : p.profile.maxManifestBytes < m.byteSize
    · rw [if_pos hlarge]
      exact iff_of_false (List.cons_ne_nil _ _) (by omega)
    · rw [if_neg hlarge]
      exact iff_of_true rfl (by omega)
  · cases m.conflict? with
    | none => exact iff_of_true rfl rfl
    | some c => exact iff_of_false (List.cons_ne_nil _ _) (by simp)

theorem patternFindings_eq_nil {p : CompiledProfile} {before after : String}
    (h : List.Forall₂ (fun text pattern => Pattern.parse? text = some pattern) p.profile.criticalPatterns
      p.critical) :
    p.patternFindings before after = [] ↔ ∀ text ∈ p.profile.criticalPatterns,
      ∃ pattern, Pattern.parse? text = some pattern ∧ pattern.isMatch after = true := by
  unfold patternFindings
  generalize p.profile.criticalPatterns = texts at h
  generalize p.critical = patterns at h
  induction h with
  | nil => simp
  | @cons text pattern texts patterns hpattern hrest ih =>
    rw [List.zip_cons_cons, List.forall_mem_cons, ← ih, List.filterMap_cons]
    cases hmatch : pattern.isMatch after with
    | true => simp [hmatch, hpattern]
    | false => simp [hmatch, hpattern]

theorem programFindings_eq_nil {after : String} {d : Dialect} :
    programFindings after d = [] ↔
      ∃ program, Program.parse? after d = some program ∧ program.faults d = 0 := by
  unfold programFindings
  cases hparse : Program.parse? after d with
  | none => simp
  | some program => simp [List.replicate_eq_nil_iff]

/-- **The review of a module passes exactly when the module is what it should be.** -/
theorem passed_review_iff {profile : Profile} {p : CompiledProfile} (hp : profile.compile = .ok p)
    (before after : String) (m : Manifest) (d : Dialect) :
    (p.review before after m d).passed = true ↔ p.Admits m before after d := by
  have hreduction := p.issues_checkReduction (r := {
    sizeBefore := before.utf8ByteSize, sizeAfter := after.utf8ByteSize,
    reductionPercent := reductionPercent before.utf8ByteSize after.utf8ByteSize }) rfl
  have hpatterns : p.patternFindings before after = [] ↔ _ :=
    patternFindings_eq_nil (Profile.compile_bounds hp).2
  rw [Review.passed, List.isEmpty_iff, review, Review.issues_foldl_issue, List.append_eq_nil_iff,
    List.map_eq_nil_iff, List.append_eq_nil_iff, List.append_eq_nil_iff, hreduction, hpatterns,
    manifestFindings_eq_nil, programFindings_eq_nil]
  constructor
  · rintro ⟨hreduction, ⟨⟨hsize, hconflict⟩, hcritical⟩, hvalid⟩
    exact ⟨hreduction, hcritical, hvalid, hsize, hconflict⟩
  · rintro ⟨hreduction, hcritical, hvalid, hsize, hconflict⟩
    exact ⟨hreduction, ⟨⟨hsize, hconflict⟩, hcritical⟩, hvalid⟩

end CompiledProfile

/-! ## The review of a run -/

/-- **No issue is lost while reviews are folded.** -/
theorem passed_reviewModules {p : CompiledProfile} {m : Manifest} :
    ∀ {outputs : List ModuleOutput} {r : Review},
      (reviewModules p m outputs r).passed = true ↔
        r.passed = true ∧ ∀ o ∈ outputs, (p.review o.before o.after m o.dialect).passed = true
  | [], r => by simp [reviewModules]
  | o :: outputs, r => by
    have hstep : (r.absorb o.path.text (p.review o.before o.after m o.dialect)).passed = true ↔
        r.passed = true ∧ (p.review o.before o.after m o.dialect).passed = true := by
      simp [Review.passed, Review.absorb, Review.labelled]
    rw [reviewModules, List.foldl_cons, ← reviewModules, passed_reviewModules, hstep,
      List.forall_mem_cons, and_assoc]

theorem Review.passed_checkSubstitutions (r : Review) (n : Nat) :
    (r.checkSubstitutions n).passed = r.passed := by
  unfold checkSubstitutions
  split_ifs <;> rfl

/-! ## A whole run -/

/-- How a run with a checked profile is decided. -/
structure IsVerdict (p : CompiledProfile) (sources : List SourceModule) (outputs : List ModuleOutput)
    (m : Manifest) (outcome : Outcome) : Prop where
  /-- The shortened modules are those of the run, in the order of their paths. -/
  modules : outputs.map ModuleOutput.source = Path.sortBy SourceModule.path sources
  /-- The run is accepted exactly when every module is what it should be. -/
  accepted : (∃ report, outcome = .accepted outputs m report) ↔
    ∀ o ∈ outputs, p.Admits m o.before o.after o.dialect
  /-- Otherwise it is rejected with its modules as they came, in the order of their paths. -/
  rejected : (¬ ∀ o ∈ outputs, p.Admits m o.before o.after o.dialect) →
    ∃ sorted report, outcome = .rejected sorted report ∧ sorted.Perm sources ∧
      sorted.Pairwise fun s s' => s.path.compare s'.path ≠ .gt
  /-- What is reported of an accepted run is not above the bound, if the sizes together are a double. -/
  bounded : (∀ o ∈ outputs, p.Admits m o.before o.after o.dialect) →
    outcome.report.review.sizeBefore < 2 ^ 53 →
      Double.lt p.profile.maxReductionPercent outcome.report.review.reductionPercent = false
  /-- Up to two roundings the exact reduction of an accepted run is not above the bound either, if the
  size of each module is a double. -/
  boundedExactly : (∀ o ∈ outputs, p.Admits m o.before o.after o.dialect) →
    (∀ s ∈ sources, s.text.utf8ByteSize < 2 ^ 53) →
      ((outcome.report.review.sizeBefore : ℚ) - outcome.report.review.sizeAfter) * 100 ≤
        p.profile.maxReductionPercent.value * (1 + 2 ^ (-53 : ℤ)) ^ 2 *
          outcome.report.review.sizeBefore

/-- The sizes of shortened modules. -/
def sizesOf (outputs : List ModuleOutput) : List (ℕ × ℕ) :=
  outputs.map fun o => (o.before.utf8ByteSize, o.after.utf8ByteSize)

theorem Review.Sizes.eq_sums {r : Review} {outputs : List ModuleOutput} (h : r.Sizes (totalSavings outputs)) :
    r.sizeBefore = ((sizesOf outputs).map Prod.fst).sum ∧
      r.sizeAfter = ((sizesOf outputs).map Prod.snd).sum ∧
      r.reductionPercent =
        Abridge.reductionPercent ((sizesOf outputs).map Prod.fst).sum
          ((sizesOf outputs).map Prod.snd).sum := by
  obtain ⟨hbefore, hafter, hpercent⟩ := h
  simp only [sizesOf, List.map_map]
  exact ⟨hbefore, hafter, hpercent⟩

/-- The end of a run that goes through its stages: its review passes exactly when each of its modules is what
it should be. -/
theorem Stages.conclude_eq {profile : Profile} {p : CompiledProfile} (hp : profile.compile = .ok p)
    {emitMap : Bool} {timestamp : String} {sources : List SourceModule} {modules : List ReadModule}
    {results : List (ModuleOutput × Manifest)} {merged : Manifest}
    (h : Stages p emitMap timestamp sources modules results merged) (failed : List FailedModule) :
    ∃ report,
      conclude p timestamp (Path.sortBy SourceModule.path sources) results failed =
        (if report.success then
          .accepted (results.map Prod.fst) (runManifest merged (results.map Prod.fst)) report
        else .rejected (Path.sortBy SourceModule.path sources) report) ∧
      (report.success = true ↔ ∀ o ∈ results.map Prod.fst,
        p.Admits (runManifest merged (results.map Prod.fst)) o.before o.after o.dialect) := by
  refine ⟨_, Abridge.conclude_eq p _ h.merged rfl failed rfl, ?_⟩
  rw [Report.success, Review.passed_checkSubstitutions, passed_reviewModules]
  exact (and_iff_right rfl).trans
    (forall₂_congr fun o _ => CompiledProfile.passed_review_iff hp o.before o.after _ o.dialect)

/-- **A run is accepted exactly when each of its modules passes each check.**  Modules that all parse, at
least one of them, go through all stages of a run.  The run is accepted when for every module the reduction
is at most the bound, the shortened text matches all critical patterns and is a valid program of the
module's dialect, and the manifest is small enough and free of conflicts; otherwise it is rejected with the
modules as they came.  The reduction of an accepted run as a whole is at most the bound, too. -/
theorem run_verdict {profile : Profile} {p : CompiledProfile} (hp : profile.compile = .ok p)
    (emitMap : Bool) (timestamp : String) {sources : List SourceModule} (hne : sources ≠ [])
    (hparse : ∀ s ∈ sources, (Program.parse? s.text s.dialect).isSome = true)
    (failed : List FailedModule) :
    ∃ modules results merged outcome, Stages p emitMap timestamp sources modules results merged ∧
      run p emitMap timestamp sources failed = .ok outcome ∧
      IsVerdict p sources (results.map Prod.fst) (runManifest merged (results.map Prod.fst)) outcome := by
  obtain ⟨modules, hread, hmodules⟩ := exists_read hparse
  obtain ⟨final, hsettled⟩ := exists_settled hp modules
  obtain ⟨results, merged, hstages, hresults, hmerges⟩ :=
    exists_stages hread hsettled emitMap timestamp
  have hconflict : (runManifest merged (results.map Prod.fst)).conflict? = none := by
    rw [conflict?_runManifest]
    exact hmerges.records.conflict?_eq_none hsettled.consistent
  obtain ⟨-, hsizes, -⟩ :=
    report_conclude p (Path.sortBy SourceModule.path sources) hstages.merged rfl hconflict failed
  obtain ⟨hbefore, hafter, hpercent⟩ := hsizes.eq_sums
  have hsources := map_source_outputs hmodules hresults
  obtain ⟨report, hconclude, hpassed⟩ := hstages.conclude_eq hp failed
  obtain ⟨hfinite, hpos⟩ := Profile.maxReductionPercent_spec (Profile.compile_bounds hp).1
  refine ⟨modules, results, merged, _, hstages, hstages.run_eq (hmodules.isEmpty_eq hne) failed, ?_⟩
  generalize results.map Prod.fst = outputs at *
  generalize runManifest merged outputs = m at *
  have hadmitted : (∀ o ∈ outputs, p.Admits m o.before o.after o.dialect) →
      ∀ x ∈ sizesOf outputs, Double.lt p.profile.maxReductionPercent (reductionPercent x.1 x.2) = false := by
    intro hadmits x hx
    obtain ⟨o, ho, rfl⟩ := List.mem_map.1 hx
    exact (hadmits o ho).reduction
  refine ⟨hsources, ?_, ?_, ?_, ?_⟩
  · rw [hconclude, ← hpassed]
    split_ifs with hsuccess
    · exact iff_of_true ⟨_, rfl⟩ hsuccess
    · exact iff_of_false (by rintro ⟨report, h⟩; cases h) hsuccess
  · intro hnot
    rw [hconclude, if_neg (hpassed.not.2 hnot)]
    exact ⟨_, _, rfl, List.mergeSort_perm _ _, Path.pairwise_sortBy SourceModule.path sources⟩
  · intro hadmits hbits
    rw [hbefore] at hbits
    rw [hpercent]
    exact not_lt_reductionPercent_sum hpos hbits (hadmitted hadmits)
  · intro hadmits hbits
    rw [hbefore, hafter]
    refine sum_reduction_le hfinite hpos ?_ (hadmitted hadmits)
    intro x hx
    obtain ⟨o, ho, rfl⟩ := List.mem_map.1 hx
    have hmem : o.source ∈ Path.sortBy SourceModule.path sources := hsources ▸ List.mem_map_of_mem ho
    exact hbits o.source ((List.mergeSort_perm _ _).mem_iff.1 hmem)

/-- A run over an empty module and one that is shortened. -/
theorem run_verdict_empty :
    ∃ p, Profile.balanced.compile = .ok p ∧ ∃ modules results merged outcome,
      Stages p false "t" [⟨⟨"b.js"⟩, "const count=1;  use(count);", {}⟩, ⟨⟨"a.js"⟩, "", {}⟩]
        modules results merged ∧
      run p false "t" [⟨⟨"b.js"⟩, "const count=1;  use(count);", {}⟩, ⟨⟨"a.js"⟩, "", {}⟩] [] =
        .ok outcome ∧
      IsVerdict p [⟨⟨"b.js"⟩, "const count=1;  use(count);", {}⟩, ⟨⟨"a.js"⟩, "", {}⟩]
        (results.map Prod.fst) (runManifest merged (results.map Prod.fst)) outcome := by
  obtain ⟨p, hp⟩ := Profile.exists_compile_balanced
  have hparse : ∀ s ∈ [(⟨⟨"b.js"⟩, "const count=1;  use(count);", {}⟩ : SourceModule),
      ⟨⟨"a.js"⟩, "", {}⟩], (Program.parse? s.text s.dialect).isSome = true := by
    decide +kernel
  exact ⟨p, hp, run_verdict hp false "t" (List.cons_ne_nil _ _) hparse []⟩

/-! ## A module at the bound -/

/-- A profile that renames nothing and accepts reductions up to fifty-five percent. -/
def Profile.bounded : Profile := { categoryRules := [], maxReductionPercent := Double.ofNat 55 }

/-- The same profile, checked. -/
def CompiledProfile.bounded : CompiledProfile := { profile := .bounded, rules := [], critical := [] }

theorem Profile.compile_bounded : Profile.bounded.compile = .ok .bounded := by
  have hbound : Profile.bounded.hasReductionBound = true := by decide +kernel
  have hleads : (Profile.bounded.leads.find? fun text => !isUsableLead text) = none := by decide +kernel
  rw [compile, hbound, hleads]
  rfl

/-- A module of twenty bytes, eleven of which are blanks that go. -/
def ReadModule.padded : ReadModule where
  source := { path := ⟨"a.js"⟩, text := "12345678;           ", dialect := {} }
  program :=
    { statements := [.node .expression
        [.number { value := Double.ofNat 12345678, raw := "12345678", start := 0 }]] }

theorem ReadModule.parse?_padded :
    Program.parse? padded.source.text padded.source.dialect = some padded.program := by
  decide +kernel

/-- The plan of the padded module changes nothing. -/
theorem planModules_padded : planModules .bounded [.padded] = [{}] := by
  have hempty : sortNames [] = [] := sortNames_eq (by decide) (by decide)
  have hfree : ReadModule.padded.program.unresolved = [] := hempty
  have hsurvey : ReadModule.padded.program.survey {} = {} := by
    simp only [Program.survey, hfree]
    change Survey.mk [] (sortNames []) (sortNames []) (sortNames []) false = _
    rw [hempty]
  have hplans : planModules .bounded [.padded] =
      Planner.planRun .bounded [{ literals := ReadModule.padded.program.literalTable .bounded }] := by
    change Planner.planRun .bounded [{ survey := ReadModule.padded.program.survey {}, literals := _ }] = _
    rw [hsurvey]
    rfl
  rw [hplans]
  have hliterals : (ReadModule.padded.program.literalTable .bounded).filter LiteralEntry.hoist = [] := by
    decide +kernel
  rw [Planner.planRun, Planner.planAll, Planner.planModule]
  dsimp only
  rw [hliterals]
  rfl

/-- What a run makes of the padded module. -/
def ModuleOutput.trimmed : ModuleOutput where
  path := ⟨"a.js"⟩
  dialect := {}
  before := "12345678;           "
  after := "12345678;"
  positionMap := none
  substitutions := 0

/-- The manifest of the padded module. -/
def Manifest.ofTrimmed : Manifest where
  timestamp := "t"
  savings := ModuleOutput.trimmed.account.savings
  modules := [ModuleOutput.trimmed.account]

theorem ReadModule.shorten_padded :
    padded.shorten {} "t" false = .ok (.trimmed, .ofTrimmed) := by
  have hrewrite : padded.rewrite {} = some padded.program := rfl
  have houtput : padded.output {} padded.program false = .trimmed := by decide +kernel
  simp only [shorten, hrewrite, houtput]
  rfl

/-- The manifest of a run over the padded module. -/
def Manifest.ofTrimmedRun : Manifest := { Manifest.ofTrimmed with savings := .ofSizes 20 9 0 }

/-- A run over the padded module goes through its stages. -/
theorem stages_padded : Stages .bounded false "t" [ReadModule.padded.source] [.padded]
    [(.trimmed, .ofTrimmed)] .ofTrimmedRun := by
  constructor
  · simp only [Path.sortBy, List.mergeSort_singleton, List.mapM_cons, SourceModule.read,
      ReadModule.parse?_padded]
    rfl
  · rw [planModules_padded]
    change [(ReadModule.padded, ({} : ModulePlan))].mapM _ = _
    rw [List.mapM_cons]
    dsimp only
    rw [ReadModule.shorten_padded]
    rfl
  · have hsizes : ({} : Savings).add ModuleOutput.trimmed.account.savings = .ofSizes 20 9 0 := by
      decide +kernel
    have hmerge : Manifest.merge { timestamp := "t" } .ofTrimmed =
        ({ Manifest.ofTrimmed with savings := ({} : Savings).add ModuleOutput.trimmed.account.savings },
          none) := rfl
    rw [mergeAll, List.map_singleton, List.foldl_cons, List.foldl_nil, mergeManifests, hmerge, hsizes]
    rfl

/-- **A module whose exact reduction is the bound is rejected**, though nothing else speaks against it: of
its twenty bytes eleven go, and eleven twentieths of a hundred are slightly more than fifty-five when they
are computed in doubles. -/
theorem run_rejected_at_bound :
    Profile.bounded.compile = .ok .bounded ∧
      ∃ o m report, Stages .bounded false "t" [ReadModule.padded.source] [.padded] [(o, .ofTrimmed)] m ∧
        run .bounded false "t" [ReadModule.padded.source] [] =
          .ok (.rejected [ReadModule.padded.source] report) ∧
        ((o.before.utf8ByteSize : ℚ) - o.after.utf8ByteSize) / o.before.utf8ByteSize * 100 ≤
          Profile.bounded.maxReductionPercent.value ∧
        Profile.bounded.criticalPatterns = [] ∧
        (∃ program, Program.parse? o.after o.dialect = some program ∧ program.faults o.dialect = 0) ∧
        (runManifest m [o]).byteSize ≤ Profile.bounded.maxManifestBytes ∧
        (runManifest m [o]).conflict? = none := by
  obtain ⟨report, hconclude, hpassed⟩ := stages_padded.conclude_eq Profile.compile_bounded []
  have hrejected : ¬ report.success = true := by
    intro hsuccess
    have hadmits := (hpassed.1 hsuccess .trimmed (List.mem_singleton.2 rfl)).reduction
    revert hadmits
    decide +kernel
  refine ⟨Profile.compile_bounded, .trimmed, .ofTrimmedRun, report, stages_padded, ?_, ?_, rfl,
    ⟨ReadModule.padded.program, by decide +kernel, by decide +kernel⟩, by decide +kernel, rfl⟩
  · rw [stages_padded.run_eq rfl, hconclude, if_neg hrejected, Path.sortBy, List.mergeSort_singleton]
  · have hbound : Profile.bounded.maxReductionPercent.value = 55 :=
      (Double.ofNat_spec (n := 55) (by norm_num)).2.2
    have hsizes : ModuleOutput.trimmed.before.utf8ByteSize = 20 ∧
        ModuleOutput.trimmed.after.utf8ByteSize = 9 := by decide +kernel
    rw [hbound, hsizes.1, hsizes.2]
    norm_num

end Abridge
