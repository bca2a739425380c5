import Abridge.Proofs.Paths
import Abridge.Proofs.Runs

/-!
# The account of a run

The manifest of a run is what undoes it, and the review of a run is what lets it through.  Both add up
the same modules on ways of their own: the manifest by merging those of the modules, the review by
absorbing theirs.  This file shows that the two ways meet, and that the manifest holds an entry for
everything that the plans of the run give a key to, and for nothing else.

A manifest with a conflict would refuse the run.  By `Settled.consistent` no key of a run has two
meanings, so this never happens, and none of the issues of a run is a conflict (`Review.Undisputed`).

## What is here

* `Review.Undisputed`, `Review.Sizes`: what the review of a run keeps while modules are added.
* `Manifest.Accounts`: one entry for each thing that has a key.
* `run_account`: the manifest of every run is complete, free of conflicts and agrees with the report.
-/

set_option autoImplicit false

namespace Abridge

/-! ## Reviews of a run -/

namespace Review

/-- No issue is a conflict. -/
def Undisputed (r : Review) : Prop := ∀ note ∈ r.issues, ∀ c, note.finding ≠ .conflict c

/-- The sizes that a review reports are those of the savings. -/
def Sizes (r : Review) (savings : Savings) : Prop :=
  r.sizeBefore = savings.sizeBefore ∧ r.sizeAfter = savings.sizeAfter ∧
    r.reductionPercent = savings.reductionPercent

theorem undisputed_issue {r : Review} {finding : Finding} (h : r.Undisputed)
    (hf : ∀ c, finding ≠ .conflict c) : (r.issue finding).Undisputed := by
  intro note hnote
  rcases List.mem_append.1 hnote with hnote | hnote
  · exact h note hnote
  · rw [List.mem_singleton.1 hnote]
    exact hf

theorem foldl_issue {findings : List Finding} (hf : ∀ f ∈ findings, ∀ c, f ≠ .conflict c) :
    ∀ {r : Review}, r.Undisputed → (findings.foldl issue r).Undisputed ∧
      (findings.foldl issue r).sizeBefore = r.sizeBefore ∧
      (findings.foldl issue r).sizeAfter = r.sizeAfter := by
  induction findings with
  | nil => exact fun h => ⟨h, rfl, rfl⟩
  | cons f findings ih =>
    intro r h
    exact ih (fun g hg => hf g (List.mem_cons_of_mem _ hg))
      (undisputed_issue h (hf f List.mem_cons_self))

/-- Undisputed reviews in terms of codes. -/
theorem Undisputed.code_ne {r : Review} (h : r.Undisputed) {note : Note} (hnote : note ∈ r.issues) :
    note.finding.code ≠ "VAL006" := by
  have hconflict := h note hnote
  cases hf : note.finding with
  | conflict c => exact absurd hf (hconflict c)
  | _ => exact of_decide_eq_true rfl

end Review

namespace CompiledProfile

theorem checkReduction_undisputed (p : CompiledProfile) {r : Review} (h : r.issues = []) :
    (p.checkReduction r).Undisputed ∧ (p.checkReduction r).sizeBefore = r.sizeBefore ∧
      (p.checkReduction r).sizeAfter = r.sizeAfter := by
  have hr : r.Undisputed := by
    intro note hnote
    rw [h] at hnote
    exact absurd hnote List.not_mem_nil
  unfold checkReduction
  split_ifs
  · exact ⟨Review.undisputed_issue hr (fun c h => by cases h), rfl, rfl⟩
  · exact ⟨hr, rfl, rfl⟩
  · exact ⟨hr, rfl, rfl⟩
  · exact ⟨hr, rfl, rfl⟩

/-- **The review of a module finds no conflict in a manifest that has none.** -/
theorem review_undisputed (p : CompiledProfile) (before after : String) {m : Manifest}
    (hm : m.conflict? = none) (d : Dialect) :
    (p.review before after m d).Undisputed ∧
      (p.review before after m d).sizeBefore = before.utf8ByteSize ∧
      (p.review before after m d).sizeAfter = after.utf8ByteSize := by
  have hfindings : ∀ f ∈ p.manifestFindings m ++ p.patternFindings before after ++
      programFindings after d, ∀ c, f ≠ .conflict c := by
    intro f hf c
    rcases List.mem_append.1 hf with hf | hf
    · rcases List.mem_append.1 hf with hf | hf
      · rw [manifestFindings, hm] at hf
        split at hf
        · rw [List.mem_singleton.1 hf]
          exact fun h => by cases h
        · exact absurd hf List.not_mem_nil
      · obtain ⟨⟨text, pattern⟩, -, hx⟩ := List.mem_filterMap.1 hf
        dsimp only at hx
        split at hx
        · cases hx
        · rw [← Option.some_inj.1 hx]
          exact fun h => by cases h
    · unfold programFindings at hf
      split at hf
      · rw [List.mem_singleton.1 hf]
        exact fun h => by cases h
      · rw [List.eq_of_mem_replicate hf]
        exact fun h => by cases h
  obtain ⟨sized, hsized⟩ : ∃ sized : Review, sized =
      { sizeBefore := before.utf8ByteSize, sizeAfter := after.utf8ByteSize
        reductionPercent := reductionPercent before.utf8ByteSize after.utf8ByteSize } := ⟨_, rfl⟩
  obtain ⟨hreduction, hbefore, hafter⟩ : (p.checkReduction sized).Undisputed ∧
      (p.checkReduction sized).sizeBefore = before.utf8ByteSize ∧
      (p.checkReduction sized).sizeAfter = after.utf8ByteSize := by
    rw [hsized]
    exact p.checkReduction_undisputed rfl
  obtain ⟨hall, hbefore', hafter'⟩ := Review.foldl_issue hfindings hreduction
  rw [review, ← hsized]
  exact ⟨hall, hbefore'.trans hbefore, hafter'.trans hafter⟩

end CompiledProfile

/-- **The review of a run** has the sizes of all its modules together, and finds no conflict in a
manifest that has none. -/
theorem reviewModules_eq {p : CompiledProfile} {m : Manifest} (hm : m.conflict? = none) :
    ∀ {outputs done : List ModuleOutput} {r : Review}, r.Undisputed → r.Sizes (totalSavings done) →
      (reviewModules p m outputs r).Undisputed ∧
        (reviewModules p m outputs r).Sizes (totalSavings (done ++ outputs))
  | [], done, r, hr, hs => ⟨hr, by rw [List.append_nil]; exact hs⟩
  | o :: outputs, done, r, hr, hs => by
    obtain ⟨hreview, hbefore, hafter⟩ := p.review_undisputed o.before o.after hm o.dialect
    have hassoc : done ++ o :: outputs = (done ++ [o]) ++ outputs := by simp
    rw [hassoc]
    refine reviewModules_eq hm (r := r.absorb o.path.text _) ?_ ?_
    · intro note hnote c
      rcases List.mem_append.1 hnote with hnote | hnote
      · exact hr note hnote c
      · obtain ⟨note', hnote', rfl⟩ := List.mem_map.1 hnote
        exact hreview note' hnote' c
    · obtain ⟨hs₁, hs₂, -⟩ := hs
      refine ⟨?_, ?_, ?_⟩
      · simp [Review.absorb, hbefore, hs₁, totalSavings, Savings.ofSizes]
      · simp [Review.absorb, hafter, hs₂, totalSavings, Savings.ofSizes]
      · simp [Review.absorb, hbefore, hafter, hs₁, hs₂, totalSavings, Savings.ofSizes]

/-! ## The entries of a run -/

theorem JsonNumber.exists_ofDouble? {x : Double} (hx : x.isFinite = true) :
    ∃ n, JsonNumber.ofDouble? x = some n := by
  unfold JsonNumber.ofDouble?
  split
  · split
    · exact ⟨_, rfl⟩
    · exact ⟨_, rfl⟩
  · exact ⟨_, if_pos hx⟩

/-- A manifest holds one entry for everything that the plans of a run give a key to, and nothing
else. -/
structure Manifest.Accounts (m : Manifest) (plans : List ModulePlan) : Prop where
  /-- Every category has one table. -/
  tables : Table.Distinct m.categories
  /-- The entries of a category are the names that are renamed under it in some module. -/
  names : ∀ category key name,
    (∃ table, (category, table) ∈ m.categories ∧ (key, name) ∈ table) ↔
      ∃ plan ∈ plans, plan.renames.get? name = some key ∧
        ∃ r ∈ plan.renamings, r.category = category ∧ r.shortName = key ∧ r.name = name
  /-- The strings are those that are hoisted in some module. -/
  strings : ∀ key text, (key, text) ∈ m.strings ↔
    ∃ plan ∈ plans, (key, .string text) ∈ plan.hoisted
  /-- The numbers are those that are hoisted in some module, as a manifest writes them. -/
  numbers : ∀ key n, (key, n) ∈ m.numbers ↔
    ∃ plan ∈ plans, ∃ x, (key, .number x) ∈ plan.hoisted ∧ JsonNumber.ofDouble? x = some n
  /-- Every hoisted number can be written. -/
  written : ∀ plan ∈ plans, ∀ key x, (key, Literal.number x) ∈ plan.hoisted →
    (JsonNumber.ofDouble? x).isSome = true
  /-- No key occurs twice, in one table or in two. -/
  keys : (m.entries.map Prod.fst).Nodup
  /-- No name has two entries. -/
  oneName : ((m.categories.flatMap Prod.snd).map Prod.snd).Nodup
  /-- No literal has two entries. -/
  oneLiteral : ∀ plan ∈ plans, ∀ plan' ∈ plans, ∀ x ∈ plan.hoisted, ∀ x' ∈ plan'.hoisted,
    x.1 = x'.1 ↔ x.2 = x'.2

/-- **The manifest of a run accounts for its plans.** -/
theorem Settled.accounts {p : CompiledProfile} {modules : List ReadModule} {final : Planner}
    (h : Settled p modules final) {m : Manifest}
    (hm : m.Records ((planModules p modules).flatMap ModulePlan.renamings)
      ((planModules p modules).flatMap ModulePlan.hoisted)) :
    m.Accounts (planModules p modules) := by
  have hkeys : (m.entries.map Prod.fst).Nodup := hm.nodup_keys h.consistent
  refine ⟨hm.categories.distinct, ?_, ?_, ?_, ?_, hkeys, ?_, ?_⟩
  · intro category key name
    rw [hm.categories.mem_iff, List.mem_map]
    constructor
    · rintro ⟨r, hr, hentry⟩
      obtain ⟨plan, hplan, hr⟩ := List.mem_flatMap.1 hr
      obtain ⟨module, -, hplanned⟩ := h.exists_module hplan
      obtain ⟨hcategory, hkey, hname⟩ : r.category = category ∧ r.shortName = key ∧ r.name = name := by
        simpa [Renaming.entry] using hentry
      exact ⟨plan, hplan, (hplanned.agrees.renames name key).2 ⟨r, hr, hname, hkey⟩,
        r, hr, hcategory, hkey, hname⟩
    · rintro ⟨plan, hplan, -, r, hr, rfl, rfl, rfl⟩
      exact ⟨r, List.mem_flatMap.2 ⟨plan, hplan, hr⟩, rfl⟩
  · intro key text
    rw [hm.strings.mem_iff, List.mem_filterMap]
    constructor
    · rintro ⟨x, hx, hentry⟩
      obtain ⟨plan, hplan, hx⟩ := List.mem_flatMap.1 hx
      exact ⟨plan, hplan, stringEntry_eq_some.1 hentry ▸ hx⟩
    · rintro ⟨plan, hplan, hx⟩
      exact ⟨_, List.mem_flatMap.2 ⟨plan, hplan, hx⟩, rfl⟩
  · intro key n
    rw [hm.numbers.mem_iff, List.mem_filterMap]
    constructor
    · rintro ⟨⟨key', value⟩, hx, hentry⟩
      obtain ⟨plan, hplan, hx⟩ := List.mem_flatMap.1 hx
      cases value with
      | string text => cases hentry
      | number x =>
        obtain ⟨n', hn', heq⟩ := Option.map_eq_some_iff.1 hentry
        cases heq
        exact ⟨plan, hplan, x, hx, hn'⟩
    · rintro ⟨plan, hplan, x, hx, hn⟩
      exact ⟨_, List.mem_flatMap.2 ⟨plan, hplan, hx⟩, by rw [numberEntry, hn]; rfl⟩
  · intro plan hplan key x hx
    obtain ⟨n, hn⟩ := JsonNumber.exists_ofDouble? (x := x)
      (h.mem_hoisted (List.mem_flatMap.2 ⟨plan, hplan, hx⟩)).1
    rw [hn]
    rfl
  · have hpairs : ((m.categories.flatMap Prod.snd).map Prod.fst).Nodup := hm.nodup_names h.consistent
    refine List.Nodup.map_on ?_ (List.Nodup.of_map _ hpairs)
    intro e he e' he' hname
    have hrenaming : ∀ e ∈ m.categories.flatMap Prod.snd,
        ∃ r ∈ (planModules p modules).flatMap ModulePlan.renamings,
          r.shortName = e.1 ∧ r.name = e.2 := by
      intro e he
      obtain ⟨⟨category, table⟩, htable, he⟩ := List.mem_flatMap.1 he
      obtain ⟨r, hr, hentry⟩ := List.mem_map.1 (hm.categories.mem_iff.1 ⟨table, htable, he⟩)
      exact ⟨r, hr, congrArg (fun x => x.2.1) hentry, congrArg (fun x => x.2.2) hentry⟩
    obtain ⟨r, hr, hkey, hname₁⟩ := hrenaming e he
    obtain ⟨r', hr', hkey', hname₂⟩ := hrenaming e' he'
    have hshort := h.key_eq.1 r hr r' hr' (by rw [hname₁, hname₂, hname])
    exact Prod.ext (by rw [← hkey, ← hkey', hshort]) hname
  · intro plan hplan plan' hplan' x hx x' hx'
    have hmem := List.mem_flatMap.2 ⟨plan, hplan, hx⟩
    have hmem' := List.mem_flatMap.2 ⟨plan', hplan', hx'⟩
    exact ⟨fun hkey => congrArg Prod.snd (h.consistent.literals x hmem x' hmem' hkey),
      h.key_eq.2 x hmem x' hmem'⟩

/-! ## A whole run -/

/-- How the manifest of a run and the report on it account for its modules. -/
structure IsAccount (sources : List SourceModule) (plans : List ModulePlan)
    (outputs : List ModuleOutput) (m : Manifest) (outcome : Outcome) : Prop where
  /-- No key has two meanings. -/
  invertible : m.conflict? = none
  /-- The entries are those of the plans. -/
  entries : m.Accounts plans
  /-- The savings are the sums over the modules. -/
  savings : m.savings = totalSavings outputs
  /-- A run of one module keeps no account of its modules, any other run one account for each. -/
  modules : m.modules = if outputs.length = 1 then [] else outputs.map ModuleOutput.account
  /-- The modules are those of the run. -/
  paths : (outputs.map ModuleOutput.path).Perm (sources.map SourceModule.path)
  /-- They are in the order of their paths. -/
  sorted : (outputs.map ModuleOutput.path).Pairwise fun x y => x.compare y ≠ .gt
  /-- No conflict is reported. -/
  issues : ∀ note ∈ outcome.report.review.issues, note.finding.code ≠ "VAL006"
  /-- The sizes that are reported are those of the manifest. -/
  sizes : outcome.report.review.Sizes m.savings
  /-- An accepted run is left with this manifest. -/
  manifest : ∀ m', outcome.manifest? = some m' → m' = m

theorem conflict?_runManifest (merged : Manifest) (outputs : List ModuleOutput) :
    (runManifest merged outputs).conflict? = merged.conflict? := by
  unfold runManifest
  split_ifs <;> rfl

theorem savings_runManifest (merged : Manifest) (outputs : List ModuleOutput) :
    (runManifest merged outputs).savings = merged.savings := by
  unfold runManifest
  split_ifs <;> rfl

theorem Manifest.Records.runManifest {m : Manifest} {renamings : List Renaming}
    {hoisted : List (String × Literal)} (hm : m.Records renamings hoisted)
    (outputs : List ModuleOutput) : (Abridge.runManifest m outputs).Records renamings hoisted := by
  unfold Abridge.runManifest
  split_ifs
  · exact ⟨hm.categories, hm.strings, hm.numbers⟩
  · exact hm

/-- The end of a run whose manifests merge without a conflict: its modules are reviewed. -/
theorem conclude_eq (p : CompiledProfile) {timestamp : String} (sources : List SourceModule)
    {results : List (ModuleOutput × Manifest)} {merged m : Manifest}
    (hmerged : mergeAll timestamp (results.map Prod.snd) = (merged, {}))
    (hm : runManifest merged (results.map Prod.fst) = m) (failed : List FailedModule) {review : Review}
    (hreview : (reviewModules p m (results.map Prod.fst) {}).checkSubstitutions m.savings.substitutions =
      review) :
    conclude p timestamp sources results failed =
      if (Report.mk review failed).success then .accepted (results.map Prod.fst) m ⟨review, failed⟩
      else .rejected sources ⟨review, failed⟩ := by
  simp only [conclude, hmerged, hm, hreview]

/-- The report of a run in which nothing but the modules can be at issue. -/
theorem report_conclude (p : CompiledProfile) {timestamp : String} (sources : List SourceModule)
    {results : List (ModuleOutput × Manifest)} {merged m : Manifest}
    (hmerged : mergeAll timestamp (results.map Prod.snd) = (merged, {}))
    (hm : runManifest merged (results.map Prod.fst) = m) (hconflict : m.conflict? = none)
    (failed : List FailedModule) :
    (conclude p timestamp sources results failed).report.review.Undisputed ∧
      (conclude p timestamp sources results failed).report.review.Sizes
        (totalSavings (results.map Prod.fst)) ∧
      ∀ m', (conclude p timestamp sources results failed).manifest? = some m' → m' = m := by
  obtain ⟨hundisputed, hsizes⟩ : (reviewModules p m (results.map Prod.fst) {}).Undisputed ∧
      (reviewModules p m (results.map Prod.fst) {}).Sizes
        (totalSavings ([] ++ results.map Prod.fst)) :=
    reviewModules_eq hconflict (fun _ hnote => absurd hnote List.not_mem_nil) ⟨rfl, rfl, rfl⟩
  obtain ⟨review, hreview⟩ : ∃ review, review =
      (reviewModules p m (results.map Prod.fst) {}).checkSubstitutions m.savings.substitutions :=
    ⟨_, rfl⟩
  have hall : review.Undisputed ∧ review.Sizes (totalSavings (results.map Prod.fst)) := by
    rw [hreview, Review.checkSubstitutions]
    split_ifs
    · exact ⟨hundisputed, hsizes⟩
    · exact ⟨hundisputed, hsizes⟩
  rw [conclude_eq p sources hmerged hm failed hreview.symm]
  split_ifs
  · exact ⟨hall.1, hall.2, fun m' h => (Option.some_inj.1 h).symm⟩
  · exact ⟨hall.1, hall.2, fun m' h => by cases h⟩

theorem AreRead.isEmpty_eq {sources : List SourceModule} {modules : List ReadModule}
    (h : AreRead sources modules) (hsources : sources ≠ []) : modules.isEmpty = false := by
  rw [List.isEmpty_eq_false_iff]
  rintro rfl
  have hlength := congrArg List.length h.sources
  rw [Path.sortBy, List.length_mergeSort] at hlength
  exact hsources (List.length_eq_zero_iff.1 hlength.symm)

/-- A run over at least one module that goes through its stages comes to its end. -/
theorem Stages.run_eq {p : CompiledProfile} {emitMap : Bool} {timestamp : String}
    {sources : List SourceModule} {modules : List ReadModule}
    {results : List (ModuleOutput × Manifest)} {merged : Manifest}
    (h : Stages p emitMap timestamp sources modules results merged) (hne : modules.isEmpty = false)
    (failed : List FailedModule) :
    run p emitMap timestamp sources failed =
      .ok (conclude p timestamp (Path.sortBy SourceModule.path sources) results failed) := by
  have hshortened := h.shortened
  simp only [run, h.read, bind, Except.bind, hne, Bool.false_eq_true, if_false] at hshortened ⊢
  rw [hshortened]
  rfl

/-- The module that was shortened. -/
def ModuleOutput.source (o : ModuleOutput) : SourceModule where
  path := o.path
  text := o.before
  dialect := o.dialect

/-- The shortened modules of a run are its modules in order. -/
theorem map_source_outputs {p : CompiledProfile} {emitMap : Bool} {sources : List SourceModule}
    {modules : List ReadModule} {results : List (ModuleOutput × Manifest)}
    (hmodules : AreRead sources modules)
    (hresults : List.Forall₂ (IsResult emitMap) (modules.zip (planModules p modules)) results) :
    (results.map Prod.fst).map ModuleOutput.source = Path.sortBy SourceModule.path sources := by
  have hsources : (results.map Prod.fst).map ModuleOutput.source =
      (modules.zip (planModules p modules)).map fun x => x.1.source := by
    rw [← List.forall₂_eq_eq_eq, List.map_map, List.forall₂_map_left_iff, List.forall₂_map_right_iff]
    refine hresults.flip.imp ?_
    rintro result x ⟨program, -, hresult⟩
    rw [Function.comp_apply, hresult]
    rfl
  have hzip : (modules.zip (planModules p modules)).map Prod.fst = modules :=
    List.map_fst_zip (by rw [length_planModules])
  rw [hsources, ← hmodules.sources, ← hzip, List.map_map, hzip]
  rfl

/-- The paths of the shortened modules of a run. -/
theorem map_path_outputs {p : CompiledProfile} {emitMap : Bool} {sources : List SourceModule}
    {modules : List ReadModule} {results : List (ModuleOutput × Manifest)}
    (hmodules : AreRead sources modules)
    (hresults : List.Forall₂ (IsResult emitMap) (modules.zip (planModules p modules)) results) :
    (results.map Prod.fst).map ModuleOutput.path =
      (Path.sortBy SourceModule.path sources).map SourceModule.path := by
  rw [← map_source_outputs hmodules hresults, List.map_map, List.map_map, List.map_map]
  rfl

/-- **The manifest of a run is invertible and complete.**  Modules that all parse go through all stages
of a run: each of them is recorded and merged without a conflict.  The manifest that comes out holds one
entry for each name and literal that has a key in some module and nothing else, and its accounts agree
with those of the report. -/
theorem run_account {profile : Profile} {p : CompiledProfile} (hp : profile.compile = .ok p)
    (emitMap : Bool) (timestamp : String) {sources : List SourceModule}
    (hparse : ∀ s ∈ sources, (Program.parse? s.text s.dialect).isSome = true)
    (failed : List FailedModule) :
    ∃ modules results merged outcome, Stages p emitMap timestamp sources modules results merged ∧
      (sources ≠ [] → run p emitMap timestamp sources failed = .ok outcome) ∧
      IsAccount sources (planModules p modules) (results.map Prod.fst)
        (runManifest merged (results.map Prod.fst)) outcome := by
  obtain ⟨modules, hread, hmodules⟩ := exists_read hparse
  obtain ⟨final, hsettled⟩ := exists_settled hp modules
  obtain ⟨results, merged, hstages, hresults, hmerges⟩ :=
    exists_stages hread hsettled emitMap timestamp
  have hconflict : (runManifest merged (results.map Prod.fst)).conflict? = none := by
    rw [conflict?_runManifest]
    exact hmerges.records.conflict?_eq_none hsettled.consistent
  obtain ⟨hundisputed, hsizes, hmanifest⟩ :=
    report_conclude p (Path.sortBy SourceModule.path sources) hstages.merged rfl hconflict failed
  have hpaths := map_path_outputs hmodules hresults
  have hsavings : (runManifest merged (results.map Prod.fst)).savings =
      totalSavings (results.map Prod.fst) := (savings_runManifest _ _).trans hmerges.savings
  refine ⟨modules, results, merged, _, hstages,
    fun hsources => hstages.run_eq (hmodules.isEmpty_eq hsources) failed, ?_⟩
  constructor
  · exact hconflict
  · exact hsettled.accounts (hmerges.records.runManifest _)
  · exact hsavings
  · unfold runManifest
    split_ifs
    · rfl
    · exact hmerges.modules
  · rw [hpaths]
    exact (List.mergeSort_perm _ _).map _
  · rw [hpaths, List.pairwise_map]
    exact Path.pairwise_sortBy SourceModule.path sources
  · exact fun note hnote => hundisputed.code_ne hnote
  · rw [hsavings]
    exact hsizes
  · exact hmanifest

/-- Two modules that share a name, given in the order that is not the one of their paths. -/
theorem run_account_shared :
    ∃ p, Profile.balanced.compile = .ok p ∧ ∃ modules results merged outcome,
      Stages p false "t" [⟨⟨"b.js"⟩, "const count=1;count;", {}⟩, ⟨⟨"a.js"⟩, "let count=2;", {}⟩]
        modules results merged ∧
      run p false "t" [⟨⟨"b.js"⟩, "const count=1;count;", {}⟩, ⟨⟨"a.js"⟩, "let count=2;", {}⟩] [] =
        .ok outcome ∧
      IsAccount [⟨⟨"b.js"⟩, "const count=1;count;", {}⟩, ⟨⟨"a.js"⟩, "let count=2;", {}⟩]
        (planModules p modules) (results.map Prod.fst) (runManifest merged (results.map Prod.fst))
        outcome := by
  obtain ⟨p, hp⟩ := Profile.exists_compile_balanced
  have hparse : ∀ s ∈ [(⟨⟨"b.js"⟩, "const count=1;count;", {}⟩ : SourceModule),
      ⟨⟨"a.js"⟩, "let count=2;", {}⟩], (Program.parse? s.text s.dialect).isSome = true := by
    decide +kernel
  obtain ⟨modules, results, merged, outcome, hstages, hrun, haccount⟩ :=
    run_account hp false "t" hparse []
  exact ⟨p, hp, modules, results, merged, outcome, hstages, hrun (List.cons_ne_nil _ _), haccount⟩

end Abridge
