import Abridge.Proofs.Assignment
import Abridge.Proofs.Declaration
import Abridge.Proofs.Record
import Abridge.Run.Basic

/-!
# The plans and manifests of a run

A run plans all of its modules against one planner and then records each plan in a manifest of its own.
What the last planner knows makes all of these manifests fit together: a key that occurs in several of
them stands for the same thing in each (`Settled.consistent`), so every recording and every merge goes
through.

A literal is known to the planner by its identity, and to a manifest by its value.  The two agree
because only finite numbers are hoisted, and those are determined by their text.

## What is here

* `Settled`: how the plans of a run and its last planner belong together.
* `ReadModule.shorten_eq`: a module whose new program exists is shortened, and its manifest records its
  plan.
* `mergeAll_eq`: the manifests of a run merge without a conflict.
-/

set_option autoImplicit false

namespace Abridge

/-! ## Hoisted values -/

namespace LiteralTable

theorem value_mem_record {value : Literal} {site : Nat} {e : LiteralEntry} :
    ∀ {table : LiteralTable}, e ∈ table.record value site →
      e.value = value ∨ ∃ e' ∈ table, e.value = e'.value
  | [], he => .inl (by rw [List.mem_singleton.1 he])
  | x :: table, he => by
    rw [record] at he
    split at he
    · rcases List.mem_cons.1 he with rfl | he
      · exact .inr ⟨x, List.mem_cons_self, rfl⟩
      · exact .inr ⟨e, List.mem_cons_of_mem _ he, rfl⟩
    · rcases List.mem_cons.1 he with rfl | he
      · exact .inr ⟨e, List.mem_cons_self, rfl⟩
      · refine (value_mem_record he).imp_right ?_
        rintro ⟨e', he', hvalue⟩
        exact ⟨e', List.mem_cons_of_mem _ he', hvalue⟩

theorem value_mem_foldl_record {e : LiteralEntry} :
    ∀ {found : List (Literal × Nat)} {table : LiteralTable},
      e ∈ found.foldl (fun table x => record x.1 x.2 table) table →
      (∃ x ∈ found, e.value = x.1) ∨ ∃ e' ∈ table, e.value = e'.value
  | [], _, he => .inr ⟨e, he, rfl⟩
  | x :: found, table, he => by
    rw [List.foldl_cons] at he
    rcases value_mem_foldl_record he with ⟨y, hy, hvalue⟩ | ⟨e', he', hvalue⟩
    · exact .inl ⟨y, List.mem_cons_of_mem _ hy, hvalue⟩
    · rcases value_mem_record he' with heq | ⟨e'', he'', heq⟩
      · exact .inl ⟨x, List.mem_cons_self, hvalue.trans heq⟩
      · exact .inr ⟨e'', he'', hvalue.trans heq⟩

end LiteralTable

/-- A literal table holds values that the profile admits. -/
theorem Program.admits_of_mem_literalTable {p : Program} {profile : Profile} {e : LiteralEntry}
    (he : e ∈ p.literalTable profile) : profile.admits e.value = true := by
  obtain ⟨e', he', rfl⟩ := List.mem_map.1 he
  rcases LiteralTable.value_mem_foldl_record he' with ⟨x, hx, hvalue⟩ | ⟨e'', he'', -⟩
  · change profile.admits e'.value = true
    rw [hvalue]
    exact (List.mem_filter.1 hx).2
  · exact absurd he'' List.not_mem_nil

/-- With hoisting off no entry is hoisted. -/
theorem Program.hoist_eq_false {p : Program} {profile : Profile} (hoff : profile.hoistLiterals = false)
    {e : LiteralEntry} (he : e ∈ p.literalTable profile) : e.hoist = false := by
  obtain ⟨e', -, rfl⟩ := List.mem_map.1 he
  simp [hoff]

/-! ## Plans -/

/-- The analysis of a module of a run. -/
def ReadModule.analysis (m : ReadModule) (p : CompiledProfile) : Analysis :=
  m.program.analyse m.source.dialect p.profile

/-- The names that the modules of a run spell. -/
def spelled (modules : List ReadModule) : List String :=
  modules.flatMap fun m => (m.program.survey m.source.dialect).namesInUse

/-- `final` knows the keys of all plans of a run over the modules, and they are sound. -/
structure Settled (p : CompiledProfile) (modules : List ReadModule) (final : Planner) : Prop where
  sound : Planner.Sound (spelled modules) final
  plans : List.Forall₂ (fun m plan => Planner.Planned p final (m.analysis p) plan) modules
    (planModules p modules)

/-- Every run with a checked profile is settled. -/
theorem exists_settled {profile : Profile} {p : CompiledProfile} (hp : profile.compile = .ok p)
    (modules : List ReadModule) : ∃ final, Settled p modules final := by
  obtain ⟨final, hgrows, hplans⟩ := Planner.planAll_final (Profile.leadsUsable_of_compile hp)
    (modules.map fun m => m.analysis p)
    (Planner.sound_start (modules.map fun m => m.analysis p))
  refine ⟨final, ?_, List.forall₂_map_left_iff.1 hplans⟩
  have hsound := hgrows.sound
  rwa [List.flatMap_map] at hsound

theorem length_planModules (p : CompiledProfile) (modules : List ReadModule) :
    (planModules p modules).length = modules.length := by
  rw [planModules, Planner.planRun, Planner.length_planAll, List.length_map]

/-- What holds of every plan of a run of one module holds of its one plan. -/
theorem exists_plan_of_all {p : CompiledProfile} {m : ReadModule} {f : ModulePlan → Bool}
    (h : (planModules p [m]).all f = true) : ∃ plan, planModules p [m] = [plan] ∧ f plan = true := by
  obtain ⟨plan, hplan⟩ := List.length_eq_one_iff.1 (length_planModules p [m])
  exact ⟨plan, hplan, List.all_eq_true.1 h plan (by rw [hplan]; exact List.mem_singleton.2 rfl)⟩

/-- What a plan of a module hoists comes from the literal table of the module. -/
theorem Planner.Planned.exists_entry {p : CompiledProfile} {final : Planner} {a : Analysis}
    {plan : ModulePlan} (h : Planner.Planned p final a plan) {x : String × Literal}
    (hx : x ∈ plan.hoisted) : ∃ e ∈ a.literals, e.hoist = true ∧ e.value = x.2 := by
  obtain ⟨pairs, hentries, hhoisted, -⟩ := h.hoists
  rw [hhoisted] at hx
  obtain ⟨y, hy, rfl⟩ := List.mem_map.1 hx
  have hmem := List.mem_map_of_mem (f := Prod.snd) hy
  rw [hentries] at hmem
  exact ⟨y.2, (List.mem_filter.1 hmem).1, (List.mem_filter.1 hmem).2, rfl⟩

theorem Planner.Planned.isFinite {p : CompiledProfile} {final : Planner} {m : ReadModule}
    {plan : ModulePlan} (h : Planner.Planned p final (m.analysis p) plan) {x : String × Literal}
    (hx : x ∈ plan.hoisted) : x.2.isFinite = true := by
  obtain ⟨e, he, -, hvalue⟩ := h.exists_entry hx
  rw [← hvalue]
  exact Profile.isFinite_of_admits (Program.admits_of_mem_literalTable he)

/-- With hoisting off a plan leaves literals alone. -/
theorem Planner.Planned.hoisted_eq_nil {p : CompiledProfile} {final : Planner} {m : ReadModule}
    {plan : ModulePlan} (h : Planner.Planned p final (m.analysis p) plan)
    (hoff : p.profile.hoistLiterals = false) : plan.hoisted = [] ∧ plan.sites = [] := by
  obtain ⟨pairs, hentries, hhoisted, hsites⟩ := h.hoists
  have hnone : (m.analysis p).literals.filter LiteralEntry.hoist = [] := by
    rw [List.filter_eq_nil_iff]
    intro e he
    rw [Program.hoist_eq_false hoff he]
    exact Bool.false_ne_true
  rw [hnone, List.map_eq_nil_iff] at hentries
  subst hentries
  exact ⟨hhoisted, hsites⟩

namespace Settled

variable {p : CompiledProfile} {modules : List ReadModule} {final : Planner}

/-- Every module has the plan that was made for it. -/
theorem planned (h : Settled p modules final) {m : ReadModule} {plan : ModulePlan}
    (hx : (m, plan) ∈ modules.zip (planModules p modules)) :
    Planner.Planned p final (m.analysis p) plan :=
  (List.forall₂_iff_zip.1 h.plans).2 hx

/-- Every plan of the run is the plan of one of its modules. -/
theorem exists_module (h : Settled p modules final) {plan : ModulePlan}
    (hplan : plan ∈ planModules p modules) :
    ∃ m ∈ modules, Planner.Planned p final (m.analysis p) plan := by
  obtain ⟨i, hi, rfl⟩ := List.getElem_of_mem hplan
  have hi' : i < modules.length := by rwa [h.plans.length_eq]
  exact ⟨modules[i], List.getElem_mem hi', (List.forall₂_iff_get.1 h.plans).2 i hi' hi⟩

/-- What is renamed in a run has its key in the last planner. -/
theorem mem_renamings (h : Settled p modules final) {r : Renaming}
    (hr : r ∈ (planModules p modules).flatMap ModulePlan.renamings) :
    r ∈ final.classifier.renamings ∧ (Thing.name r.name, r.shortName) ∈ final.assigned := by
  obtain ⟨plan, hplan, hr⟩ := List.mem_flatMap.1 hr
  obtain ⟨m, -, hplanned⟩ := h.exists_module hplan
  have hmem := hplanned.agrees.renamings hr
  exact ⟨hmem, List.mem_append_left _ (List.mem_map_of_mem (f := Renaming.assigned) hmem)⟩

/-- What is hoisted in a run has its key in the last planner. -/
theorem mem_hoisted (h : Settled p modules final) {x : String × Literal}
    (hx : x ∈ (planModules p modules).flatMap ModulePlan.hoisted) :
    x.2.isFinite = true ∧ (Thing.literal x.2.identity, x.1) ∈ final.assigned := by
  obtain ⟨plan, hplan, hx⟩ := List.mem_flatMap.1 hx
  obtain ⟨m, -, hplanned⟩ := h.exists_module hplan
  refine ⟨hplanned.isFinite hx, hplanned.agrees.assigned (List.mem_append_right _ ?_)⟩
  exact List.mem_map_of_mem
    (f := fun e : String × Literal => (Thing.literal e.2.identity, e.1)) hx

/-- **No key of a run stands for two things**, whichever of its modules use it. -/
theorem consistent (h : Settled p modules final) :
    Consistent ((planModules p modules).flatMap ModulePlan.renamings)
      ((planModules p modules).flatMap ModulePlan.hoisted) := by
  constructor
  · intro r hr r' hr' hkey
    obtain ⟨hmem, hassigned⟩ := h.mem_renamings hr
    obtain ⟨hmem', hassigned'⟩ := h.mem_renamings hr'
    have hthing := (h.sound.key_eq_iff hassigned hassigned').1 hkey
    rw [h.sound.renaming_eq hmem hmem' (Thing.name.inj hthing)]
  · intro x hx x' hx' hkey
    obtain ⟨hfinite, hassigned⟩ := h.mem_hoisted hx
    obtain ⟨hfinite', hassigned'⟩ := h.mem_hoisted hx'
    have hthing := (h.sound.key_eq_iff hassigned hassigned').1 hkey
    exact Prod.ext hkey (Literal.identity_injective hfinite hfinite' (Thing.literal.inj hthing))
  · intro r hr x hx hkey
    have hthing := (h.sound.key_eq_iff (h.mem_renamings hr).2 (h.mem_hoisted hx).2).1 hkey
    cases hthing

/-- **No thing has two keys in a run.** -/
theorem key_eq (h : Settled p modules final) :
    (∀ r ∈ (planModules p modules).flatMap ModulePlan.renamings,
      ∀ r' ∈ (planModules p modules).flatMap ModulePlan.renamings,
        r.name = r'.name → r.shortName = r'.shortName) ∧
    ∀ x ∈ (planModules p modules).flatMap ModulePlan.hoisted,
      ∀ x' ∈ (planModules p modules).flatMap ModulePlan.hoisted, x.2 = x'.2 → x.1 = x'.1 := by
  constructor
  · intro r hr r' hr' hname
    rw [h.sound.renaming_eq (h.mem_renamings hr).1 (h.mem_renamings hr').1 hname]
  · intro x hx x' hx' hvalue
    refine (h.sound.key_eq_iff (h.mem_hoisted hx).2 (h.mem_hoisted hx').2).2 ?_
    rw [hvalue]

/-- The keys that a plan declares can be declared. -/
theorem isKey (h : Settled p modules final) {x : String × Literal}
    (hx : x ∈ (planModules p modules).flatMap ModulePlan.hoisted) : Parse.IsKey x.1 := by
  obtain ⟨-, hfree, hword⟩ := h.sound.fresh _ (h.sound.taken _ (h.mem_hoisted hx).2)
  exact ⟨hword, hfree⟩

/-- **The program of a module under its plan exists**: the declaration of what is hoisted is well
formed in every dialect. -/
theorem exists_rewrite (h : Settled p modules final) {m : ReadModule} {plan : ModulePlan}
    (hx : (m, plan) ∈ modules.zip (planModules p modules)) :
    ∃ program, m.rewrite plan = some program := by
  cases hhoisted : plan.hoisted with
  | nil => exact ⟨_, by rw [ReadModule.rewrite, hhoisted]; rfl⟩
  | cons e entries =>
    have hmem : ∀ x ∈ plan.hoisted, x ∈ (planModules p modules).flatMap ModulePlan.hoisted :=
      fun x hx' => List.mem_flatMap.2 ⟨plan, (List.of_mem_zip hx).2, hx'⟩
    obtain ⟨ts, hrewrite, -⟩ := Program.hoist_eq
      (fun x hx' => ⟨h.isKey (hmem x hx'), (h.mem_hoisted (hmem x hx')).1⟩)
      (by rw [hhoisted]; exact List.cons_ne_nil _ _) (m.program.apply plan) m.source.dialect
    exact ⟨_, hrewrite⟩

end Settled

/-! ## Shortened modules -/

/-- A shortened module with the manifest of its plan. -/
structure Shortened (plan : ModulePlan) (result : ModuleOutput × Manifest) : Prop where
  records : result.2.Records plan.renamings plan.hoisted
  modules : result.2.modules = [result.1.account]
  savings : result.2.savings = result.1.account.savings

/-- **A module whose new program exists is shortened.** -/
theorem ReadModule.shorten_eq {m : ReadModule} {plan : ModulePlan} {program : Program}
    (hc : Consistent plan.renamings plan.hoisted) (hprogram : m.rewrite plan = some program)
    (timestamp : String) (emitMap : Bool) :
    ∃ manifest, m.shorten plan timestamp emitMap = .ok (m.output plan program emitMap, manifest) ∧
      Shortened plan (m.output plan program emitMap, manifest) := by
  obtain ⟨manifest, hmanifest, hrecords, hmodules, hsavings⟩ :=
    Manifest.ofModule_eq hc timestamp [(m.output plan program emitMap).account]
      (m.output plan program emitMap).account.savings
  refine ⟨manifest, ?_, hrecords, hmodules, hsavings⟩
  simp only [shorten, hprogram, hmanifest]

/-- Where every step succeeds, all of them together do. -/
theorem exists_mapM_eq_ok {ε α β : Type} {f : α → Except ε β} {rel : α → β → Prop} :
    ∀ {xs : List α}, (∀ x ∈ xs, ∃ y, f x = .ok y ∧ rel x y) →
      ∃ ys, xs.mapM f = .ok ys ∧ List.Forall₂ rel xs ys
  | [], _ => ⟨[], rfl, .nil⟩
  | x :: xs, h => by
    obtain ⟨y, hy, hrel⟩ := h x List.mem_cons_self
    obtain ⟨ys, hys, hrels⟩ := exists_mapM_eq_ok fun z hz => h z (List.mem_cons_of_mem _ hz)
    refine ⟨y :: ys, ?_, .cons hrel hrels⟩
    rw [List.mapM_cons, hy, hys]
    rfl

/-! ## The manifest of a run -/

/-- The savings of shortened modules together. -/
def totalSavings (outputs : List ModuleOutput) : Savings :=
  .ofSizes (outputs.map fun o => o.before.utf8ByteSize).sum
    (outputs.map fun o => o.after.utf8ByteSize).sum (outputs.map ModuleOutput.substitutions).sum

theorem totalSavings_append (outputs outputs' : List ModuleOutput) :
    totalSavings (outputs ++ outputs') = (totalSavings outputs).add (totalSavings outputs') := by
  simp [totalSavings, Savings.add, Savings.ofSizes]

/-- What the manifest of a run is after some of its modules. -/
structure Manifest.Merges (m : Manifest) (plans : List ModulePlan) (outputs : List ModuleOutput) :
    Prop where
  records : m.Records (plans.flatMap ModulePlan.renamings) (plans.flatMap ModulePlan.hoisted)
  modules : m.modules = outputs.map ModuleOutput.account
  savings : m.savings = totalSavings outputs

/-- Merging one more module. -/
theorem Manifest.Merges.step {m : Manifest} {plans : List ModulePlan} {outputs : List ModuleOutput}
    (hm : m.Merges plans outputs) {plan : ModulePlan} {result : ModuleOutput × Manifest}
    (hresult : Shortened plan result)
    (hc : Consistent ((plans ++ [plan]).flatMap ModulePlan.renamings)
      ((plans ++ [plan]).flatMap ModulePlan.hoisted)) (review : Review) :
    ∃ m', mergeManifests (m, review) result.2 = (m', review) ∧
      m'.Merges (plans ++ [plan]) (outputs ++ [result.1]) := by
  rw [List.flatMap_append, List.flatMap_append, List.flatMap_singleton, List.flatMap_singleton] at hc
  obtain ⟨m', hmerge, hrecords, hsavings, hmodules⟩ :=
    Manifest.merge_eq hm.records hresult.records hc
  refine ⟨m', by simp only [mergeManifests, hmerge], ?_, ?_, ?_⟩
  · rwa [List.flatMap_append, List.flatMap_append, List.flatMap_singleton, List.flatMap_singleton]
  · rw [hmodules, hm.modules, hresult.modules, List.map_append, List.map_singleton]
  · rw [hsavings, hm.savings, hresult.savings, totalSavings_append]
    simp [totalSavings, ModuleOutput.account, ModuleRecord.savings]

theorem foldl_mergeManifests_eq {review : Review} :
    ∀ {plans : List ModulePlan} {results : List (ModuleOutput × Manifest)}
      {done : List ModulePlan} {outputs : List ModuleOutput} {m : Manifest},
      m.Merges done outputs → List.Forall₂ Shortened plans results →
      Consistent ((done ++ plans).flatMap ModulePlan.renamings)
        ((done ++ plans).flatMap ModulePlan.hoisted) →
      ∃ m', (results.map Prod.snd).foldl mergeManifests (m, review) = (m', review) ∧
        m'.Merges (done ++ plans) (outputs ++ results.map Prod.fst)
  | _, _, done, outputs, m, hm, .nil, _ => ⟨m, rfl, by simpa using hm⟩
  | plan :: plans, result :: results, done, outputs, m, hm, .cons hresult hrest, hc => by
    have hassoc : done ++ plan :: plans = (done ++ [plan]) ++ plans := by simp
    rw [hassoc] at hc ⊢
    obtain ⟨m₁, hstep, hm₁⟩ := hm.step hresult
      (hc.mono (by simp [List.flatMap_append]) (by simp [List.flatMap_append])) review
    obtain ⟨m', hfold, hm'⟩ := foldl_mergeManifests_eq hm₁ hrest hc
    refine ⟨m', by rw [List.map_cons, List.foldl_cons, hstep, hfold], ?_⟩
    simpa using hm'

/-- **The manifests of a run merge without a conflict**, into one that records all plans. -/
theorem mergeAll_eq {plans : List ModulePlan} {results : List (ModuleOutput × Manifest)}
    (hresults : List.Forall₂ Shortened plans results)
    (hc : Consistent (plans.flatMap ModulePlan.renamings) (plans.flatMap ModulePlan.hoisted))
    (timestamp : String) :
    ∃ m, mergeAll timestamp (results.map Prod.snd) = (m, {}) ∧
      m.Merges plans (results.map Prod.fst) := by
  have hempty : Manifest.Merges { timestamp } [] [] := ⟨Manifest.records_empty timestamp, rfl, rfl⟩
  exact foldl_mergeManifests_eq hempty hresults hc

/-! ## The stages of a run -/

/-- The stages of a run: the modules that were read, what was made of each of them under its plan, and
the manifest that their manifests merged into, without a conflict. -/
structure Stages (p : CompiledProfile) (emitMap : Bool) (timestamp : String)
    (sources : List SourceModule) (modules : List ReadModule)
    (results : List (ModuleOutput × Manifest)) (merged : Manifest) : Prop where
  read : (Path.sortBy SourceModule.path sources).mapM SourceModule.read = .ok modules
  shortened : (modules.zip (planModules p modules)).mapM
    (fun (m, plan) => m.shorten plan timestamp emitMap) = .ok results
  merged : mergeAll timestamp (results.map Prod.snd) = (merged, {})

/-- The modules that were read, each with the program of its text. -/
structure AreRead (sources : List SourceModule) (modules : List ReadModule) : Prop where
  sources : modules.map ReadModule.source = Path.sortBy SourceModule.path sources
  programs : ∀ m ∈ modules, Program.parse? m.source.text m.source.dialect = some m.program

/-- Modules that all parse are read, in the order of their paths. -/
theorem exists_read {sources : List SourceModule}
    (hparse : ∀ s ∈ sources, (Program.parse? s.text s.dialect).isSome = true) :
    ∃ modules, (Path.sortBy SourceModule.path sources).mapM SourceModule.read = .ok modules ∧
      AreRead sources modules := by
  obtain ⟨modules, hread, hmodules⟩ : ∃ modules,
      (Path.sortBy SourceModule.path sources).mapM SourceModule.read = .ok modules ∧
      List.Forall₂ (fun s m => m.source = s ∧ Program.parse? s.text s.dialect = some m.program)
        (Path.sortBy SourceModule.path sources) modules := by
    refine exists_mapM_eq_ok fun s hs => ?_
    obtain ⟨program, hprogram⟩ := Option.isSome_iff_exists.1 (hparse s (List.mem_mergeSort.1 hs))
    exact ⟨⟨s, program⟩, by rw [SourceModule.read, hprogram], rfl, hprogram⟩
  refine ⟨modules, hread, ?_⟩
  have hsources : modules.map ReadModule.source = Path.sortBy SourceModule.path sources := by
    rw [← List.forall₂_eq_eq_eq, List.forall₂_map_left_iff]
    exact hmodules.flip.imp fun _ _ h => h.1
  refine ⟨hsources, fun m hm => ?_⟩
  obtain ⟨i, hi, rfl⟩ := List.getElem_of_mem hm
  obtain ⟨hsource, hprogram⟩ := (List.forall₂_iff_get.1 hmodules).2 i (hmodules.length_eq ▸ hi) hi
  rwa [← hsource] at hprogram

/-- What a run makes of a module under its plan. -/
def IsResult (emitMap : Bool) (x : ReadModule × ModulePlan) (result : ModuleOutput × Manifest) :
    Prop :=
  ∃ program, x.1.rewrite x.2 = some program ∧ result.1 = x.1.output x.2 program emitMap

/-- **A run over modules that were read goes through all of its stages**, and its manifest records all
of its plans. -/
theorem exists_stages {p : CompiledProfile} {sources : List SourceModule}
    {modules : List ReadModule} {final : Planner}
    (hread : (Path.sortBy SourceModule.path sources).mapM SourceModule.read = .ok modules)
    (hsettled : Settled p modules final) (emitMap : Bool) (timestamp : String) :
    ∃ results merged, Stages p emitMap timestamp sources modules results merged ∧
      List.Forall₂ (IsResult emitMap) (modules.zip (planModules p modules)) results ∧
      merged.Merges (planModules p modules) (results.map Prod.fst) := by
  have hc := hsettled.consistent
  obtain ⟨results, hresults, hall⟩ : ∃ results, (modules.zip (planModules p modules)).mapM
      (fun x => x.1.shorten x.2 timestamp emitMap) = .ok results ∧
      List.Forall₂ (fun x r => IsResult emitMap x r ∧ Shortened x.2 r)
        (modules.zip (planModules p modules)) results := by
    refine exists_mapM_eq_ok ?_
    rintro ⟨m, plan⟩ hx
    obtain ⟨program, hprogram⟩ := hsettled.exists_rewrite hx
    have hplan : plan ∈ planModules p modules := (List.of_mem_zip hx).2
    have hin : Consistent plan.renamings plan.hoisted :=
      hc.mono (fun r hr => List.mem_flatMap.2 ⟨plan, hplan, hr⟩)
        (fun e he => List.mem_flatMap.2 ⟨plan, hplan, he⟩)
    obtain ⟨manifest, heq, hshortened⟩ := ReadModule.shorten_eq hin hprogram timestamp emitMap
    exact ⟨_, heq, ⟨program, hprogram, rfl⟩, hshortened⟩
  have hplans : List.Forall₂ Shortened (planModules p modules) results := by
    have hsnd : (modules.zip (planModules p modules)).map Prod.snd = planModules p modules :=
      List.map_snd_zip (by rw [length_planModules])
    rw [← hsnd, List.forall₂_map_left_iff]
    exact hall.imp fun _ _ h => h.2
  obtain ⟨merged, hmerged, hmerges⟩ := mergeAll_eq hplans hc timestamp
  exact ⟨results, merged, ⟨hread, hresults, hmerged⟩, hall.imp fun _ _ h => h.1, hmerges⟩

end Abridge
