import Abridge.Proofs.Acceptance
import Abridge.Proofs.Settling

/-!
# What an accepted run writes

An accepted run has copied its modules aside, put its artifacts in their places, and settled its backups.
What is left of all this is the artifacts (`Disk.shorten_accepted`), if no module is found by way of the place
of an artifact.  A module that is a link to such a place has changed when its backup is settled; the old text
is put back, and the artifact is lost though the run was accepted (`Disk.artifact_overwritten`).

## What is here

* `Disk.shorten_eq_accepted_iff`: the steps of an accepted run.
* `Disk.modules_of_run`: the modules of an accepted run.
* `Disk.shorten_accepted`: its effect on the disk.
-/

set_option autoImplicit false

namespace Abridge

open Output (usual artifactNames)

namespace Disk

/-! ## Accepted runs -/

/-- **How a run is accepted**: its profile passes the checks, its modules are found and loaded, the run over
them is accepted, everything is written, and the backups are settled. -/
theorem shorten_eq_accepted_iff {disk disk' : Disk} {profile : Profile} {o : Output} {timestamp : String}
    {target : Path} {modules : List ModuleOutput} {manifest : Manifest} {report : Report} :
    disk.shorten profile o timestamp target = (disk', .ok (.accepted modules manifest report)) ↔
      ∃ p paths copied loaded written, profile.compile = .ok p ∧
        disk.locate ⟨o.optimizedSuffix, o.backupSuffix⟩ target = .ok paths ∧
        disk.loadModules o.backupSuffix (disk.isDirectory target) {} paths = (copied, loaded, none) ∧
        run p o.emitPositionMap timestamp loaded.modules loaded.failed =
          .ok (.accepted modules manifest report) ∧
        copied.commit (disk.artifactsOf o target modules manifest) = (written, none) ∧
        Backup.settleAll written o.keepBackup loaded.backups = (disk', none) := by
  constructor
  · intro h
    rw [shorten, shortenOn] at h
    split at h
    · cases h
    rename_i p hp
    split at h
    · cases h
    rename_i paths hlocate
    dsimp only at h
    split at h
    · split at h <;> cases h
    rename_i copied loaded hload
    cases hrun : run p o.emitPositionMap timestamp loaded.modules loaded.failed with
    | error e =>
      rw [hrun, commitOutcome, finish] at h
      cases h
    | ok outcome =>
      rw [hrun] at h
      cases outcome with
      | rejected sources report' =>
        rw [commitOutcome, finish] at h
        dsimp only at h
        split at h <;> cases h
      | accepted modules' manifest' report' =>
        rw [commitOutcome] at h
        cases hcommit : copied.commit (disk.artifactsOf o target modules' manifest') with
        | mk written failure =>
          rw [artifactsOf] at hcommit
          rw [hcommit] at h
          cases failure with
          | some e =>
            rw [finish] at h
            cases h
          | none =>
            dsimp only at h
            rw [finish] at h
            cases hsettle : Backup.settleAll written o.keepBackup loaded.backups with
            | mk settled unsettled =>
              rw [hsettle] at h
              cases unsettled with
              | some e => cases h
              | none =>
                cases h
                exact ⟨p, paths, copied, loaded, written, hp, hlocate, hload, hrun, hcommit, hsettle⟩
  · rintro ⟨p, paths, copied, loaded, written, hp, hlocate, hload, hrun, hcommit, hsettle⟩
    rw [artifactsOf] at hcommit
    rw [shorten, shortenOn, hp]
    dsimp only
    rw [hlocate]
    dsimp only
    rw [← loadModules, hload]
    dsimp only
    rw [hrun, commitOutcome, hcommit]
    dsimp only
    rw [finish, hsettle]

end Disk

/-- Modules that are read all parse. -/
theorem isSome_of_mapM_read : ∀ {sources : List SourceModule} {modules : List ReadModule},
    sources.mapM SourceModule.read = .ok modules →
      ∀ s ∈ sources, (Program.parse? s.text s.dialect).isSome = true := by
  intro sources
  induction sources with
  | nil => exact fun _ _ hs => absurd hs List.not_mem_nil
  | cons s sources ih =>
    intro modules h
    rw [List.mapM_cons] at h
    cases hparse : Program.parse? s.text s.dialect with
    | none => rw [SourceModule.read, hparse] at h; cases h
    | some program =>
      rw [SourceModule.read, hparse] at h
      cases hrest : sources.mapM SourceModule.read with
      | error e => rw [hrest] at h; cases h
      | ok rest => exact List.forall_mem_cons.2 ⟨by rw [hparse]; rfl, ih hrest⟩

/-- The modules of an accepted run are the modules that went into it, in the order of their paths. -/
theorem map_source_of_run {profile : Profile} {p : CompiledProfile} (hp : profile.compile = .ok p)
    {emitMap : Bool} {timestamp : String} {sources : List SourceModule} {failed : List FailedModule}
    {modules : List ModuleOutput} {manifest : Manifest} {report : Report}
    (hrun : run p emitMap timestamp sources failed = .ok (.accepted modules manifest report)) :
    modules.map ModuleOutput.source = Path.sortBy SourceModule.path sources := by
  have hparse : ∀ s ∈ sources, (Program.parse? s.text s.dialect).isSome = true := by
    cases hread : (Path.sortBy SourceModule.path sources).mapM SourceModule.read with
    | error e =>
      simp only [run, hread, bind, Except.bind] at hrun
      cases hrun
    | ok read => exact fun s hs => isSome_of_mapM_read hread s (List.mem_mergeSort.2 hs)
  obtain ⟨read, hread, hmodules⟩ := exists_read hparse
  obtain ⟨final, hsettled⟩ := exists_settled hp read
  obtain ⟨results, merged, hstages, hresults, -⟩ := exists_stages hread hsettled emitMap timestamp
  have hne : read.isEmpty = false := by
    cases hempty : read.isEmpty with
    | false => rfl
    | true =>
      simp only [run, hread, bind, Except.bind, hempty, if_true] at hrun
      cases hrun
  rw [hstages.run_eq hne failed, conclude] at hrun
  dsimp only at hrun
  split at hrun
  · obtain ⟨rfl, -, -⟩ := Outcome.accepted.inj (Except.ok.inj hrun)
    exact map_source_outputs hmodules hresults
  · cases hrun

namespace Disk

/-- Modules are loaded in order, some of them. -/
theorem sublist_of_loadModules {suffix : String} {goOn : Bool} {paths : List Path} :
    ∀ {disk disk' : Disk} {loaded loaded' : Loaded} {failure : Option Failure},
      disk.loadModules suffix goOn loaded paths = (disk', loaded', failure) →
      ∃ found, found.Sublist paths ∧
        loaded'.modules.map SourceModule.path = loaded.modules.map SourceModule.path ++ found := by
  induction paths with
  | nil =>
    intro disk disk' loaded loaded' failure h
    cases h
    exact ⟨[], .slnil, by simp⟩
  | cons p paths ih =>
    intro disk disk' loaded loaded' failure h
    cases hmodule : disk.loadModule suffix p with
    | mk next result =>
      cases result with
      | ok x =>
        obtain ⟨b, m⟩ := x
        rw [loadModules_cons_ok hmodule] at h
        obtain ⟨found, hfound, hpaths⟩ := ih h
        refine ⟨p :: found, hfound.cons_cons p, ?_⟩
        rw [hpaths, ← (loadModule_eq_ok hmodule).1]
        simp
      | error e =>
        rw [loadModules_cons_error hmodule] at h
        split at h
        · obtain ⟨found, hfound, hpaths⟩ := ih h
          exact ⟨found, hfound.cons p, hpaths⟩
        · cases h
          exact ⟨[], List.nil_sublist _, by simp⟩

/-- The modules of an accepted run are among those that were found, and no two of them have one path, step
by step. -/
theorem modules_of_run {disk copied : Disk} (htree : disk.IsTree) {target : Path} {paths : List Path}
    (hlocate : disk.locate {} target = .ok paths) {loaded : Loaded} {failure : Option Failure}
    (hload : disk.loadModules ".bak" (disk.isDirectory target) {} paths = (copied, loaded, failure))
    {profile : Profile} {p : CompiledProfile} (hp : profile.compile = .ok p) {emitMap : Bool}
    {timestamp : String} {modules : List ModuleOutput} {manifest : Manifest} {report : Report}
    (hrun : run p emitMap timestamp loaded.modules loaded.failed = .ok (.accepted modules manifest report)) :
    (∀ m ∈ modules, m.path ∈ paths) ∧
      (modules.Pairwise fun m m' => m.path.components ≠ m'.path.components) ∧
      (disk.isDirectory target = false → modules.length ≤ 1) := by
  obtain ⟨found, hfound, hloaded⟩ := sublist_of_loadModules hload
  rw [List.map_nil, List.nil_append] at hloaded
  have hsources := map_source_of_run hp hrun
  have hperm : (modules.map ModuleOutput.path).Perm found := by
    have hsorted : (Path.sortBy SourceModule.path loaded.modules).Perm loaded.modules :=
      List.mergeSort_perm _ _
    rw [← hsources] at hsorted
    have hpaths := hsorted.map SourceModule.path
    rwa [List.map_map, hloaded] at hpaths
  have hsingle : disk.isDirectory target = false → modules.length ≤ 1 := by
    intro hfile
    have hlength := hfound.length_le
    rwa [locate_file hlocate hfile, ← hperm.length_eq, List.length_map] at hlength
  refine ⟨fun m hm => hfound.subset (hperm.subset (List.mem_map_of_mem hm)), ?_, hsingle⟩
  cases hdirectory : disk.isDirectory target with
  | true =>
    obtain ⟨root, hroot⟩ := isDirectory_iff.1 hdirectory
    have hdistinct := (mem_locate_iff htree hroot hlocate).2.sublist hfound
    have hpairwise : (modules.map ModuleOutput.path).Pairwise fun p q => p.components ≠ q.components :=
      hdistinct.perm hperm.symm Ne.symm
    rwa [List.pairwise_map] at hpairwise
  | false =>
    match modules, hsingle hdirectory with
    | [], _ => exact List.Pairwise.nil
    | [_], _ => exact List.pairwise_singleton _ _

/-! ## The effect of an accepted run -/

theorem At.short_of_names {disk : Disk} {p : Path} {location place : Location} {name : String}
    (h : disk.At p location name) (hnames : disk.Names p place) : name.utf8ByteSize ≤ nameLimit := by
  obtain ⟨parent, other, haim, -⟩ := hnames
  by_contra hlong
  rw [h.aim_eq, if_pos (Nat.lt_of_not_le hlong)] at haim
  cases haim

/-- What an accepted run over modules writes can be found on the disk that has nothing where it goes, up to
its name. -/
theorem Puts.exists_at {disk disk' : Disk} (htree : disk.IsTree) {target : Path} {paths : List Path}
    (hlocate : disk.locate {} target = .ok paths) {modules : List ModuleOutput}
    (hmodules : ∀ m ∈ modules, m.path ∈ paths) {emitMap : Bool} {manifest : Manifest}
    {staged : List Artifact} (hstaged : disk.artifactsOf (usual emitMap) target modules manifest = staged)
    (hputs : disk.Puts disk' staged) (hfound : disk.FoundWithout paths staged) :
    ∀ a ∈ staged, ∃ location name, (disk.without (disk.places staged)).At a.path location name := by
  intro a ha
  have hkeeps := hputs.keeps
  rw [← hstaged, artifactsOf] at ha
  rcases mem_artifacts ha with ⟨m, hm, ha⟩ | hrun
  · obtain ⟨-, location, name, -, hat, -⟩ := htree.exists_at_of_mem_locate hlocate (hmodules m hm)
    obtain ⟨r, hr⟩ := hfound m.path (hmodules m hm)
    obtain ⟨n, -, hn⟩ := exists_at_of_mem_artifactsFor ha (hat.of_stat hkeeps.part.leads hr)
    exact ⟨location, n, hn⟩
  · split at hrun
    · rename_i hdirectory
      obtain ⟨root, hroot⟩ := isDirectory_iff.1 hdirectory
      obtain ⟨q, hq⟩ := List.exists_mem_of_ne_nil _ (locate_ne_nil hlocate)
      obtain ⟨r, hr⟩ := hfound q hq
      have hfinds := ((mem_locate_iff htree hroot hlocate).1 q).1 hq
      obtain ⟨htarget, -⟩ := hkeeps.finds htree hroot hfinds hr
      refine ⟨root, "optimization.manifest.json", ?_⟩
      rw [← Option.some_inj.1 hrun]
      exact (leadsTo_of_stat htarget).join Output.isName_runManifest
    · cases hrun

/-- **An accepted run adds its artifacts to the disk and does nothing else.**  It is about the modules that
its target stands for.  No two of its artifacts have one path, step by step.  When the modules can be found
without the artifacts, each artifact is in its place afterwards, and its path leads to it; every other location
has what it had, so that no copy is left; and the modules read as they did.  On a disk without links they can
always be found so. -/
theorem shorten_accepted {disk disk' : Disk} (htree : disk.IsTree) {profile : Profile} {emitMap : Bool}
    {timestamp : String} {target : Path} {modules : List ModuleOutput} {manifest : Manifest}
    {report : Report}
    (h : disk.shorten profile (usual emitMap) timestamp target =
      (disk', .ok (.accepted modules manifest report))) :
    ∃ paths, disk.locate {} target = .ok paths ∧ (∀ m ∈ modules, m.path ∈ paths) ∧
      ((disk.artifactsOf (usual emitMap) target modules manifest).Pairwise
        fun a b => a.path.components ≠ b.path.components) ∧
      ((∀ location link, disk.at? location ≠ some (.link link)) →
        disk.Clear paths (disk.artifactsOf (usual emitMap) target modules manifest)) ∧
      (disk.Clear paths (disk.artifactsOf (usual emitMap) target modules manifest) →
        disk.Gains disk' (disk.artifactsOf (usual emitMap) target modules manifest) ∧
          (∀ a ∈ disk.artifactsOf (usual emitMap) target modules manifest,
            disk'.read a.path = .ok a.text.toUTF8) ∧
          ∀ p ∈ paths, disk'.read p = disk.read p) := by
  obtain ⟨p, paths, copied, loaded, written, hp, hlocate, hload, hrun, hcommit, hsettle⟩ :=
    shorten_eq_accepted_iff.1 h
  obtain ⟨hmodules, hpaths, hsingle⟩ := modules_of_run htree hlocate hload hp hrun
  have hdistinct : (disk.artifactsOf (usual emitMap) target modules manifest).Pairwise
      fun a b => a.path.components ≠ b.path.components := by
    refine pairwise_artifacts hpaths (fun m hm => ?_) (fun hnone => ?_) (fun q hq => ?_) emitMap manifest
    · obtain ⟨-, location, name, -, ⟨directory, hin, -⟩, hmodule⟩ :=
        htree.exists_at_of_mem_locate hlocate (hmodules m hm)
      refine ⟨directory, name, hin, fun hsome => hmodule ?_⟩
      by_contra hfile
      exact hsome (if_neg hfile)
    · refine hsingle (Bool.eq_false_iff.2 fun hdirectory => ?_)
      rw [if_pos hdirectory] at hnone
      cases hnone
    · split at hq
      · obtain ⟨directory, hin, -⟩ := target.exists_isIn_join Output.isName_runManifest
        exact ⟨directory, Option.some_inj.1 hq ▸ hin⟩
      · cases hq
  refine ⟨paths, hlocate, hmodules, hdistinct, fun hlinks => ?_, fun hclear => ?_⟩
  · refine clear_of_linkless htree hlinks hlocate hmodules hdistinct fun place hplace => ?_
    obtain ⟨locations, hholds⟩ :=
      loadModules_holds (fun q hq => stat_of_mem_locate hlocate hq) (Holds.refl disk) hload
    obtain ⟨a, ha, hnames⟩ := mem_places.1 hplace
    obtain ⟨location, hlocation, hdirectory⟩ := (commit_puts hcommit).names a ha
    rw [(hholds.sameWays.names_iff.2 hnames).unique hlocation]
    exact mt hholds.sameWays.1.directory hdirectory
  · obtain ⟨after, hafter, hputs, hextends⟩ :=
      settleAll_of_commit htree hlocate hload hmodules rfl hclear.found hcommit
    have hsettle : Backup.settleAll written false loaded.backups = (disk', none) := hsettle
    rw [hafter] at hsettle
    cases hsettle
    have hgains := hputs.gains hclear.agree
    refine ⟨hgains, fun a ha => ?_, fun q hq => ?_⟩
    · obtain ⟨location, name, hname⟩ := hputs.exists_at htree hlocate hmodules rfl hclear.found a ha
      obtain ⟨place, hplace, -, hfile⟩ := hgains.written a ha
      have hbefore := hname.mono hputs.keeps.part.leads
      rw [hbefore.location_eq hplace] at hfile
      have hnames := (hname.mono hextends.leads).names (hbefore.short_of_names hplace)
      rw [read, hnames.stat_eq hfile]
    · obtain ⟨r, hr⟩ := hclear.found q hq
      rw [hextends.read hr, hputs.keeps.part.read hr]

end Disk

/-! ## A module that ends in a blank -/

/-- A module that ends in a blank, which goes. -/
def ReadModule.spaced (p : Path) : ReadModule where
  source := { path := p, text := "12345678; ", dialect := {} }
  program := padded.program

/-- What a run makes of it. -/
def ModuleOutput.unspaced (p : Path) : ModuleOutput where
  path := p
  dialect := {}
  before := "12345678; "
  after := "12345678;"
  positionMap := none
  substitutions := 0

/-- Its manifest. -/
def Manifest.ofUnspaced (p : Path) : Manifest where
  timestamp := "t"
  savings := (ModuleOutput.unspaced p).account.savings
  modules := [(ModuleOutput.unspaced p).account]

/-- The manifest of a run over it. -/
def Manifest.ofUnspacedRun : Manifest := { timestamp := "t", savings := .ofSizes 10 9 0 }

/-- What evaluation says about the module: how it is read and printed, what it saves, and that its shortened
text is what it should be. -/
theorem ReadModule.spaced_evaluates :
    (Program.parse? "12345678; " {} = some padded.program ∧
      Program.parse? "12345678;" {} = some padded.program ∧ padded.program.faults {} = 0) ∧
    (padded.program.print ({} : Dialect).jsx = "12345678;" ∧ padded.program.substitutions {} = 0) ∧
    (Savings.ofSizes "12345678; ".utf8ByteSize "12345678;".utf8ByteSize 0 = .ofSizes 10 9 0 ∧
      ({} : Savings).add (.ofSizes 10 9 0) = .ofSizes 10 9 0) ∧
    Double.lt Profile.bounded.maxReductionPercent
      (reductionPercent "12345678; ".utf8ByteSize "12345678;".utf8ByteSize) = false ∧
    Manifest.ofUnspacedRun.byteSize ≤ Profile.bounded.maxManifestBytes := by
  decide +kernel

theorem ReadModule.shorten_spaced (p : Path) :
    (spaced p).shorten {} "t" false = .ok (.unspaced p, .ofUnspaced p) := by
  obtain ⟨-, ⟨hprint, hsubstitutions⟩, -⟩ := spaced_evaluates
  have hrewrite : (spaced p).rewrite {} = some padded.program := rfl
  have houtput : (spaced p).output {} padded.program false = .unspaced p := by
    change ModuleOutput.mk p {} "12345678; " (padded.program.print ({} : Dialect).jsx) none
      (padded.program.substitutions {}) = _
    rw [hprint, hsubstitutions]
    rfl
  simp only [shorten, hrewrite, houtput]
  rfl

/-- A run over the module goes through its stages. -/
theorem stages_spaced (p : Path) : Stages .bounded false "t" [(ReadModule.spaced p).source] [.spaced p]
    [(.unspaced p, .ofUnspaced p)]
    { Manifest.ofUnspacedRun with modules := [(ModuleOutput.unspaced p).account] } := by
  obtain ⟨⟨hparse, -⟩, -, ⟨hsavings, hsum⟩, -⟩ := ReadModule.spaced_evaluates
  constructor
  · have hparse : Program.parse? (ReadModule.spaced p).source.text (ReadModule.spaced p).source.dialect =
        some ReadModule.padded.program := hparse
    simp only [Path.sortBy, List.mergeSort_singleton, List.mapM_cons, SourceModule.read, hparse]
    rfl
  · have hplans : planModules .bounded [ReadModule.spaced p] = [{}] := planModules_padded
    rw [hplans]
    change [(ReadModule.spaced p, ({} : ModulePlan))].mapM _ = _
    rw [List.mapM_cons]
    dsimp only
    rw [ReadModule.shorten_spaced]
    rfl
  · have hsavings : (ModuleOutput.unspaced p).account.savings = .ofSizes 10 9 0 := hsavings
    have hmerge : Manifest.merge { timestamp := "t" } (.ofUnspaced p) =
        ({ Manifest.ofUnspaced p with
          savings := ({} : Savings).add (ModuleOutput.unspaced p).account.savings }, none) := rfl
    rw [mergeAll, List.map_singleton, List.foldl_cons, List.foldl_nil, mergeManifests, hmerge, hsavings,
      hsum]
    rfl

/-- **A run over a module that ends in a blank is accepted**, wherever the module is. -/
theorem run_spaced (p : Path) :
    ∃ report, run .bounded false "t" [(ReadModule.spaced p).source] [] =
      .ok (.accepted [.unspaced p] .ofUnspacedRun report) := by
  obtain ⟨⟨-, hparse, hfaults⟩, -, -, hreduction, hsize⟩ := ReadModule.spaced_evaluates
  obtain ⟨report, hconclude, hpassed⟩ := (stages_spaced p).conclude_eq Profile.compile_bounded []
  have hsuccess : report.success = true := by
    refine hpassed.2 (List.forall_mem_singleton.2 ?_)
    exact ⟨hreduction, fun _ h => absurd h List.not_mem_nil, ⟨_, hparse, hfaults⟩, hsize, rfl⟩
  refine ⟨report, ?_⟩
  rw [(stages_spaced p).run_eq rfl, hconclude, if_pos hsuccess]
  rfl

namespace Disk

/-! ## A run over one module -/

theorem fromUTF8?_toUTF8 (text : String) : String.fromUTF8? text.toUTF8 = some text := by
  simp [String.fromUTF8?, String.fromUTF8, text.isValidUTF8]

/-- One module is loaded. -/
theorem loadModules_single {disk : Disk} {p : Path} {location : Location} {name text : String}
    (hat : disk.At p location name) (hread : disk.read p = .ok text.toUTF8)
    (hfree : disk.at? (location ++ [name ++ ".bak"]) = none)
    (hshort : (name ++ ".bak").utf8ByteSize ≤ nameLimit) (goOn : Bool) :
    disk.loadModules ".bak" goOn {} [p] =
      (disk.set (location ++ [name ++ ".bak"]) (.file text.toUTF8),
        { backups := [⟨p, p.append ".bak", fingerprint text.toUTF8⟩]
          modules := [⟨p, text, Dialect.ofPath p⟩] }, none) := by
  have hnames : disk.Names (p.append ".bak") (location ++ [name ++ ".bak"]) :=
    (hat.append (Output.isCopyName_append hat.isName).isName).names hshort
  have hcreate := Backup.create_of_free hread hnames hfree
  have htext : disk.readText p = .ok text := by
    rw [readText, hread]
    dsimp only
    rw [fromUTF8?_toUTF8]
  rcases loadModule_of_create hcreate with ⟨text', htext', hload⟩ | ⟨e, _, herror, -⟩
  · obtain rfl := Except.ok.inj (htext.symm.trans htext')
    rw [loadModules_cons_ok hload]
    rfl
  · cases htext.symm.trans herror

/-- What is loaded for it. -/
def blankLoaded (p : Path) : Loaded where
  backups := [⟨p, p.append ".bak", fingerprint "12345678; ".toUTF8⟩]
  modules := [⟨p, "12345678; ", {}⟩]

/-- A run over one module that ends in a blank gets as far as settling its backup, whatever manifests are
called. -/
theorem exists_shorten_spaced {disk : Disk} {o : Output} (hmap : o.emitPositionMap = false)
    (hkeep : o.keepBackup = false) (hsuffixes : o.optimizedSuffix = ".optimized" ∧ o.backupSuffix = ".bak")
    {target p : Path} {location : Location} {name : String}
    (hlocate : disk.locate {} target = .ok [p]) (hdialect : Dialect.ofPath p = {})
    (hat : disk.At p location name) (hread : disk.read p = .ok "12345678; ".toUTF8)
    (hfree : disk.at? (location ++ [name ++ ".bak"]) = none)
    (hshort : (name ++ ".bak").utf8ByteSize ≤ nameLimit)
    (hplace : ∀ a ∈ disk.artifactsOf o target [.unspaced p] .ofUnspacedRun,
      (∃ around, disk.openDirectory a.path.directory = .ok around) ∧
        ∃ place, disk.Names a.path place ∧ disk.Plain place) :
    ∃ written report,
      disk.loadModules ".bak" (disk.isDirectory target) {} [p] =
        (disk.set (location ++ [name ++ ".bak"]) (.file "12345678; ".toUTF8), blankLoaded p, none) ∧
      (disk.set (location ++ [name ++ ".bak"]) (.file "12345678; ".toUTF8)).commit
        (disk.artifactsOf o target [.unspaced p] .ofUnspacedRun) = (written, none) ∧
      ∀ {disk' : Disk}, Backup.settleAll written false (blankLoaded p).backups = (disk', none) →
        disk.shorten .bounded o "t" target =
          (disk', .ok (.accepted [.unspaced p] .ofUnspacedRun report)) := by
  have hload := loadModules_single hat hread hfree hshort (disk.isDirectory target)
  rw [hdialect] at hload
  obtain ⟨found, hstat⟩ := read_eq_ok hread
  obtain ⟨locations, hholds⟩ := loadModules_holds
    (fun q hq => ⟨_, List.mem_singleton.1 hq ▸ hstat⟩) (Holds.refl disk) hload
  have hways := hholds.sameWays
  obtain ⟨written, hcommit⟩ : ∃ written, (disk.set (location ++ [name ++ ".bak"])
      (.file "12345678; ".toUTF8)).commit
        (disk.artifactsOf o target [.unspaced p] .ofUnspacedRun) = (written, none) := by
    refine exists_commit (fun a ha => ?_) fun a ha => ?_
    · obtain ⟨⟨around, hopen⟩, -⟩ := hplace a ha
      exact ⟨around, hways.openDirectory hopen⟩
    · obtain ⟨-, place, hnames, hplain⟩ := hplace a ha
      refine ⟨place, hnames.mono hways.1, ?_⟩
      by_cases hmem : place ∈ locations
      · exact hholds.differs.plain place hmem
      · rwa [Plain, hholds.differs.off place hmem]
  obtain ⟨report, hrun⟩ := run_spaced p
  refine ⟨written, report, hload, hcommit, fun {disk'} hsettle => shorten_eq_accepted_iff.2
    ⟨_, [p], _, blankLoaded p, _, Profile.compile_bounded, ?_, ?_, ?_, hcommit, ?_⟩⟩
  · rw [hsuffixes.1, hsuffixes.2]
    exact hlocate
  · rw [hsuffixes.2]
    exact hload
  · rw [hmap]
    exact hrun
  · rw [hkeep]
    exact hsettle

theorem locate_of_stat {disk : Disk} {p : Path} {location : Location} {contents : ByteArray}
    (hstat : disk.stat p = .ok (location, .file contents)) :
    disk.locate {} p = .ok [p] ∧ disk.isDirectory p = false := by
  rw [locate, isDirectory, hstat]
  exact ⟨rfl, rfl⟩

/-- What a run of `a.js` writes when the module ends in a blank. -/
def blankArtifacts : List Artifact :=
  [⟨⟨"a.optimized.js"⟩, "12345678;"⟩, ⟨⟨"a.manifest.json"⟩, Manifest.ofUnspacedRun.text⟩]

/-- What evaluation says about the names around `a.js`. -/
theorem names_evaluate :
    (isSingleName "a.js" = true ∧ isSingleName "a.js.bak" = true ∧
      isSingleName "a.optimized.js" = true ∧ isSingleName "a.manifest.json" = true) ∧
    (Path.append ⟨"a.js"⟩ ".bak" = ⟨"a.js.bak"⟩ ∧ Path.directory ⟨"a.optimized.js"⟩ = ⟨"."⟩ ∧
      Path.directory ⟨"a.manifest.json"⟩ = ⟨"."⟩) ∧
    Path.components ⟨"a.optimized.js"⟩ ≠ Path.components ⟨"a.manifest.json"⟩ ∧
    ({} : Output).optimizedPath ⟨"a.js"⟩ = ⟨"a.optimized.js"⟩ ∧ Dialect.ofPath ⟨"a.js"⟩ = {} ∧
    "a.js.bak".utf8ByteSize ≤ nameLimit := by
  decide +kernel

theorem at_of_home {disk : Disk} (hhome : disk.workingDirectory = []) (name : String)
    (h : isSingleName name = true) : disk.At ⟨name⟩ [] name := by
  obtain ⟨location, last, hat, -, hplace⟩ := exists_at_of_names (names_of_home hhome name h)
  obtain ⟨rfl, hlast⟩ := List.append_inj' (show [] ++ [name] = location ++ [last] from hplace) rfl
  rwa [← List.singleton_inj.1 hlast] at hat

theorem blankArtifacts_names {disk : Disk} (hhome : disk.workingDirectory = []) :
    disk.Names ⟨"a.optimized.js"⟩ ["a.optimized.js"] ∧ disk.Names ⟨"a.manifest.json"⟩ ["a.manifest.json"] := by
  obtain ⟨⟨-, -, hoptimized, hmanifest⟩, -⟩ := names_evaluate
  exact ⟨names_of_home hhome _ hoptimized, names_of_home hhome _ hmanifest⟩

theorem mem_places_blankArtifacts {disk : Disk} (hhome : disk.workingDirectory = []) {location : Location}
    (h : location ∈ disk.places blankArtifacts) :
    location = ["a.optimized.js"] ∨ location = ["a.manifest.json"] :=
  mem_places_pair h (blankArtifacts_names hhome).1 (blankArtifacts_names hhome).2

theorem agree_blankArtifacts {disk : Disk} (hhome : disk.workingDirectory = []) :
    disk.Agree blankArtifacts :=
  agree_pair (blankArtifacts_names hhome).1 (blankArtifacts_names hhome).2 (by decide)

/-- A run of `a.js`, which ends in a blank, gets as far as settling its backup. -/
theorem exists_shorten_here {disk : Disk} (hhome : disk.workingDirectory = []) {found : Location}
    (hstat : disk.stat ⟨"a.js"⟩ = .ok (found, .file "12345678; ".toUTF8))
    (hfree : disk.at? ["a.js.bak"] = none) (hoptimized : disk.Plain ["a.optimized.js"])
    (hmanifest : disk.Plain ["a.manifest.json"]) :
    disk.artifactsOf (usual false) ⟨"a.js"⟩ [.unspaced ⟨"a.js"⟩] .ofUnspacedRun = blankArtifacts ∧
      ∃ written report,
        disk.loadModules ".bak" (disk.isDirectory ⟨"a.js"⟩) {} [⟨"a.js"⟩] =
          (disk.set ["a.js.bak"] (.file "12345678; ".toUTF8), blankLoaded ⟨"a.js"⟩, none) ∧
        (disk.set ["a.js.bak"] (.file "12345678; ".toUTF8)).commit blankArtifacts = (written, none) ∧
        ∀ {disk' : Disk}, Backup.settleAll written false (blankLoaded ⟨"a.js"⟩).backups = (disk', none) →
          disk.shorten .bounded (usual false) "t" ⟨"a.js"⟩ =
            (disk', .ok (.accepted [.unspaced ⟨"a.js"⟩] .ofUnspacedRun report)) := by
  obtain ⟨⟨hmodule, -⟩, ⟨-, hdirectory, hdirectory'⟩, -, -, hdialect, hshort⟩ := names_evaluate
  obtain ⟨hlocate, hfile⟩ := locate_of_stat hstat
  have hstaged : disk.artifactsOf (usual false) ⟨"a.js"⟩ [.unspaced ⟨"a.js"⟩] .ofUnspacedRun =
      blankArtifacts := by
    rw [artifactsOf, hfile]
    exact artifacts_single rfl rfl .ofUnspacedRun
  have hat := at_of_home hhome "a.js" hmodule
  have hopen : disk.openDirectory ⟨"."⟩ = .ok [] := by
    rw [openDirectory_here disk (by rw [hhome]; rfl), hhome]
  obtain ⟨hnames, hnames'⟩ := blankArtifacts_names hhome
  refine ⟨hstaged, ?_⟩
  rw [← hstaged]
  refine exists_shorten_spaced rfl rfl ⟨rfl, rfl⟩ hlocate hdialect hat (by rw [read, hstat]) hfree hshort ?_
  rw [hstaged]
  refine List.forall_mem_cons.2 ⟨⟨⟨[], ?_⟩, _, hnames, hoptimized⟩,
    List.forall_mem_singleton.2 ⟨⟨[], ?_⟩, _, hnames', hmanifest⟩⟩
  · rw [hdirectory, hopen]
  · rw [hdirectory', hopen]

/-- A disk with one module, which ends in a blank. -/
def withModule : Disk := { entries := [(["a.js"], .file "12345678; ".toUTF8)] }

theorem withModule_eq_file {location : Location} {entry : Entry} (hne : location ≠ [])
    (hentry : withModule.at? location = some entry) : entry = .file "12345678; ".toUTF8 := by
  obtain ⟨first, names, rfl⟩ := List.exists_cons_of_ne_nil hne
  have hmem : (first :: names, entry) ∈ withModule.entries := Table.mem_of_get? hentry
  exact congrArg Prod.snd (List.mem_singleton.1 hmem)

theorem withModule_linkless (location : Location) (link : Path) :
    withModule.at? location ≠ some (.link link) := by
  intro hentry
  cases location with
  | nil => cases hentry
  | cons first names => cases withModule_eq_file (List.cons_ne_nil _ _) hentry

theorem withModule_stat : withModule.stat ⟨"a.js"⟩ = .ok (["a.js"], .file "12345678; ".toUTF8) :=
  (names_of_home rfl _ names_evaluate.1.1).stat_eq rfl

/-- A run over a disk with one module adds two artifacts. -/
theorem shorten_accepted_withModule :
    ∃ disk' report, withModule.shorten .bounded (usual false) "t" ⟨"a.js"⟩ =
        (disk', .ok (.accepted [.unspaced ⟨"a.js"⟩] .ofUnspacedRun report)) ∧
      withModule.Gains disk' blankArtifacts ∧
      (∀ a ∈ blankArtifacts, disk'.read a.path = .ok a.text.toUTF8) ∧
      disk'.read ⟨"a.js"⟩ = withModule.read ⟨"a.js"⟩ := by
  have hname : IsName "a.js" := ⟨by decide, by decide, by decide, by decide, by decide⟩
  have htree : withModule.IsTree :=
    .of_flat (by decide) (List.forall_mem_singleton.2 ⟨_, hname, rfl⟩)
  obtain ⟨hstaged, written, report, hload, hcommit, hshorten⟩ :=
    exists_shorten_here rfl withModule_stat rfl (plain_of_eq_none rfl) (plain_of_eq_none rfl)
  obtain ⟨hlocate, -⟩ := locate_of_stat withModule_stat
  have hmodules : ∀ m ∈ [ModuleOutput.unspaced ⟨"a.js"⟩], m.path ∈ [(⟨"a.js"⟩ : Path)] :=
    List.forall_mem_singleton.2 (List.mem_singleton.2 rfl)
  have hclear : withModule.Clear [⟨"a.js"⟩] (withModule.artifactsOf (usual false) ⟨"a.js"⟩
      [.unspaced ⟨"a.js"⟩] .ofUnspacedRun) := by
    refine clear_of_linkless htree withModule_linkless hlocate hmodules ?_ fun place hplace hdirectory => ?_
    · rw [hstaged]
      exact List.pairwise_pair.2 names_evaluate.2.2.1
    · obtain ⟨a, -, hnames⟩ := mem_places.1 hplace
      cases withModule_eq_file hnames.ne_nil hdirectory
  obtain ⟨disk', hsettle, -⟩ :=
    settleAll_of_commit htree hlocate hload hmodules hstaged (hstaged ▸ hclear.found) hcommit
  obtain ⟨paths, hlocate', -, -, -, heffect⟩ := shorten_accepted htree (hshorten hsettle)
  obtain rfl := Except.ok.inj (hlocate.symm.trans hlocate')
  obtain ⟨hgains, hwritten, hread⟩ := heffect hclear
  rw [hstaged] at hgains hwritten
  exact ⟨disk', report, hshorten hsettle, hgains, hwritten, hread _ (List.mem_singleton.2 rfl)⟩

/-! ## A module that is a link to its artifact -/

end Disk

/-- A file that has changed is restored: its copy is written over it, and goes. -/
theorem Backup.settle_changed {disk : Disk} {b : Backup} {location copy : Location} {old new : ByteArray}
    (hfollow : disk.follow b.source = .ok (location, false))
    (hfile : disk.at? location = some (.file new)) (hchanged : Abridge.fingerprint new ≠ b.fingerprint)
    (hnames : disk.Names b.copy copy) (hcopy : disk.at? copy = some (.file old)) :
    b.settle disk false = ((disk.set location (.file old)).unset copy, .ok true) := by
  have hne : location ≠ [] := by
    rintro rfl
    cases hfile
  have hverify : b.verify disk = false := by
    rw [verify, Disk.read, Disk.stat, hfollow]
    dsimp only
    rw [hfile]
    exact beq_false_of_ne hchanged
  have hplain := Disk.plain_of_eq_file hfile
  have hrestore := restore_eq hfollow hplain.1 hnames hcopy
  have hkept : (disk.set location (.file old)).at? copy = some (.file old) := by
    rw [Disk.at?_set disk hne, hcopy, ite_self]
  rw [settle, hverify, if_neg Bool.false_ne_true, hrestore]
  dsimp only
  rw [discard, if_neg Bool.false_ne_true, (hnames.mono (hplain.sameWays_set hne old).1).remove_eq hkept]

namespace Disk

/-- A disk with a module that is a link to where its artifact goes. -/
def withLinkedArtifact : Disk :=
  { entries := [(["a.optimized.js"], .file "12345678; ".toUTF8), (["a.js"], .link ⟨"a.optimized.js"⟩)] }

theorem follow_linkedArtifact {disk : Disk} {contents : ByteArray} (hhome : disk.workingDirectory = [])
    (hlink : disk.at? ["a.js"] = some (.link ⟨"a.optimized.js"⟩))
    (hfile : disk.at? ["a.optimized.js"] = some (.file contents)) :
    disk.follow ⟨"a.js"⟩ = .ok (["a.optimized.js"], false) ∧
      disk.stat ⟨"a.js"⟩ = .ok (["a.optimized.js"], .file contents) := by
  have hfollow : disk.follow ⟨"a.js"⟩ = .ok (["a.optimized.js"], false) := by
    obtain ⟨⟨hmodule, -, hoptimized, -⟩, -⟩ := names_evaluate
    have h := @follow_of_isSingleName disk _ _ hmodule hoptimized
    rw [hhome] at h
    exact h hlink (plain_of_eq_file hfile).2
  refine ⟨hfollow, ?_⟩
  rw [stat, hfollow]
  dsimp only
  rw [hfile]
  rfl

/-- **An artifact is lost when its module is a link to it.**  The run is accepted and puts the artifact in its
place, but then finds that the module has changed and writes the copy over it. -/
theorem artifact_overwritten :
    ∃ disk' report, withLinkedArtifact.shorten .bounded (usual false) "t" ⟨"a.js"⟩ =
        (disk', .ok (.accepted [.unspaced ⟨"a.js"⟩] .ofUnspacedRun report)) ∧
      (usual false).optimizedPath (ModuleOutput.unspaced ⟨"a.js"⟩).path = ⟨"a.optimized.js"⟩ ∧
      disk'.at? ["a.optimized.js"] = some (.file "12345678; ".toUTF8) ∧
      (ModuleOutput.unspaced ⟨"a.js"⟩).after = "12345678;" := by
  obtain ⟨-, hstat⟩ := @follow_linkedArtifact withLinkedArtifact "12345678; ".toUTF8 rfl rfl rfl
  obtain ⟨hstaged, written, report, -, hcommit, hshorten⟩ :=
    exists_shorten_here rfl hstat rfl (plain_of_eq_file rfl) (plain_of_eq_none rfl)
  have hgains := (commit_puts hcommit).gains (agree_blankArtifacts rfl)
  have hhome : written.workingDirectory = [] := hgains.workingDirectory
  have hoff : ∀ location, location ≠ ["a.optimized.js"] → location ≠ ["a.manifest.json"] →
      written.at? location = if ["a.js.bak"] = location then some (.file "12345678; ".toUTF8)
        else withLinkedArtifact.at? location := by
    intro location hne hne'
    rw [hgains.off location fun hmem => (mem_places_blankArtifacts rfl hmem).elim hne hne',
      at?_set withLinkedArtifact (List.cons_ne_nil _ _)]
  have hlink : written.at? ["a.js"] = some (.link ⟨"a.optimized.js"⟩) := hoff _ (by decide) (by decide)
  have hcopy : written.at? ["a.js.bak"] = some (.file "12345678; ".toUTF8) :=
    hoff _ (by decide) (by decide)
  have hfile : written.at? ["a.optimized.js"] = some (.file "12345678;".toUTF8) := by
    obtain ⟨location, hnames, -, hfile⟩ := hgains.written _ List.mem_cons_self
    rwa [hnames.unique (blankArtifacts_names rfl).1] at hfile
  obtain ⟨hfollow, -⟩ := follow_linkedArtifact hhome hlink hfile
  have hsettle : Backup.settleAll written false (blankLoaded ⟨"a.js"⟩).backups =
      ((written.set ["a.optimized.js"] (.file "12345678; ".toUTF8)).unset ["a.js.bak"], none) := by
    have hprints : fingerprint "12345678;".toUTF8 ≠ fingerprint "12345678; ".toUTF8 := by decide +kernel
    obtain ⟨⟨-, hcopyName, -⟩, ⟨hcopyPath, -⟩, -⟩ := names_evaluate
    have hchanged := Backup.settle_changed (b := ⟨⟨"a.js"⟩, ⟨"a.js.bak"⟩, fingerprint "12345678; ".toUTF8⟩)
      hfollow hfile hprints (names_of_home hhome "a.js.bak" hcopyName) hcopy
    rw [blankLoaded, hcopyPath, Backup.settleAll, hchanged]
    rfl
  refine ⟨_, report, hshorten hsettle, names_evaluate.2.2.2.1, ?_, rfl⟩
  rw [at?_unset _ (List.cons_ne_nil _ _), if_neg (by decide), at?_set written (List.cons_ne_nil _ _),
    if_pos rfl]

end Disk

end Abridge
