import Abridge.Proofs.Repetition

/-!
# Copies that are left

A copy is created first and filled then.  When it cannot be filled its module is passed over, or the run ends,
and no backup remembers it, so that nothing takes it away.  A run that does not commit leaves the disk as it
found it but for such copies (`Disk.shortenOn_uncommitted`).  Each lies under the plain name of a copy, where
nothing was, and has the beginning of its module.

On a sound medium there are none (`Disk.shorten_uncommitted`).  On a disk that is full there can be some,
although the run had nothing to write (`Disk.copy_left_on_full_disk`).

## What is here

* `Disk.Begun`, `Disk.Littered`: a copy that was begun, and a disk with such copies.
* `Disk.Holds.beside`: the copies of backups on a disk that gets another file.
* `Disk.loadModulesOn_littered`: what loading modules leaves on any medium.
* `Disk.shortenOn_uncommitted`, `Disk.shorten_uncommitted`: what a run leaves that does not commit.
-/

set_option autoImplicit false

namespace Abridge

namespace Disk

/-! ## Copies that were begun -/

/-- A copy that was begun of one of some files: it lies where nothing was, under the plain name of the copy of
the file, and has as much of the file as the medium took. -/
structure Begun (medium : Medium) (suffix : String) (paths : List Path) (before after : Disk)
    (location : Location) : Prop where
  free : before.at? location = none
  copy : ∃ p ∈ paths, ∃ contents reached n e, before.read p = .ok contents ∧
    before.Names (p.append suffix) location ∧
    medium.stops? reached (p.append suffix) contents = some (n, e) ∧
    after.at? location = some (.file (contents.extract 0 n))

/-- A disk with copies that were begun, and nothing else that is new. -/
structure Littered (medium : Medium) (suffix : String) (paths : List Path) (before after : Disk)
    (left : List Location) : Prop where
  differs : before.Differs after left
  begun : ∀ location ∈ left, Begun medium suffix paths before after location

namespace Littered

variable {medium : Medium} {suffix : String} {paths : List Path} {before after : Disk} {left : List Location}

theorem refl (medium : Medium) (suffix : String) (paths : List Path) (disk : Disk) :
    Littered medium suffix paths disk disk [] :=
  ⟨.refl disk, fun _ h => absurd h List.not_mem_nil⟩

/-- Every path leads where it led. -/
theorem sameWays (h : Littered medium suffix paths before after left) : before.SameWays after :=
  h.differs.sameWays fun l hl => plain_of_eq_none (h.begun l hl).free

/-- What was there is there. -/
theorem stat (h : Littered medium suffix paths before after left) {p : Path} {r : Location × Entry}
    (hstat : before.stat p = .ok r) : after.stat p = .ok r :=
  h.differs.stat_of_free (fun l hl => (h.begun l hl).free) hstat

/-- What was there reads as it did. -/
theorem read_eq (h : Littered medium suffix paths before after left) {p : Path} {r : Location × Entry}
    (hstat : before.stat p = .ok r) : after.read p = before.read p := by
  rw [read, read, hstat, h.stat hstat]

/-- Another copy is begun. -/
theorem add (h : Littered medium suffix paths before after left) {p : Path} {contents : ByteArray}
    {location : Location} {reached : Disk} {n : Nat} {e : DiskError} (hp : p ∈ paths)
    (hread : before.read p = .ok contents)
    (hnames : before.Names (p.append suffix) location)
    (hstops : medium.stops? reached (p.append suffix) contents = some (n, e))
    (hfree : after.at? location = none) :
    Littered medium suffix paths before (after.set location (.file (contents.extract 0 n))) (left ++ [location]) := by
  have hne := hnames.ne_nil
  have hother : ∀ l ∈ left, location ≠ l := by
    rintro l hl rfl
    obtain ⟨_, -, _, _, _, _, -, -, -, hfile⟩ := (h.begun location hl).copy
    rw [hfree] at hfile
    cases hfile
  have hnew : location ∉ left := fun hmem => hother location hmem rfl
  have hdirectory : after.at? location ≠ some .directory := by
    rw [hfree]
    exact (Option.some_ne_none _).symm
  refine ⟨h.differs.set hne hdirectory _, List.forall_mem_append.2 ⟨fun l hl => ?_,
    List.forall_mem_singleton.2 ⟨?_, p, hp, contents, reached, n, e, hread, hnames, hstops, ?_⟩⟩⟩
  · obtain ⟨hnone, q, hq, whole, reached', n', e', hread', hnames', hstops', hfile⟩ := h.begun l hl
    refine ⟨hnone, q, hq, whole, reached', n', e', hread', hnames', hstops', ?_⟩
    rw [at?_set after hne, if_neg (hother l hl), hfile]
  · rw [← h.differs.off location hnew, hfree]
  · rw [at?_set after hne, if_pos rfl]

/-- A disk that cannot be told apart has the same copies. -/
theorem congr (h : Littered medium suffix paths before after left) {after' : Disk} (hsame : after.Same after') :
    Littered medium suffix paths before after' left := by
  refine ⟨h.differs.congr hsame, fun l hl => ?_⟩
  obtain ⟨hnone, p, hp, contents, reached, n, e, hread, hnames, hstops, hfile⟩ := h.begun l hl
  exact ⟨hnone, p, hp, contents, reached, n, e, hread, hnames, hstops, by rw [hsame.entries, hfile]⟩

/-- A disk is as it was exactly when no copy was begun. -/
theorem same_iff (h : Littered medium suffix paths before after left) : before.Same after ↔ left = [] := by
  constructor
  · intro hsame
    refine List.eq_nil_iff_forall_not_mem.2 fun l hl => ?_
    obtain ⟨hnone, _, -, _, _, _, _, -, -, -, hfile⟩ := h.begun l hl
    rw [hsame.entries, hnone] at hfile
    cases hfile
  · rintro rfl
    exact h.differs.same fun _ hl => absurd hl List.not_mem_nil

/-- A sound medium leaves no copy begun. -/
theorem eq_nil (h : Littered .sound suffix paths before after left) : left = [] := by
  refine List.eq_nil_iff_forall_not_mem.2 fun l hl => ?_
  obtain ⟨_, -, _, _, _, _, -, -, hstops, -⟩ := (h.begun l hl).copy
  cases hstops

end Littered

/-! ## Loading on any medium -/

/-- A new file is put somewhere, and nothing else differs. -/
theorem differs_set {before : Disk} {location : Location} (hne : location ≠ [])
    (hfree : before.at? location = none) (contents : ByteArray) :
    before.Differs (before.set location (.file contents)) [location] :=
  (Differs.refl before).set hne (by rw [hfree]; exact (Option.some_ne_none _).symm) contents

end Disk

namespace Backup

/-- Backups are backups on the disk with another file as well. -/
theorem isOf_set {before : Disk} {location : Location} (hne : location ≠ [])
    (hfree : before.at? location = none) (contents : ByteArray) {backups : List Backup}
    {locations : List Location} (h : List.Forall₂ (IsOf before) backups locations) :
    (∀ l ∈ locations, location ≠ l) →
      List.Forall₂ (IsOf (before.set location (.file contents))) backups locations := by
  have hset := Disk.differs_set hne hfree contents
  have hnone : ∀ l ∈ [location], before.at? l = none := List.forall_mem_singleton.2 hfree
  induction h with
  | nil => exact fun _ => .nil
  | cons hb _ ih =>
    intro hother
    obtain ⟨hhere, hother⟩ := List.forall_mem_cons.1 hother
    obtain ⟨copied, hread, hprint⟩ := hb.source
    obtain ⟨_, hstat⟩ := Disk.read_eq_ok hread
    refine .cons ⟨hb.names.mono (hset.sameWays fun l hl => Disk.plain_of_eq_none (hnone l hl)).1, ?_, copied,
      Disk.read_of_stat (hset.stat_of_free hnone hstat), hprint⟩ (ih hother)
    rw [Disk.at?_set before hne, if_neg hhere, hb.free]

end Backup

namespace Disk

namespace Holds

variable {before after : Disk} {backups : List Backup} {locations : List Location} {location : Location}

/-- The copies of backups lie as well on a disk that gets another file. -/
theorem beside (h : before.Holds after backups locations) {p : Path} (hnames : before.Names p location)
    (hfree : after.at? location = none) (contents : ByteArray) :
    (before.set location (.file contents)).Holds (after.set location (.file contents)) backups locations := by
  have hne := hnames.ne_nil
  obtain ⟨hnew, hnone⟩ := h.of_free hfree
  have hother : ∀ l ∈ locations, location ≠ l := fun l hl heq => hnew (heq ▸ hl)
  have hset := differs_set hne hnone contents
  refine ⟨⟨h.differs.workingDirectory, fun l hl => ?_, fun l hl => ?_, fun l hl => ?_⟩,
    Backup.isOf_set hne hnone contents h.backups hother, fun l hl => ?_, h.nodup⟩
  · rw [at?_set before hne, at?_set after hne, h.differs.off l hl]
  · have hplain := h.differs.plain l hl
    rwa [Plain, at?_set after hne, if_neg (hother l hl)]
  · rw [at?_set before hne, if_neg (hother l hl)]
    exact h.differs.notDirectory l hl
  · rw [at?_set after hne, if_neg (hother l hl)]
    exact h.files l hl

end Holds

variable {medium : Medium} {suffix : String} {before disk disk' : Disk}

/-- **What loading modules leaves on any medium**: copies that were begun, and the copies of the modules that
were loaded. -/
theorem loadModulesOn_littered {goOn : Bool} {paths : List Path} {loaded : Loaded} {failure : Option Failure}
    (hstat : ∀ p ∈ paths, ∃ r, before.stat p = .ok r)
    (hload : before.loadModulesOn medium suffix goOn {} paths = (disk, loaded, failure)) :
    ∃ base left locations, Littered medium suffix paths before base left ∧
      base.Holds disk loaded.backups locations := by
  -- The copies that were begun belong to the disk on which the backups are.
  refine loadModulesOn_invariant (P := fun disk loaded => ∃ base left locations,
      Littered medium suffix paths before base left ∧ base.Holds disk loaded.backups locations) ?_ ?_
    ⟨before, [], [], .refl medium suffix paths before, .refl before⟩ hload
  · rintro p hp disk disk' loaded b m ⟨base, left, locations, hlittered, hholds⟩ hmodule
    obtain ⟨r, hr⟩ := hstat p hp
    rcases loadModuleOn_cases medium disk suffix p with heq | ⟨e, heq⟩ | ⟨_, _, _, _, -, -, -, heq⟩ <;>
      rw [heq] at hmodule
    · obtain ⟨location, hnext⟩ := hholds.create (hlittered.stat hr) (loadModule_eq_ok hmodule).2.2
      exact ⟨base, left, _, hlittered, hnext⟩
    · cases hmodule
    · cases hmodule
  · rintro p hp disk disk' loaded failure ⟨base, left, locations, hlittered, hholds⟩ hmodule failed
    obtain ⟨r, hr⟩ := hstat p hp
    rcases loadModuleOn_cases medium disk suffix p with
        heq | ⟨e, heq⟩ | ⟨contents, n, e, made, hread, hstops, hcreate, heq⟩ <;>
      rw [heq] at hmodule
    · exact ⟨base, left, locations, hlittered, hholds.congr (same_of_loadModule hmodule)⟩
    · cases hmodule
      exact ⟨base, left, locations, hlittered, hholds⟩
    · cases hmodule
      obtain ⟨location, hnames, hfree, rfl⟩ := create_eq_ok hcreate
      rw [hholds.read_eq (hlittered.stat hr), hlittered.read_eq hr] at hread
      have hbase := hnames.mono hholds.sameWays.2
      exact ⟨_, _, locations,
        hlittered.add hp hread (hbase.mono hlittered.sameWays.2) hstops (hholds.of_free hfree).2,
        hholds.beside hbase hfree _⟩

/-! ## Runs that do not commit -/

/-- The modules that a run finds. -/
def found (disk : Disk) (o : Output) (target : Path) : List Path :=
  (disk.locate ⟨o.optimizedSuffix, o.backupSuffix⟩ target).toOption.getD []

/-- A run on disk gets as far as writing: its profile passes the checks, its modules are found and loaded,
and the run over them is accepted. -/
def Writes (disk : Disk) (medium : Medium) (profile : Profile) (o : Output) (timestamp : String)
    (target : Path) : Prop :=
  ∃ p paths loading loaded modules manifest report, profile.compile = .ok p ∧
    disk.locate ⟨o.optimizedSuffix, o.backupSuffix⟩ target = .ok paths ∧
    disk.loadModulesOn medium o.backupSuffix (disk.isDirectory target) {} paths = (loading, loaded, none) ∧
    run p o.emitPositionMap timestamp loaded.modules loaded.failed =
      .ok (.accepted modules manifest report)

variable {profile : Profile} {o : Output} {timestamp : String} {target : Path}

/-- Settling does not make a result of another kind. -/
theorem finish_eq_ok {keep : Bool} {backups : List Backup} {result : Except Failure Outcome}
    {outcome : Outcome} (h : (disk.finish keep backups result).2 = .ok outcome) :
    result = .ok outcome := by
  rw [finish] at h
  generalize Backup.settleAll disk keep backups = settled at h
  obtain ⟨disk', _ | failure⟩ := settled
  · cases result <;> exact h
  · cases result <;> cases h

/-- A run that writes is not rejected. -/
theorem Writes.not_rejected (h : disk.Writes medium profile o timestamp target) (sources : List SourceModule)
    (report : Report) :
    (disk.shortenOn medium profile o timestamp target).2 ≠ .ok (.rejected sources report) := by
  obtain ⟨p, paths, loading, loaded, modules, manifest, report', hp, hlocate, hload, hrun⟩ := h
  rw [shortenOn, hp]
  dsimp only
  rw [hlocate]
  dsimp only
  rw [hload]
  dsimp only
  rw [hrun, commitOutcome]
  intro hrejected
  have hresult := finish_eq_ok hrejected
  split at hresult <;> cases hresult

/-- What a run leaves that does not commit. -/
theorem exists_littered (hkeep : o.keepBackup = false)
    (h : (∃ sources report, (disk.shortenOn medium profile o timestamp target).2 =
        .ok (.rejected sources report)) ∨ ¬ disk.Writes medium profile o timestamp target) :
    ∃ left, Littered medium o.backupSuffix (disk.found o target) disk
      (disk.shortenOn medium profile o timestamp target).1 left := by
  have hwrites : ¬ disk.Writes medium profile o timestamp target := by
    rcases h with ⟨sources, report, hrejected⟩ | h
    · exact fun hwrites => hwrites.not_rejected sources report hrejected
    · exact h
  rw [shortenOn]
  cases hp : profile.compile with
  | error e => exact ⟨[], .refl medium _ _ disk⟩
  | ok p =>
    dsimp only
    cases hlocate : disk.locate ⟨o.optimizedSuffix, o.backupSuffix⟩ target with
    | error e => exact ⟨[], .refl medium _ _ disk⟩
    | ok paths =>
      dsimp only
      rcases hload : disk.loadModulesOn medium o.backupSuffix (disk.isDirectory target) {} paths with
        ⟨loading, loaded, failure⟩
      obtain ⟨base, left, locations, hlittered, hholds⟩ :=
        loadModulesOn_littered (fun q hq => stat_of_mem_locate hlocate hq) hload
      obtain ⟨settled, hsettle, hsame⟩ := Backup.settleAll_holds hholds
      have hfound : disk.found o target = paths := by
        rw [found, hlocate]
        rfl
      have hleft := hlittered.congr hsame
      rw [← hfound] at hleft
      cases failure with
      | some e =>
        dsimp only
        rw [hkeep, hsettle]
        exact ⟨left, hleft⟩
      | none =>
        dsimp only
        cases hrun : run p o.emitPositionMap timestamp loaded.modules loaded.failed with
        | error e =>
          rw [commitOutcome, finish, hkeep, hsettle]
          exact ⟨left, hleft⟩
        | ok outcome =>
          cases outcome with
          | rejected sources report =>
            rw [commitOutcome, finish, hkeep, hsettle]
            exact ⟨left, hleft⟩
          | accepted modules manifest report =>
            exact absurd ⟨p, paths, loading, loaded, modules, manifest, report, hp, hlocate, hload,
              hrun⟩ hwrites

/-- **A run that does not commit leaves the disk as it found it, but for copies that were begun**, unless the
backups are to be kept.  Each of these copies lies where nothing was, under the plain name of the copy of a
module that the run found, and has as much of the module as the medium took; without them every location has
what it had.  So the disk is as it was exactly when no copy was begun.  This is so whether the profile fails its checks, nothing is
found, a module cannot be loaded or parsed, or the run is rejected. -/
theorem shortenOn_uncommitted (hkeep : o.keepBackup = false)
    (h : (∃ sources report, (disk.shortenOn medium profile o timestamp target).2 =
        .ok (.rejected sources report)) ∨ ¬ disk.Writes medium profile o timestamp target) :
    ∃ left, Littered medium o.backupSuffix (disk.found o target) disk
        (disk.shortenOn medium profile o timestamp target).1 left ∧
      (disk.Same (disk.shortenOn medium profile o timestamp target).1 ↔ left = []) := by
  obtain ⟨left, hleft⟩ := exists_littered hkeep h
  exact ⟨left, hleft, hleft.same_iff⟩

/-- **On a sound medium a run that does not commit leaves the disk as it found it.** -/
theorem shorten_uncommitted (hkeep : o.keepBackup = false)
    (h : (∃ sources report, (disk.shorten profile o timestamp target).2 =
        .ok (.rejected sources report)) ∨ ¬ disk.Writes .sound profile o timestamp target) :
    disk.Same (disk.shorten profile o timestamp target).1 := by
  obtain ⟨left, hleft⟩ := exists_littered hkeep h
  exact hleft.same_iff.2 hleft.eq_nil

/-! ## A disk that is full -/

end Disk

/-- A full disk: nothing of a new file is written. -/
def Medium.full : Medium := ⟨fun _ _ _ => some (0, .noSpace)⟩

namespace Disk

/-- A run that could load nothing is about no modules. -/
theorem run_nil (p : CompiledProfile) (emitMap : Bool) (timestamp : String) (failed : List FailedModule) :
    run p emitMap timestamp [] failed = .error (.noModules ⟨""⟩) := by
  rw [run, Path.sortBy, List.mergeSort_nil]
  rfl

/-- The copy of the module in the working directory is created and stays empty. -/
theorem loadModulesOn_full :
    withModule.loadModulesOn .full ".bak" true {} [⟨"./a.js"⟩] =
      (withModule.set ["a.js.bak"] (.file .empty),
        { failed := [⟨⟨"./a.js"⟩, .disk (Path.append ⟨"./a.js"⟩ ".bak") .noSpace⟩] }, none) := by
  have hat : withModule.At ⟨"./a.js"⟩ [] "a.js" := paths_evaluate.1.1 ▸ at_here rfl isName_here.1
  have hread : withModule.read ⟨"./a.js"⟩ = .ok "12345678; ".toUTF8 :=
    read_of_stat ((hat.names (by decide)).stat_eq rfl)
  have hnames : withModule.Names (Path.append ⟨"./a.js"⟩ ".bak") ["a.js.bak"] :=
    (hat.append (Output.isCopyName_append hat.isName).isName).names (by decide)
  have hempty : "12345678; ".toUTF8.extract 0 0 = .empty := by decide +kernel
  have hmodule : withModule.loadModuleOn .full ".bak" ⟨"./a.js"⟩ =
      (withModule.set ["a.js.bak"] (.file .empty), .error (.disk (Path.append ⟨"./a.js"⟩ ".bak") .noSpace)) := by
    rw [loadModuleOn, Backup.createOn, hread]
    dsimp only [Medium.full, Medium.taken, Output.backupPath]
    rw [hnames.create_eq rfl, hempty]
  rw [loadModulesOn_cons_error hmodule, if_pos rfl]
  rfl

theorem locate_withModule : withModule.locate {} ⟨"."⟩ = .ok [⟨"./a.js"⟩] :=
  locate_here rfl rfl rfl fun _ h => absurd h List.not_mem_nil

/-- A run over the working directory has no module to write about. -/
theorem not_writes_full (profile : Profile) : ¬ withModule.Writes .full profile {} "t" ⟨"."⟩ := by
  rintro ⟨p, paths, loading, loaded, modules, manifest, report, -, hlocate, hload, hrun⟩
  obtain rfl := Except.ok.inj (locate_withModule.symm.trans hlocate)
  rw [isDirectory_iff.2 ⟨[], stat_here rfl⟩] at hload
  cases loadModulesOn_full.symm.trans hload
  rw [run_nil] at hrun
  cases hrun

theorem shortenOn_uncommitted_full :
    ∃ left, Littered .full ".bak" (withModule.found {} ⟨"."⟩) withModule
        (withModule.shortenOn .full .bounded {} "t" ⟨"."⟩).1 left ∧
      (withModule.Same (withModule.shortenOn .full .bounded {} "t" ⟨"."⟩).1 ↔ left = []) :=
  shortenOn_uncommitted rfl (.inr (not_writes_full .bounded))

/-- **The copy of a module is left on a disk that is full**, although the run ends without modules. -/
theorem copy_left_on_full_disk :
    ∃ disk', withModule.shortenOn .full .bounded {} "t" ⟨"."⟩ = (disk', .error (.noModules ⟨""⟩)) ∧
      disk'.at? ["a.js.bak"] = some (.file .empty) ∧ ¬ withModule.Same disk' := by
  refine ⟨withModule.set ["a.js.bak"] (.file .empty), ?_, rfl, fun hsame => ?_⟩
  · have hdirectory : withModule.isDirectory ⟨"."⟩ = true := isDirectory_iff.2 ⟨[], stat_here rfl⟩
    rw [shortenOn, Profile.compile_bounded]
    dsimp only
    rw [locate_withModule, hdirectory]
    dsimp only
    rw [loadModulesOn_full]
    dsimp only
    rw [run_nil]
    rfl
  · have hentry := hsame.entries ["a.js.bak"]
    cases hentry

end Disk

end Abridge
