import Abridge.Proofs.Effects
import Abridge.Proofs.Room

/-!
# Running again

The artifacts of a run lie among the modules, and a second run walks over them.  They are not modules by their
names, and they have taken the place of none.  So the second run finds what the first one found, loads the
same modules, and writes the same artifacts over those that are there (`Disk.shorten_again`).

Names are all that the walk goes by.  A link with the name of a module may lead to the place of an artifact;
while nothing is there, the link is passed over, but afterwards it is one more module
(`Disk.artifact_found_again`).

## What is here

* `Disk.Extends.finds`: walks on a disk with more.
* `Disk.Leaves.locate_again`: the modules that a second run is about.
* `Disk.Leaves.exists_commit`: what it writes.
* `Disk.shorten_again`: the whole of it.
-/

set_option autoImplicit false

namespace Abridge

open Output (usual)

namespace Disk

/-! ## Walks on a disk with more -/

section

variable {less disk : Disk} {m : ArtifactMarkers} {target : Path} {root : Location}

/-- A directory that a walk enters is entered on a disk with more. -/
theorem Extends.visits (h : less.Extends disk) {p : Path} {location : Location} {around : List Location}
    (hvisits : less.Visits target root p location around) : disk.Visits target root p location around := by
  induction hvisits with
  | start => exact .start
  | enter _ hentry hname hstat hentered ih => exact .enter ih (h.entries hentry) hname (h.stat hstat) hentered

/-- What a walk finds is found on a disk with more. -/
theorem Extends.finds (h : less.Extends disk) {q : Path} (hfinds : less.Finds m target root q) :
    disk.Finds m target root q := by
  cases hfinds with
  | found hvisits hentry hname hstat hfile hmodule =>
    obtain ⟨entry, hentry⟩ := Option.ne_none_iff_exists'.1 hentry
    refine .found (h.visits hvisits) ?_ hname (h.stat hstat) hfile hmodule
    rw [h.entries hentry]
    exact Option.some_ne_none entry

end

/-- Artifacts are no directories, so all directories were there before. -/
theorem Puts.keeps_after {before after : Disk} {staged : List Artifact} (h : before.Puts after staged)
    (hextends : (before.without (before.places staged)).Extends after) :
    (before.without (before.places staged)).Keeps after := by
  refine ⟨hextends, fun {l} hl => h.keeps.directories ?_⟩
  by_cases hmem : l ∈ before.places staged
  · obtain ⟨a, -, -, hfile⟩ := h.exists_file hmem
    rw [hfile] at hl
    cases hl
  · rwa [← h.off hmem]

variable {disk disk' : Disk} {target : Path} {root : Location} {paths : List Path}

theorem openDirectory_eq_ok {p : Path} {location : Location} :
    disk.openDirectory p = .ok location ↔ disk.stat p = .ok (location, .directory) := by
  rw [openDirectory]
  constructor
  · intro h
    split at h
    · cases h
    · rename_i hstat
      cases h
      exact hstat
    · cases h
  · intro hstat
    rw [hstat]

/-- Where a path leads, the path of its directory leads. -/
theorem At.leadsTo_directory {p : Path} {location : Location} {name : String}
    (h : disk.At p location name) : disk.LeadsTo p.directory location := by
  obtain ⟨directory, hin, hleads⟩ := h.beside h.isName
  obtain ⟨directory', hin', halike⟩ := p.directory.exists_isIn_join h.isName
  obtain rfl := hin.unique hin'
  exact hleads.congr halike.symm

/-- A directory in which modules are found again has modules. -/
theorem exists_locate {m : ArtifactMarkers} (htree' : disk'.IsTree)
    (hroot : disk.stat target = .ok (root, .directory))
    (hroot' : disk'.stat target = .ok (root, .directory)) (hlocate : disk.locate m target = .ok paths)
    {q : Path} (hfinds : disk'.Finds m target root q) : ∃ again, disk'.locate m target = .ok again := by
  rw [locate_eq hroot] at hlocate
  rw [locate_eq hroot']
  split at hlocate
  · cases hlocate
  rename_i hname
  rw [if_neg hname]
  dsimp only
  refine ⟨_, if_neg ?_⟩
  rw [List.isEmpty_iff]
  exact List.ne_nil_of_mem (List.mem_mergeSort.2 ((mem_modulesBelow_iff htree' hroot').2 hfinds))

/-! ## What a run leaves -/

/-- A run over a directory has left its artifacts on a disk, and its modules can be found without them. -/
structure Leaves (disk disk' : Disk) (target : Path) (root : Location) (paths : List Path)
    (staged : List Artifact) : Prop where
  tree : disk.IsTree
  tree' : disk'.IsTree
  root : disk.stat target = .ok (root, .directory)
  located : disk.locate {} target = .ok paths
  artifacts : ∃ emitMap modules manifest, (∀ m ∈ modules, m.path ∈ paths) ∧
    disk.artifactsOf (usual emitMap) target modules manifest = staged
  puts : disk.Puts disk' staged
  extended : (disk.without (disk.places staged)).Extends disk'
  found : disk.FoundWithout paths staged

namespace Leaves

variable {staged : List Artifact}

/-- The directory is where it was, with and without the artifacts. -/
theorem stat_target (h : disk.Leaves disk' target root paths staged) :
    disk'.stat target = .ok (root, .directory) := by
  obtain ⟨q, hq⟩ := List.exists_mem_of_ne_nil _ (locate_ne_nil h.located)
  obtain ⟨r, hr⟩ := h.found q hq
  exact h.extended.stat (h.puts.keeps.finds h.tree h.root
    (((mem_locate_iff h.tree h.root h.located).1 q).1 hq) hr).1

/-- What was found is found again. -/
theorem finds (h : disk.Leaves disk' target root paths staged) {q : Path} (hq : q ∈ paths) :
    disk'.Finds {} target root q := by
  obtain ⟨r, hr⟩ := h.found q hq
  have hfinds := ((mem_locate_iff h.tree h.root h.located).1 q).1 hq
  exact h.extended.finds (h.puts.keeps.finds h.tree h.root hfinds hr).2

theorem exists_again (h : disk.Leaves disk' target root paths staged) :
    ∃ again, disk'.locate {} target = .ok again ∧ paths ⊆ again := by
  obtain ⟨q, hq⟩ := List.exists_mem_of_ne_nil _ (locate_ne_nil h.located)
  obtain ⟨again, hagain⟩ := exists_locate h.tree' h.root h.stat_target h.located (h.finds hq)
  exact ⟨again, hagain, fun q hq => ((mem_locate_iff h.tree' h.stat_target hagain).1 q).2 (h.finds hq)⟩

/-- **The same modules are found again**, if none is found by way of an artifact. -/
theorem locate_again (h : disk.Leaves disk' target root paths staged)
    (hagain : ∀ again, disk'.locate {} target = .ok again → disk.FoundWithout again staged) :
    disk'.locate {} target = .ok paths := by
  obtain ⟨again, hlocate, -⟩ := h.exists_again
  rw [← h.located]
  refine locate_congr h.tree h.tree' h.root h.stat_target fun q => ⟨fun hfinds => ?_, fun hfinds => ?_⟩
  · obtain ⟨r, hr⟩ := hagain again hlocate q (((mem_locate_iff h.tree' h.stat_target hlocate).1 q).2 hfinds)
    have hkeeps := h.puts.keeps_after h.extended
    exact h.puts.keeps.part.finds (hkeeps.finds h.tree' h.stat_target hfinds hr).2
  · exact h.finds (((mem_locate_iff h.tree h.root h.located).1 q).2 hfinds)

/-! ### Places -/

/-- The path of an artifact leads to it, with and without it. -/
theorem exists_at (h : disk.Leaves disk' target root paths staged) {a : Artifact} (ha : a ∈ staged) :
    ∃ location name, (disk.without (disk.places staged)).At a.path location name ∧
      name.utf8ByteSize ≤ nameLimit ∧ location ++ [name] ∈ disk.places staged := by
  obtain ⟨emitMap, modules, manifest, hmodules, hstaged⟩ := h.artifacts
  obtain ⟨location, name, hat⟩ := h.puts.exists_at h.tree h.located hmodules hstaged h.found a ha
  obtain ⟨place, hnames, -⟩ := h.puts.names a ha
  have hbefore := hat.mono h.puts.keeps.part.leads
  rw [hbefore.location_eq hnames] at hnames
  exact ⟨location, name, hat, hbefore.short_of_names hnames, mem_places.2 ⟨a, ha, hnames⟩⟩

theorem names_iff (h : disk.Leaves disk' target root paths staged) {a : Artifact} (ha : a ∈ staged)
    {place : Location} : disk'.Names a.path place ↔ disk.Names a.path place := by
  obtain ⟨location, name, hat, hshort, -⟩ := h.exists_at ha
  have hnames := (hat.mono h.extended.leads).names hshort
  have hnames' := (hat.mono h.puts.keeps.part.leads).names hshort
  exact ⟨fun hn => hn.unique hnames ▸ hnames', fun hn => hn.unique hnames' ▸ hnames⟩

theorem place?_eq (h : disk.Leaves disk' target root paths staged) :
    ∀ a ∈ staged, disk'.place? a = disk.place? a := fun a ha => by
  refine Option.ext fun place => ?_
  rw [place?_eq_some, place?_eq_some, h.names_iff ha]

theorem places_eq (h : disk.Leaves disk' target root paths staged) :
    disk'.places staged = disk.places staged := List.filterMap_congr h.place?_eq

theorem files_eq (h : disk.Leaves disk' target root paths staged) :
    disk'.files staged = disk.files staged :=
  List.filterMap_congr fun a ha => by rw [h.place?_eq a ha]

/-- Without the artifacts the disks are the same. -/
theorem without_same (h : disk.Leaves disk' target root paths staged) :
    (disk.without (disk.places staged)).Same (disk'.without (disk'.places staged)) := by
  have hroot := disk.root_not_mem_places staged
  rw [h.places_eq]
  refine ⟨h.puts.workingDirectory, fun l => ?_⟩
  rw [at?_without disk' hroot, at?_without disk hroot]
  split
  · rfl
  · rename_i hmem
    exact h.puts.off hmem

/-- There is the same room for copies, which go where no artifact goes. -/
theorem sameRoom (h : disk.Leaves disk' target root paths staged) : disk.SameRoom disk' := by
  obtain ⟨emitMap, modules, manifest, hmodules, hstaged⟩ := h.artifacts
  refine .of_copies fun location name copy hmodule hname hcopy => h.puts.off fun hmem => ?_
  rw [← hstaged] at hmem
  obtain ⟨_, other, n, hother, hname', hn, hplace⟩ :=
    kind_of_mem_places h.tree h.root h.located hmodules hmem
  obtain rfl := List.singleton_inj.1 (List.append_inj' hplace rfl).2
  exact Output.not_mem_of_isCopyName hother hname' hname hcopy hn

/-- The modules are where they were and read as they did. -/
theorem modules_again (h : disk.Leaves disk' target root paths staged) :
    ∀ p ∈ paths, ∃ r location name, disk.stat p = .ok r ∧ disk'.stat p = .ok r ∧
      disk'.read p = disk.read p ∧ ({} : ArtifactMarkers).isModule name = true ∧
      disk.At p location name ∧ disk'.At p location name := by
  intro p hp
  obtain ⟨-, location, name, -, hat, hmodule⟩ := h.tree.exists_at_of_mem_locate h.located hp
  obtain ⟨r, hr⟩ := h.found p hp
  have hbefore := h.puts.keeps.part
  refine ⟨r, location, name, hbefore.stat hr, h.extended.stat hr, ?_,
    hmodule (isDirectory_iff.2 ⟨root, h.root⟩), hat, (hat.of_stat hbefore.leads hr).mono h.extended.leads⟩
  rw [h.extended.read hr, hbefore.read hr]

/-! ### Writing -/

/-- **The artifacts are committed again**, over those that are there. -/
theorem exists_commit (h : disk.Leaves disk' target root paths staged) {copied copied' written : Disk}
    {backups backups' : List Backup} {locations locations' : List Location}
    (hholds : disk.Holds copied backups locations) (hcommit : copied.commit staged = (written, none))
    (hholds' : disk'.Holds copied' backups' locations') :
    ∃ written', copied'.commit staged = (written', none) := by
  refine Disk.exists_commit (fun a ha => ?_) fun a ha => ?_
  · obtain ⟨location, name, hat, -⟩ := h.exists_at ha
    obtain ⟨around, hopen⟩ := openDirectory_of_commit hcommit a ha
    have hstat := openDirectory_eq_ok.1 (hholds.sameWays.symm.openDirectory hopen)
    have hless := h.puts.keeps.part.leads.stat_of_leadsTo hstat hat.leadsTo_directory
      (h.puts.keeps.directories (stat_eq_ok hstat))
    exact ⟨around, hholds'.sameWays.openDirectory (openDirectory_eq_ok.2 (h.extended.stat hless))⟩
  · obtain ⟨location, name, hat, hshort, hplace⟩ := h.exists_at ha
    obtain ⟨b, -, -, hfile⟩ := h.puts.exists_file hplace
    refine ⟨location ++ [name], ((hat.mono h.extended.leads).mono hholds'.sameWays.1).names hshort, ?_⟩
    have hoff : location ++ [name] ∉ locations' := fun hmem => by
      rw [hholds'.free hmem] at hfile
      cases hfile
    exact plain_of_eq_file ((hholds'.differs.off _ hoff).trans hfile)

/-- Artifacts that are put where they are change nothing. -/
theorem same_of_puts (h : disk.Leaves disk' target root paths staged) {after : Disk}
    (hputs : disk'.Puts after staged) : disk'.Same after := by
  have hroot := disk'.root_not_mem_files staged
  refine ⟨hputs.workingDirectory, fun l => ?_⟩
  by_cases hl : l ∈ disk'.places staged
  · rw [← map_fst_files] at hl
    rw [hputs.same.entries, at?_setAll_of_mem disk' disk hroot hl, h.files_eq, h.puts.same.entries]
  · exact hputs.off hl

end Leaves

/-! ## The second run -/

/-- What an accepted run over a directory leaves, when its modules can be found without its artifacts. -/
theorem leaves_of_run (htree : disk.IsTree) (hroot : disk.stat target = .ok (root, .directory))
    {profile : Profile} {emitMap : Bool} {timestamp : String} {modules : List ModuleOutput}
    {manifest : Manifest} {report : Report}
    (h : disk.shorten profile (usual emitMap) timestamp target =
      (disk', .ok (.accepted modules manifest report))) (hlocate : disk.locate {} target = .ok paths)
    (hfound : disk.FoundWithout paths (disk.artifactsOf (usual emitMap) target modules manifest)) :
    disk.Leaves disk' target root paths (disk.artifactsOf (usual emitMap) target modules manifest) := by
  have htree' := htree.shorten profile (usual emitMap) timestamp target
  rw [h] at htree'
  obtain ⟨p, paths', copied, loaded, written, hp, hlocate', hload, hrun, hcommit, hsettle⟩ :=
    shorten_eq_accepted_iff.1 h
  obtain rfl : paths = paths' := Except.ok.inj (hlocate.symm.trans hlocate')
  obtain ⟨hmodules, -⟩ := modules_of_run htree hlocate hload hp hrun
  obtain ⟨after, hafter, hputs, hextends⟩ :=
    settleAll_of_commit htree hlocate hload hmodules rfl hfound hcommit
  have hsettle : Backup.settleAll written false loaded.backups = (disk', none) := hsettle
  rw [hafter] at hsettle
  cases hsettle
  exact ⟨htree, htree', hroot, hlocate, ⟨emitMap, modules, manifest, hmodules, rfl⟩, hputs, hextends, hfound⟩

/-- **A second run does what the first one did**, if it is about the same modules. -/
theorem exists_shorten_again {profile : Profile} {emitMap : Bool} {timestamp : String}
    {modules : List ModuleOutput} {manifest : Manifest} {report : Report}
    (h : disk.shorten profile (usual emitMap) timestamp target =
      (disk', .ok (.accepted modules manifest report)))
    (hleaves : disk.Leaves disk' target root paths
      (disk.artifactsOf (usual emitMap) target modules manifest))
    (hagain : disk'.locate {} target = .ok paths) :
    ∃ disk'', disk'.shorten profile (usual emitMap) timestamp target =
        (disk'', .ok (.accepted modules manifest report)) ∧ disk'.Same disk'' := by
  obtain ⟨p, paths', copied, loaded, written, hp, hlocate, hload, hrun, hcommit, -⟩ :=
    shorten_eq_accepted_iff.1 h
  obtain rfl : paths = paths' := Except.ok.inj (hleaves.located.symm.trans hlocate)
  have hdirectory : disk'.isDirectory target = disk.isDirectory target := by
    rw [isDirectory_iff.2 ⟨root, hleaves.root⟩, isDirectory_iff.2 ⟨root, hleaves.stat_target⟩]
  have hstaged : disk'.artifactsOf (usual emitMap) target modules manifest =
      disk.artifactsOf (usual emitMap) target modules manifest := by
    rw [artifactsOf, artifactsOf, hdirectory]
  obtain ⟨hmodules, -⟩ := modules_of_run hleaves.tree hlocate hload hp hrun
  have hstat : ∀ q ∈ paths, ∃ r, disk.stat q = .ok r := fun q hq => stat_of_mem_locate hlocate hq
  have hstat' : ∀ q ∈ paths, ∃ r, disk'.stat q = .ok r := fun q hq => stat_of_mem_locate hagain hq
  obtain ⟨copied', loaded', hload', hloaded, hfailed⟩ :=
    loadModules_sameRoom hleaves.modules_again hload (.refl disk) (.refl disk') hleaves.sameRoom rfl rfl
  obtain ⟨locations, hholds⟩ := loadModules_holds hstat (.refl disk) hload
  obtain ⟨locations', hholds'⟩ := loadModules_holds hstat' (.refl disk') hload'
  obtain ⟨written', hcommit'⟩ := hleaves.exists_commit hholds hcommit hholds'
  have hfound : disk'.FoundWithout paths (disk.artifactsOf (usual emitMap) target modules manifest) := by
    intro q hq
    obtain ⟨r, hr⟩ := hleaves.found q hq
    exact ⟨r, (hleaves.without_same.stat_iff q r).2 hr⟩
  rw [← hdirectory] at hload'
  obtain ⟨disk'', hsettle, hputs, -⟩ :=
    settleAll_of_commit hleaves.tree' hagain hload' hmodules hstaged hfound hcommit'
  refine ⟨disk'', shorten_eq_accepted_iff.2 ⟨p, paths, copied', loaded', written', hp, hagain, hload', ?_,
    ?_, hsettle⟩, hleaves.same_of_puts hputs⟩
  · rw [hloaded, hfailed]
    exact hrun
  · rw [hstaged]
    exact hcommit'

/-! ## Modules that artifacts do not disturb -/

/-- No module that a target stands for is found by way of an artifact, neither before the artifacts are there
nor afterwards. -/
def Undisturbed (disk disk' : Disk) (target : Path) (staged : List Artifact) : Prop :=
  ∀ paths, disk.locate {} target = .ok paths ∨ disk'.locate {} target = .ok paths →
    disk.FoundWithout paths staged

/-- Artifacts that were committed took the place of no directory. -/
theorem not_directory_of_commit {copied written : Disk} {backups : List Backup}
    {locations : List Location} {staged : List Artifact} (hholds : disk.Holds copied backups locations)
    (hcommit : copied.commit staged = (written, none)) :
    ∀ place ∈ disk.places staged, disk.at? place ≠ some .directory := by
  intro place hplace
  obtain ⟨a, ha, hnames⟩ := mem_places.1 hplace
  obtain ⟨location, hlocation, hdirectory⟩ := (commit_puts hcommit).names a ha
  rw [(hholds.sameWays.names_iff.2 hnames).unique hlocation]
  exact mt hholds.sameWays.1.directory hdirectory

/-- **Without links the artifacts disturb nothing.** -/
theorem undisturbed_of_linkless (htree : disk.IsTree) (hdirectory : disk.isDirectory target = true)
    {profile : Profile} {emitMap : Bool} {timestamp : String} {modules : List ModuleOutput}
    {manifest : Manifest} {report : Report}
    (h : disk.shorten profile (usual emitMap) timestamp target =
      (disk', .ok (.accepted modules manifest report)))
    (hlinks : ∀ location link, disk.at? location ≠ some (.link link)) :
    disk.Undisturbed disk' target (disk.artifactsOf (usual emitMap) target modules manifest) := by
  obtain ⟨root, hroot⟩ := isDirectory_iff.1 hdirectory
  obtain ⟨p, paths, copied, loaded, written, hp, hlocate, hload, hrun, hcommit, -⟩ :=
    shorten_eq_accepted_iff.1 h
  obtain ⟨hmodules, -⟩ := modules_of_run htree hlocate hload hp hrun
  obtain ⟨locations, hholds⟩ :=
    loadModules_holds (fun q hq => stat_of_mem_locate hlocate hq) (.refl disk) hload
  have hfound := foundWithout_of_linkless htree hlinks hlocate hmodules
    (not_directory_of_commit hholds hcommit)
  have hleaves := leaves_of_run htree hroot h hlocate hfound
  rintro paths' (hpaths | hagain)
  · obtain rfl := Except.ok.inj (hlocate.symm.trans hpaths)
    exact hfound
  -- Afterwards there are no links either, and no artifact is a directory.
  obtain ⟨again, hagain', hsub⟩ := hleaves.exists_again
  obtain rfl := Except.ok.inj (hagain'.symm.trans hagain)
  have hfile : ∀ place ∈ disk.places (disk.artifactsOf (usual emitMap) target modules manifest),
      ∃ contents, disk'.at? place = some (.file contents) := fun place hplace => by
    obtain ⟨a, -, -, hfile⟩ := hleaves.puts.exists_file hplace
    exact ⟨_, hfile⟩
  have hlinks' : ∀ location link, disk'.at? location ≠ some (.link link) := by
    intro location link hlink
    by_cases hmem : location ∈ disk.places (disk.artifactsOf (usual emitMap) target modules manifest)
    · obtain ⟨contents, hfile⟩ := hfile location hmem
      rw [hfile] at hlink
      cases hlink
    · exact hlinks location link ((hleaves.puts.off hmem).symm.trans hlink)
  have hstaged : disk'.artifactsOf (usual emitMap) target modules manifest =
      disk.artifactsOf (usual emitMap) target modules manifest := by
    rw [artifactsOf, artifactsOf, hdirectory, isDirectory_iff.2 ⟨root, hleaves.stat_target⟩]
  have hfound' : disk'.FoundWithout again (disk'.artifactsOf (usual emitMap) target modules manifest) := by
    refine foundWithout_of_linkless hleaves.tree' hlinks' hagain' (fun m hm => hsub (hmodules m hm)) ?_
    rw [hstaged, hleaves.places_eq]
    intro place hplace hdirectory
    obtain ⟨contents, hfile⟩ := hfile place hplace
    rw [hfile] at hdirectory
    cases hdirectory
  rw [hstaged] at hfound'
  intro q hq
  obtain ⟨r, hr⟩ := hfound' q hq
  exact ⟨r, (hleaves.without_same.stat_iff q r).1 hr⟩

/-- **Running again changes nothing.**  A run over a directory is accepted and leaves a disk.  If no module is
found by way of an artifact, before or afterwards, a second run over that disk is about the same modules and
ends in the same way, and every location has after it what it had before.  On a disk without links no module
is ever found so. -/
theorem shorten_again (htree : disk.IsTree) (hdirectory : disk.isDirectory target = true)
    {profile : Profile} {emitMap : Bool} {timestamp : String} {modules : List ModuleOutput}
    {manifest : Manifest} {report : Report}
    (h : disk.shorten profile (usual emitMap) timestamp target =
      (disk', .ok (.accepted modules manifest report))) :
    ((∀ location link, disk.at? location ≠ some (.link link)) →
      disk.Undisturbed disk' target (disk.artifactsOf (usual emitMap) target modules manifest)) ∧
    (disk.Undisturbed disk' target (disk.artifactsOf (usual emitMap) target modules manifest) →
      (∃ paths, disk.locate {} target = .ok paths ∧ disk'.locate {} target = .ok paths) ∧
        ∃ disk'', disk'.shorten profile (usual emitMap) timestamp target =
          (disk'', .ok (.accepted modules manifest report)) ∧ disk'.Same disk'') := by
  refine ⟨undisturbed_of_linkless htree hdirectory h, fun hundisturbed => ?_⟩
  obtain ⟨root, hroot⟩ := isDirectory_iff.1 hdirectory
  obtain ⟨p, paths, -, -, -, -, hlocate, -⟩ := shorten_eq_accepted_iff.1 h
  have hleaves := leaves_of_run htree hroot h hlocate (hundisturbed paths (.inl hlocate))
  have hagain := hleaves.locate_again fun again hagain => hundisturbed again (.inr hagain)
  exact ⟨⟨paths, hlocate, hagain⟩, exists_shorten_again h hleaves hagain⟩

/-! ## A run over the working directory -/

/-- What a run over the working directory writes when `a.js` is the only module and ends in a blank. -/
def directoryArtifacts : List Artifact :=
  [⟨⟨"./a.optimized.js"⟩, "12345678;"⟩, ⟨⟨"./optimization.manifest.json"⟩, Manifest.ofUnspacedRun.text⟩]

/-- What evaluation says about the paths of that run. -/
theorem paths_evaluate :
    (Path.join ⟨"."⟩ "a.js" = ⟨"./a.js"⟩ ∧ Path.join ⟨"."⟩ "a.optimized.js" = ⟨"./a.optimized.js"⟩ ∧
      Path.join ⟨"."⟩ "optimization.manifest.json" = ⟨"./optimization.manifest.json"⟩) ∧
    (Path.directory ⟨"./a.optimized.js"⟩ = ⟨"."⟩ ∧
      Path.directory ⟨"./optimization.manifest.json"⟩ = ⟨"."⟩) ∧
    (targetName ⟨"."⟩ ≠ dependencyDirectory ∧ "a.js" ≠ dependencyDirectory ∧
      ({} : ArtifactMarkers).isModule "a.js" = true) ∧
    ({} : Output).optimizedPath ⟨"./a.js"⟩ = ⟨"./a.optimized.js"⟩ ∧ Dialect.ofPath ⟨"./a.js"⟩ = {} := by
  decide +kernel

theorem stat_here {disk : Disk} (hhome : disk.workingDirectory = []) :
    disk.stat ⟨"."⟩ = .ok ([], .directory) := by
  refine openDirectory_eq_ok.1 ?_
  rw [openDirectory_here disk (by rw [hhome]; rfl), hhome]

theorem at_here {disk : Disk} (hhome : disk.workingDirectory = []) {name : String} (hname : IsName name) :
    disk.At (Path.join ⟨"."⟩ name) [] name :=
  (leadsTo_of_stat (stat_here hhome)).join hname

theorem isName_here : IsName "a.js" ∧ IsName "a.optimized.js" :=
  ⟨⟨by decide, by decide, by decide, by decide, by decide⟩,
    ⟨by decide, by decide, by decide, by decide, by decide⟩⟩

/-- The working directory has one module if nothing else that is in it can be found. -/
theorem locate_here {disk : Disk} (hhome : disk.workingDirectory = []) {contents : ByteArray}
    {others : List (String × Entry)} (hchildren : disk.children [] = ("a.js", .file contents) :: others)
    (hfile : disk.at? ["a.js"] = some (.file contents))
    (hothers : ∀ child ∈ others, ∃ e, disk.stat (Path.join ⟨"."⟩ child.1) = .error e) :
    disk.locate {} ⟨"."⟩ = .ok [⟨"./a.js"⟩] := by
  obtain ⟨⟨hjoin, -⟩, -, ⟨htarget, hname, hmodule⟩, -⟩ := paths_evaluate
  have hstat := ((at_here hhome isName_here.1).names (by decide)).stat_eq hfile
  rw [hjoin] at hstat
  have hbelow : ∀ fuel, disk.modulesBelow {} ⟨"."⟩ [[]] (fuel + 1) = [⟨"./a.js"⟩] := by
    intro fuel
    rw [modulesBelow, List.headD_cons, hchildren, List.flatMap_cons]
    dsimp only
    rw [if_neg hname, hjoin, hstat]
    dsimp only
    rw [if_pos hmodule, List.flatMap_eq_nil_iff.2, List.append_nil]
    intro child hchild
    obtain ⟨e, he⟩ := hothers child hchild
    rw [he]
    exact ite_self _
  obtain ⟨fuel, hfuel⟩ := Nat.exists_eq_add_one.2 (Nat.mul_pos disk.entries.length.succ_pos
    disk.entries.length.succ_pos)
  rw [locate_eq (stat_here hhome), if_neg htarget, hfuel, hbelow, Path.sortBy, List.mergeSort_singleton]
  rfl

theorem artifactsOf_here {disk : Disk} (hhome : disk.workingDirectory = []) :
    disk.artifactsOf (usual false) ⟨"."⟩ [.unspaced ⟨"./a.js"⟩] .ofUnspacedRun = directoryArtifacts := by
  obtain ⟨⟨-, -, hmanifest⟩, -, -, hoptimized, -⟩ := paths_evaluate
  have hoptimized : (usual false).optimizedPath (ModuleOutput.unspaced ⟨"./a.js"⟩).path =
      ⟨"./a.optimized.js"⟩ := hoptimized
  have hmanifest : Path.join ⟨"."⟩ (usual false).runManifestName = ⟨"./optimization.manifest.json"⟩ :=
    hmanifest
  rw [artifactsOf, if_pos (isDirectory_iff.2 ⟨[], stat_here hhome⟩), artifacts_eq, List.flatMap_singleton,
    artifactsFor, hoptimized, hmanifest]
  rfl

theorem directoryArtifacts_at {disk : Disk} (hhome : disk.workingDirectory = []) :
    disk.At ⟨"./a.optimized.js"⟩ [] "a.optimized.js" ∧
      disk.At ⟨"./optimization.manifest.json"⟩ [] "optimization.manifest.json" := by
  obtain ⟨⟨-, hoptimized, hmanifest⟩, -⟩ := paths_evaluate
  exact ⟨hoptimized ▸ at_here hhome isName_here.2, hmanifest ▸ at_here hhome Output.isName_runManifest⟩

theorem mem_places_directoryArtifacts {disk : Disk} (hhome : disk.workingDirectory = [])
    {location : Location} (h : location ∈ disk.places directoryArtifacts) :
    location = ["a.optimized.js"] ∨ location = ["optimization.manifest.json"] := by
  obtain ⟨hoptimized, hmanifest⟩ := directoryArtifacts_at hhome
  obtain ⟨a, ha, hnames⟩ := mem_places.1 h
  rcases List.mem_pair.1 ha with rfl | rfl
  · exact .inl (hoptimized.location_eq hnames)
  · exact .inr (hmanifest.location_eq hnames)

/-- A run over the working directory, in which `a.js` is the only module and ends in a blank, is accepted. -/
theorem exists_shorten_directory {disk : Disk} (htree : disk.IsTree) (hhome : disk.workingDirectory = [])
    (hlocate : disk.locate {} ⟨"."⟩ = .ok [⟨"./a.js"⟩])
    (hfile : disk.at? ["a.js"] = some (.file "12345678; ".toUTF8)) (hfree : disk.at? ["a.js.bak"] = none)
    (hoptimized : disk.Plain ["a.optimized.js"]) (hmanifest : disk.Plain ["optimization.manifest.json"]) :
    ∃ disk' report, disk.shorten .bounded (usual false) "t" ⟨"."⟩ =
        (disk', .ok (.accepted [.unspaced ⟨"./a.js"⟩] .ofUnspacedRun report)) ∧
      disk.Leaves disk' ⟨"."⟩ [] [⟨"./a.js"⟩] directoryArtifacts := by
  obtain ⟨⟨hjoin, -⟩, ⟨hdirectory, hdirectory'⟩, -, -, hdialect⟩ := paths_evaluate
  obtain ⟨hat, hat'⟩ := directoryArtifacts_at hhome
  have hmodule := at_here hhome isName_here.1
  rw [hjoin] at hmodule
  have hstat := (hmodule.names (by decide)).stat_eq hfile
  have hstaged := artifactsOf_here hhome
  have hopen : disk.openDirectory ⟨"."⟩ = .ok [] := openDirectory_eq_ok.2 (stat_here hhome)
  have hplace : ∀ a ∈ disk.artifactsOf (usual false) ⟨"."⟩ [.unspaced ⟨"./a.js"⟩] .ofUnspacedRun,
      (∃ around, disk.openDirectory a.path.directory = .ok around) ∧
        ∃ place, disk.Names a.path place ∧ disk.Plain place := by
    rw [hstaged]
    exact List.forall_mem_cons.2 ⟨⟨⟨[], hdirectory ▸ hopen⟩, _, hat.names (by decide), hoptimized⟩,
      List.forall_mem_singleton.2 ⟨⟨[], hdirectory' ▸ hopen⟩, _, hat'.names (by decide), hmanifest⟩⟩
  obtain ⟨written, report, hload, hcommit, hshorten⟩ := exists_shorten_spaced (o := usual false) rfl rfl
    ⟨rfl, rfl⟩ hlocate hdialect hmodule (by rw [read, hstat]) hfree (by decide) hplace
  have hmodules : ∀ m ∈ [ModuleOutput.unspaced ⟨"./a.js"⟩], m.path ∈ [(⟨"./a.js"⟩ : Path)] :=
    List.forall_mem_singleton.2 (List.mem_singleton.2 rfl)
  have hfound : disk.FoundWithout [⟨"./a.js"⟩] directoryArtifacts := by
    refine List.forall_mem_singleton.2 ⟨(["a.js"], .file "12345678; ".toUTF8), ?_⟩
    have hless := @at_here (disk.without (disk.places directoryArtifacts)) hhome _ isName_here.1
    rw [hjoin] at hless
    refine (hless.names (by decide)).stat_eq ?_
    rw [at?_without disk (disk.root_not_mem_places _), if_neg]
    · exact hfile
    · intro hmem
      rcases mem_places_directoryArtifacts hhome hmem with h | h <;> exact absurd h (by decide)
  rw [hstaged] at hcommit
  obtain ⟨disk', hsettle, hputs, hextends⟩ :=
    settleAll_of_commit htree hlocate hload hmodules hstaged hfound hcommit
  have hrun := hshorten hsettle
  exact ⟨disk', report, hrun, hstaged ▸ leaves_of_run htree (stat_here hhome) hrun hlocate (hstaged ▸ hfound)⟩

/-- A run over a directory with one module can be run again. -/
theorem shorten_again_withModule :
    ∃ disk' report, withModule.shorten .bounded (usual false) "t" ⟨"."⟩ =
        (disk', .ok (.accepted [.unspaced ⟨"./a.js"⟩] .ofUnspacedRun report)) ∧
      disk'.locate {} ⟨"."⟩ = .ok [⟨"./a.js"⟩] ∧
      ∃ disk'', disk'.shorten .bounded (usual false) "t" ⟨"."⟩ =
        (disk'', .ok (.accepted [.unspaced ⟨"./a.js"⟩] .ofUnspacedRun report)) ∧ disk'.Same disk'' := by
  have htree : withModule.IsTree :=
    .of_flat (by decide) (List.forall_mem_singleton.2 ⟨_, isName_here.1, rfl⟩)
  have hlinks : ∀ location link, withModule.at? location ≠ some (.link link) := by
    intro location link hentry
    cases location with
    | nil => cases hentry
    | cons first names => cases List.mem_singleton.1 (Table.mem_of_get? hentry)
  have hlocate : withModule.locate {} ⟨"."⟩ = .ok [⟨"./a.js"⟩] :=
    locate_here rfl rfl rfl fun _ h => absurd h List.not_mem_nil
  obtain ⟨disk', report, h, -⟩ := exists_shorten_directory htree rfl hlocate rfl rfl
    (plain_of_eq_none rfl) (plain_of_eq_none rfl)
  obtain ⟨hundisturbed, hagain⟩ := shorten_again htree (isDirectory_iff.2 ⟨[], stat_here rfl⟩) h
  obtain ⟨⟨paths, hpaths, hpaths'⟩, hrun⟩ := hagain (hundisturbed hlinks)
  obtain rfl := Except.ok.inj (hlocate.symm.trans hpaths)
  exact ⟨disk', report, h, hpaths', hrun⟩

/-! ## A link to where an artifact goes -/

/-- A disk with a module, and with a link to where the artifact of the module goes. -/
def withStrayLink : Disk :=
  { entries := [(["a.js"], .file "12345678; ".toUTF8), (["b.js"], .link ⟨"a.optimized.js"⟩)] }

/-- The link is followed whether something is where it leads or not. -/
theorem follow_strayLink {disk : Disk} (hhome : disk.workingDirectory = [])
    (hlink : disk.at? ["b.js"] = some (.link ⟨"a.optimized.js"⟩))
    (hplain : ∀ target, disk.at? ["a.optimized.js"] ≠ some (.link target)) :
    disk.follow ⟨"./b.js"⟩ = .ok (["a.optimized.js"], false) := by
  have haim : disk.aimFrom linkLimit [] ⟨"./b.js"⟩ = .ok (.name [] "b.js" false, linkLimit) := by
    have hparts : parts ⟨"./b.js"⟩ = [".", "b.js"] := by decide +kernel
    have hslash : endsInSlash ⟨"./b.js"⟩ = false := by decide +kernel
    have hrelative : Path.isAbsolute ⟨"./b.js"⟩ = false := by decide +kernel
    have hshort : "b.js".utf8ByteSize ≤ nameLimit := by decide
    rw [aimFrom, if_neg (by decide), if_neg (by decide), hparts]
    simp [walk, origin, hrelative, hslash, Nat.not_lt.2 hshort]
  have hinner : disk.followFrom (linkLimit - 1) [] ⟨"a.optimized.js"⟩ linkLimit =
      .ok (["a.optimized.js"], false) :=
    followFrom_name (aimFrom_of_isSingleName disk names_evaluate.1.2.2.1 (linkLimit - 1) []) hplain
  rw [follow, hhome, followFrom_link haim hlink, if_neg (by decide), hinner]
  rfl

/-- **A link to where an artifact goes is found once the artifact is there**, although artifacts are no
modules: a second run is about one module more. -/
theorem artifact_found_again :
    ∃ disk' report, withStrayLink.shorten .bounded (usual false) "t" ⟨"."⟩ =
        (disk', .ok (.accepted [.unspaced ⟨"./a.js"⟩] .ofUnspacedRun report)) ∧
      withStrayLink.isDirectory ⟨"."⟩ = true ∧ withStrayLink.locate {} ⟨"."⟩ = .ok [⟨"./a.js"⟩] ∧
      disk'.locate {} ⟨"."⟩ ≠ .ok [⟨"./a.js"⟩] := by
  have hname : IsName "b.js" := ⟨by decide, by decide, by decide, by decide, by decide⟩
  have hjoin : Path.join ⟨"."⟩ "b.js" = ⟨"./b.js"⟩ := by decide +kernel
  have htree : withStrayLink.IsTree :=
    .of_flat (by decide) (List.forall_mem_cons.2 ⟨⟨_, isName_here.1, rfl⟩,
      List.forall_mem_singleton.2 ⟨_, hname, rfl⟩⟩)
  have hlocate : withStrayLink.locate {} ⟨"."⟩ = .ok [⟨"./a.js"⟩] := by
    have hstat : withStrayLink.stat (Path.join ⟨"."⟩ "b.js") = .error .notFound := by
      rw [hjoin, stat, follow_strayLink rfl rfl (plain_of_eq_none rfl).2]
      rfl
    exact locate_here rfl rfl rfl (List.forall_mem_singleton.2 ⟨.notFound, hstat⟩)
  obtain ⟨disk', report, h, hleaves⟩ := exists_shorten_directory htree rfl hlocate rfl rfl
    (plain_of_eq_none rfl) (plain_of_eq_none rfl)
  refine ⟨disk', report, h, isDirectory_iff.2 ⟨[], stat_here rfl⟩, hlocate, fun hagain => ?_⟩
  have hhome : disk'.workingDirectory = [] := hleaves.puts.workingDirectory
  have hlink : disk'.at? ["b.js"] = some (.link ⟨"a.optimized.js"⟩) := by
    rw [hleaves.puts.off fun hmem => ?_]
    · rfl
    · rcases mem_places_directoryArtifacts rfl hmem with h | h <;> exact absurd h (by decide)
  obtain ⟨a, -, -, hfile⟩ : ∃ a ∈ directoryArtifacts, withStrayLink.Names a.path ["a.optimized.js"] ∧
      disk'.at? ["a.optimized.js"] = some (.file a.text.toUTF8) := by
    refine hleaves.puts.exists_file (mem_places.2 ⟨_, List.mem_cons_self, ?_⟩)
    exact (directoryArtifacts_at rfl).1.names (by decide)
  have hstat : disk'.stat (Path.join ⟨"."⟩ "b.js") = .ok (["a.optimized.js"], .file a.text.toUTF8) := by
    rw [hjoin, stat, follow_strayLink hhome hlink (plain_of_eq_file hfile).2]
    dsimp only
    rw [hfile]
    rfl
  have hsome : disk'.at? ([] ++ ["b.js"]) ≠ none := by
    rw [List.nil_append, hlink]
    exact Option.some_ne_none _
  have hfinds : disk'.Finds {} ⟨"."⟩ [] (Path.join ⟨"."⟩ "b.js") :=
    .found .start hsome (by decide) hstat (fun hentry => by cases hentry) (by decide +kernel)
  rw [← mem_locate_iff hleaves.tree' hleaves.stat_target hagain |>.1, hjoin, List.mem_singleton] at hfinds
  exact absurd hfinds (by decide)

end Disk

end Abridge
