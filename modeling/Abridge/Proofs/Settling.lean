import Abridge.Proofs.Placement
import Abridge.Proofs.Promotion

/-!
# Settling after a commit

A run settles its backups when its artifacts are in their places.  A backup compares its module with what it
was, and would write the copy over it if something had changed.  So the modules must not be in the places of
artifacts, not even by way of a link.  If they can be found on the disk without those places, the disk that
the run leaves has them just as the disk before had, and the copies lie on it as if it had been there before
the commit.  So the backups are settled as in a run that does not commit.

## What is here

* `Disk.Puts`, `Disk.Gains`: what a disk has after artifacts were written to it.
* `Disk.commit_puts`, `Disk.exists_commit`: what a commit does, and when it succeeds.
* `Disk.Loads`: what has been loaded, and where the copies are.
* `Disk.settleAll_of_commit`: settling after a commit.
-/

set_option autoImplicit false

namespace Abridge

open Output (usual artifactNames)

namespace Disk

/-! ## Commits -/

/-- The disk with files put in some places, one after the other. -/
def setAll (disk : Disk) (files : List (Location × ByteArray)) : Disk :=
  files.foldl (fun disk file => disk.set file.1 (.file file.2)) disk

/-- The files that artifacts are to become. -/
def files (disk : Disk) (staged : List Artifact) : List (Location × ByteArray) :=
  staged.filterMap fun a => (disk.place? a).map fun location => (location, a.text.toUTF8)

theorem map_fst_files (disk : Disk) (staged : List Artifact) :
    (disk.files staged).map Prod.fst = disk.places staged := by
  rw [files, List.map_filterMap, places]
  congr 1
  funext a
  cases disk.place? a <;> rfl

theorem SameWays.files_eq {disk disk' : Disk} (h : disk.SameWays disk') (staged : List Artifact) :
    disk'.files staged = disk.files staged := by
  rw [files, files, h.place?_eq]

section

variable {files : List (Location × ByteArray)}

theorem workingDirectory_setAll :
    ∀ disk : Disk, (disk.setAll files).workingDirectory = disk.workingDirectory := by
  induction files with
  | nil => exact fun _ => rfl
  | cons file files ih => exact fun disk => ih (disk.set file.1 (.file file.2))

theorem at?_setAll_of_not_mem {location : Location} : ∀ {disk : Disk}, [] ∉ files.map Prod.fst →
    location ∉ files.map Prod.fst → (disk.setAll files).at? location = disk.at? location := by
  induction files with
  | nil => exact fun _ _ => rfl
  | cons file files ih =>
    intro disk hroot hmem
    rw [List.map_cons, List.mem_cons, not_or] at hroot hmem
    change ((disk.set file.1 (.file file.2)).setAll files).at? location = _
    rw [ih hroot.2 hmem.2, at?_set disk (Ne.symm hroot.1), if_neg (Ne.symm hmem.1)]

/-- Where files are put, it does not matter what was there. -/
theorem at?_setAll_of_mem {location : Location} : ∀ (disk disk' : Disk), [] ∉ files.map Prod.fst →
    location ∈ files.map Prod.fst → (disk.setAll files).at? location = (disk'.setAll files).at? location := by
  induction files with
  | nil => exact fun _ _ _ h => absurd h List.not_mem_nil
  | cons file files ih =>
    intro disk disk' hroot hmem
    rw [List.map_cons, List.mem_cons, not_or] at hroot
    rw [List.map_cons] at hmem
    change ((disk.set file.1 (.file file.2)).setAll files).at? location =
      ((disk'.set file.1 (.file file.2)).setAll files).at? location
    by_cases hlater : location ∈ files.map Prod.fst
    · exact ih _ _ hroot.2 hlater
    · obtain rfl := (List.mem_cons.1 hmem).resolve_right hlater
      rw [at?_setAll_of_not_mem hroot.2 hlater, at?_setAll_of_not_mem hroot.2 hlater,
        at?_set disk (Ne.symm hroot.1), at?_set disk' (Ne.symm hroot.1), if_pos rfl, if_pos rfl]

/-- Where files are put, one of them is. -/
theorem exists_at?_setAll {location : Location} : ∀ (disk : Disk), [] ∉ files.map Prod.fst →
    location ∈ files.map Prod.fst →
      ∃ contents, (location, contents) ∈ files ∧
        (disk.setAll files).at? location = some (.file contents) := by
  induction files with
  | nil => exact fun _ _ h => absurd h List.not_mem_nil
  | cons file files ih =>
    intro disk hroot hmem
    rw [List.map_cons, List.mem_cons, not_or] at hroot
    rw [List.map_cons] at hmem
    by_cases hlater : location ∈ files.map Prod.fst
    · obtain ⟨contents, hcontents, hfile⟩ := ih (disk.set file.1 (.file file.2)) hroot.2 hlater
      exact ⟨contents, List.mem_cons_of_mem _ hcontents, hfile⟩
    · obtain rfl := (List.mem_cons.1 hmem).resolve_right hlater
      refine ⟨file.2, List.mem_cons_self, ?_⟩
      change ((disk.set file.1 (.file file.2)).setAll files).at? file.1 = _
      rw [at?_setAll_of_not_mem hroot.2 hlater, at?_set disk (Ne.symm hroot.1), if_pos rfl]

end

/-- **A disk with artifacts in their places**, in none of which a directory was.  An artifact takes the place of
an earlier one. -/
structure Puts (before after : Disk) (staged : List Artifact) : Prop where
  names : ∀ a ∈ staged, ∃ location, before.Names a.path location ∧
    before.at? location ≠ some .directory
  same : (before.setAll (before.files staged)).Same after

/-- **What writing artifacts does to a disk** if no two of them take one place: each of them is in its place, in
which no directory was, and every other location has what it had. -/
structure Gains (before after : Disk) (staged : List Artifact) : Prop where
  workingDirectory : after.workingDirectory = before.workingDirectory
  written : ∀ a ∈ staged, ∃ location, before.Names a.path location ∧
    before.at? location ≠ some .directory ∧ after.at? location = some (.file a.text.toUTF8)
  off : ∀ location, location ∉ before.places staged → after.at? location = before.at? location

theorem root_not_mem_files (disk : Disk) (staged : List Artifact) :
    [] ∉ (disk.files staged).map Prod.fst := by
  rw [map_fst_files]
  exact disk.root_not_mem_places staged

namespace Puts

variable {before after : Disk} {staged : List Artifact}

theorem workingDirectory (h : before.Puts after staged) :
    after.workingDirectory = before.workingDirectory :=
  h.same.workingDirectory.trans (workingDirectory_setAll before)

theorem off (h : before.Puts after staged) {location : Location}
    (hlocation : location ∉ before.places staged) : after.at? location = before.at? location := by
  rw [h.same.entries, at?_setAll_of_not_mem (before.root_not_mem_files staged)]
  rwa [map_fst_files]

/-- In each place is an artifact that goes there. -/
theorem exists_file (h : before.Puts after staged) {location : Location}
    (hlocation : location ∈ before.places staged) :
    ∃ a ∈ staged, before.Names a.path location ∧ after.at? location = some (.file a.text.toUTF8) := by
  rw [← map_fst_files] at hlocation
  obtain ⟨contents, hcontents, hfile⟩ :=
    exists_at?_setAll before (before.root_not_mem_files staged) hlocation
  obtain ⟨a, ha, hplace⟩ := List.mem_filterMap.1 hcontents
  obtain ⟨l, hl, heq⟩ := Option.map_eq_some_iff.1 hplace
  obtain ⟨rfl, rfl⟩ := Prod.mk.inj heq
  exact ⟨a, ha, place?_eq_some.1 hl, (h.same.entries _).trans hfile⟩

theorem gains (h : before.Puts after staged) (hagree : before.Agree staged) :
    before.Gains after staged := by
  refine ⟨h.workingDirectory, fun a ha => ?_, fun _ => h.off⟩
  obtain ⟨location, hnames, hdirectory⟩ := h.names a ha
  obtain ⟨b, hb, hnames', hfile⟩ := h.exists_file (mem_places.2 ⟨a, ha, hnames⟩)
  rw [← hagree a ha b hb location hnames hnames'] at hfile
  exact ⟨location, hnames, hdirectory, hfile⟩

/-- The disk that has nothing where artifacts go has all directories, since artifacts take the place of
none. -/
theorem keeps (h : before.Puts after staged) : (before.without (before.places staged)).Keeps before := by
  refine ⟨without_extends (before.root_not_mem_places staged), fun {l} hl => ?_⟩
  rw [at?_without before (before.root_not_mem_places staged), if_neg, hl]
  intro hmem
  obtain ⟨a, ha, hnames⟩ := mem_places.1 hmem
  obtain ⟨place, hplace, hdirectory⟩ := h.names a ha
  rw [hnames.unique hplace] at hl
  exact hdirectory hl

end Puts

/-- A promotion that does not fail puts the artifacts in their places.  It may be that some artifacts were put
somewhere before. -/
theorem promote_succeeded {before : Disk} {staged : List Artifact} : ∀ {disk disk' : Disk}
    {promoted : List Path} {locations : List Location}, before.Differs disk locations →
      disk.promote promoted staged = (disk', none) →
      disk' = disk.setAll (before.files staged) ∧
        ∀ a ∈ staged, ∃ location, before.Names a.path location ∧
          before.at? location ≠ some .directory := by
  induction staged with
  | nil =>
    intro disk disk' promoted locations _ h
    cases h
    exact ⟨rfl, fun _ ha => absurd ha List.not_mem_nil⟩
  | cons a rest ih =>
    intro disk disk' promoted locations hdiffers h
    rw [promote] at h
    cases hreplace : disk.replace a.path a.text.toUTF8 with
    | error e => rw [hreplace] at h; cases h
    | ok put =>
      rw [hreplace] at h
      obtain ⟨location, hlocation, hentry, rfl⟩ := replace_eq_ok hreplace
      have hname : before.Names a.path location := hlocation.mono hdiffers.leads
      have hfiles : before.files (a :: rest) = (location, a.text.toUTF8) :: before.files rest := by
        refine List.filterMap_cons_some ?_
        rw [place?_eq_some.2 hname, Option.map_some]
      have hbefore : before.at? location ≠ some .directory := by
        by_cases hmem : location ∈ locations
        · exact hdiffers.notDirectory location hmem
        · rwa [← hdiffers.off location hmem]
      obtain ⟨hput, hrest⟩ := ih (hdiffers.set hlocation.ne_nil hentry _) h
      rw [hfiles]
      exact ⟨hput, List.forall_mem_cons.2 ⟨⟨location, hname, hbefore⟩, hrest⟩⟩

variable {disk disk' : Disk} {staged : List Artifact}

/-- **A commit puts the artifacts in their places.** -/
theorem commit_puts (h : disk.commit staged = (disk', none)) : disk.Puts disk' staged := by
  rw [commit] at h
  split at h
  · cases h
  · obtain ⟨hput, hnames⟩ := promote_succeeded (.refl disk) h
    exact ⟨hnames, hput ▸ .refl _⟩

/-- The directories around artifacts that are committed take files. -/
theorem openDirectory_of_commit (h : disk.commit staged = (disk', none)) :
    ∀ a ∈ staged, ∃ location, disk.openDirectory a.path.directory = .ok location := by
  rw [commit] at h
  cases hstaging : disk.stagingFailure staged with
  | some e => rw [hstaging] at h; cases h
  | none =>
    intro a ha
    have hnone := List.findSome?_eq_none_iff.1 hstaging a ha
    cases hopen : disk.openDirectory a.path.directory with
    | error e => rw [hopen] at hnone; cases hnone
    | ok location => exact ⟨location, rfl⟩

/-- A promotion succeeds when every artifact has a place that no way leads through. -/
theorem exists_promote {staged : List Artifact} : ∀ {disk : Disk} (promoted : List Path),
    (∀ a ∈ staged, ∃ location, disk.Names a.path location ∧ disk.Plain location) →
      ∃ disk', disk.promote promoted staged = (disk', none) := by
  induction staged with
  | nil => exact fun {disk} _ _ => ⟨disk, rfl⟩
  | cons a rest ih =>
    intro disk promoted h
    obtain ⟨⟨location, hnames, hplain⟩, hrest⟩ := List.forall_mem_cons.1 h
    rw [promote, hnames.replace_eq hplain.1]
    refine ih _ fun b hb => ?_
    obtain ⟨place, hplace, hentry⟩ := hrest b hb
    have hdiffers := (Differs.refl disk).set hnames.ne_nil hplain.1 a.text.toUTF8
    refine ⟨place, hplace.mono (hdiffers.sameWays (by simpa using hplain)).1, ?_⟩
    by_cases heq : place ∈ [location]
    · exact hdiffers.plain place heq
    · rwa [Plain, hdiffers.off place heq]

/-- **A commit succeeds** when the directories around the artifacts take files, and the artifacts have
places that no way leads through. -/
theorem exists_commit {disk : Disk} {staged : List Artifact}
    (hopen : ∀ a ∈ staged, ∃ location, disk.openDirectory a.path.directory = .ok location)
    (hplace : ∀ a ∈ staged, ∃ location, disk.Names a.path location ∧ disk.Plain location) :
    ∃ disk', disk.commit staged = (disk', none) := by
  rw [commit, stagingFailure_eq_none hopen]
  exact exists_promote [] hplace

theorem SameWays.openDirectory (h : disk.SameWays disk') {p : Path}
    {location : Location} (hopen : disk.openDirectory p = .ok location) :
    disk'.openDirectory p = .ok location := by
  rw [Disk.openDirectory] at hopen ⊢
  cases hstat : disk.stat p with
  | error e => rw [hstat] at hopen; cases hopen
  | ok r =>
    obtain ⟨location', entry⟩ := r
    rw [hstat] at hopen
    cases entry with
    | directory =>
      have hentry := stat_eq_ok hstat
      rw [h.stat hstat (by rw [h.1.directory hentry, hentry])]
      exact hopen
    | file contents => cases hopen
    | link target => cases hopen

end Disk

/-! ## Copies beside their modules -/

namespace Backup

/-- The copy of a backup goes beside its file, wherever that is, under a name made from the name of the
file. -/
def IsBeside (b : Backup) (name : String) : Prop :=
  ∃ copy, Output.IsCopyName name copy ∧ copy.utf8ByteSize ≤ Disk.nameLimit ∧
    ∀ {disk : Disk} {location : Location}, disk.At b.source location name → disk.At b.copy location copy

end Backup

namespace Disk

/-- A file can be created under a name, so the name is not too long. -/
theorem At.short_of_create {disk disk' : Disk} {p : Path} {location : Location} {name : String}
    (h : disk.At p location name) {contents : ByteArray} (hcreate : disk.create p contents = .ok disk') :
    name.utf8ByteSize ≤ nameLimit := by
  by_contra hlong
  rw [create, h.aim_eq, if_pos (Nat.lt_of_not_le hlong)] at hcreate
  cases hcreate

end Disk

/-- **A copy is made beside its file.** -/
theorem Backup.isBeside_of_create {disk disk' : Disk} {p : Path} {b : Backup} {location : Location}
    {name : String} (hat : disk.At p location name)
    (h : Backup.create disk p ".bak" = .ok (b, disk')) : b.source = p ∧ b.IsBeside name := by
  obtain ⟨contents, made, -, hsource, -, -, hcopy, hcreate, -⟩ := exists_of_create h
  suffices hbeside : ∃ copy, Output.IsCopyName name copy ∧ ∀ {disk : Disk} {location : Location},
      disk.At p location name → disk.At b.copy location copy by
    obtain ⟨copy, hname, hbeside⟩ := hbeside
    exact ⟨hsource, copy, hname, (hbeside hat).short_of_create hcreate, hsource.symm ▸ hbeside⟩
  rcases hcopy with hcopy | ⟨n, hcopy⟩
  · have hname := Output.isCopyName_append hat.isName
    exact ⟨_, hname, fun hat => hcopy ▸ hat.append hname.isName⟩
  · have hname := Output.isCopyName_drawn hat.isName n
    rw [hat.fileName?_eq, Option.getD_some] at hcopy
    exact ⟨_, hname, fun hat => hcopy ▸ hat.beside hname.isName⟩

namespace Disk

/-! ## Loading -/

/-- What has been loaded of some modules of a disk: their backups, each with a copy beside its module, and
their texts as they are on the disk. -/
structure Loads (before : Disk) (paths : List Path) (loaded : Loaded) : Prop where
  backups : ∀ b ∈ loaded.backups, b.source ∈ paths ∧
    ∀ location name, before.At b.source location name → b.IsBeside name
  modules : ∀ m ∈ loaded.modules, m.path ∈ paths ∧ before.readText m.path = .ok m.text

/-- Loading adds copies to the disk, each beside its module, and takes the texts as they are. -/
theorem loads_of_loadModules {before disk : Disk} {goOn : Bool} {paths : List Path} {loaded : Loaded}
    {failure : Option Failure} (hstat : ∀ p ∈ paths, ∃ r, before.stat p = .ok r)
    (hload : before.loadModules ".bak" goOn {} paths = (disk, loaded, failure)) :
    ∃ locations, before.Holds disk loaded.backups locations ∧ before.Loads paths loaded := by
  refine loadModulesOn_invariant (P := fun disk loaded => ∃ locations,
      before.Holds disk loaded.backups locations ∧ before.Loads paths loaded) ?_ ?_
    ⟨[], .refl before, fun _ hb => absurd hb List.not_mem_nil, fun _ hm => absurd hm List.not_mem_nil⟩ hload
  · rintro p hp disk disk' loaded b m ⟨locations, hholds, h⟩ hmodule
    obtain ⟨r, hr⟩ := hstat p hp
    obtain ⟨rfl, htext, hcreate⟩ := loadModule_eq_ok hmodule
    rw [readText, hholds.read_eq hr, ← readText] at htext
    obtain ⟨location, hnext⟩ := hholds.create hr hcreate
    refine ⟨_, hnext, fun x hx => ?_, fun x hx => ?_⟩
    · rcases List.mem_append.1 hx with hx | hx
      · exact h.backups x hx
      · rw [List.mem_singleton.1 hx]
        obtain ⟨-, -, hsource, -⟩ := Backup.create_eq_ok hcreate
        rw [hsource]
        refine ⟨hp, fun location name hat => ?_⟩
        exact (Backup.isBeside_of_create (hat.mono hholds.sameWays.1) hcreate).2
    · rcases List.mem_append.1 hx with hx | hx
      · exact h.modules x hx
      · rw [List.mem_singleton.1 hx]
        exact ⟨hp, htext⟩
  · rintro p - disk disk' loaded e ⟨locations, hholds, h⟩ hmodule failed
    exact ⟨locations, hholds.congr (same_of_loadModule hmodule), h.backups, h.modules⟩

/-! ## After the commit -/

/-- **Settling after a commit takes the copies away and leaves the artifacts.**  The modules are found
where they were and have not changed; so it is as if the copies lay on the disk that the run leaves. -/
theorem settleAll_puts {before copied written : Disk} {staged : List Artifact} {paths : List Path}
    {loaded : Loaded} {locations : List Location} (hfound : before.FoundWithout paths staged)
    (hat : ∀ p ∈ paths, ∃ location name, before.At p location name)
    (hholds : before.Holds copied loaded.backups locations) (hloads : before.Loads paths loaded)
    (hapart : ∀ location ∈ locations, location ∉ before.places staged)
    (hcommit : copied.commit staged = (written, none)) :
    ∃ after, Backup.settleAll written false loaded.backups = (after, none) ∧ before.Puts after staged ∧
      (before.without (before.places staged)).Extends after := by
  have hways := hholds.sameWays
  have hputs : copied.Puts written staged := commit_puts hcommit
  have hplaces := hways.places_eq staged
  have hroot : [] ∉ locations := fun h => Option.some_ne_none _ (hholds.free h)
  -- The disk that is left, and the part of it that was there before.
  have hkept : ∀ l, l ∉ before.places staged → (written.without locations).at? l = before.at? l := by
    intro l hl
    rw [at?_without written hroot]
    split
    · rename_i hmem
      exact (hholds.free hmem).symm
    · rename_i hmem
      rw [hputs.off (hplaces.symm ▸ hl), hholds.differs.off l hmem]
  have hhome : written.workingDirectory = before.workingDirectory :=
    hputs.workingDirectory.trans hholds.differs.workingDirectory
  have hbefore : (before.without (before.places staged)).Extends before :=
    without_extends (before.root_not_mem_places staged)
  have hafter : ∀ {disk : Disk}, (written.without locations).Same disk →
      (before.without (before.places staged)).Extends disk := by
    intro disk hsame
    refine ⟨hsame.workingDirectory.trans hhome, fun {l e} hl => ?_⟩
    rw [at?_without before (before.root_not_mem_places staged)] at hl
    split at hl
    · cases hl
    · rename_i hmem
      rw [hsame.entries, hkept l hmem, hl]
  have hcopies : ∀ l ∈ locations, ∃ contents, written.at? l = some (.file contents) := by
    intro l hl
    rw [hputs.off (hplaces.symm ▸ hapart l hl)]
    exact hholds.files l hl
  have hfinal : (written.without locations).Holds written loaded.backups locations := by
    refine ⟨⟨rfl, fun l hl => ?_, fun l hl => ?_, fun l hl => ?_⟩,
      List.forall₂_iff_zip.2 ⟨hholds.backups.length_eq, fun {b l} hmem => ?_⟩, hcopies, hholds.nodup⟩
    · rw [at?_without written hroot, if_neg hl]
    · obtain ⟨contents, hfile⟩ := hcopies l hl
      exact plain_of_eq_file hfile
    · rw [at?_without written hroot, if_pos hl]
      exact (Option.some_ne_none _).symm
    · obtain ⟨hb, hl⟩ := List.of_mem_zip hmem
      obtain ⟨hnames, hfree, contents, hread, hprint⟩ := (List.forall₂_iff_zip.1 hholds.backups).2 hmem
      obtain ⟨hsource, hbeside⟩ := hloads.backups b hb
      obtain ⟨location, name, hname⟩ := hat b.source hsource
      obtain ⟨copy, -, hshort, hcopy⟩ := hbeside location name hname
      obtain ⟨r, hr⟩ := hfound b.source hsource
      have hless := hname.of_stat hbefore.leads hr
      obtain rfl : location ++ [copy] = l := ((hcopy hname).names hshort).unique hnames
      refine ⟨(hcopy (hless.mono (hafter (.refl _)).leads)).names hshort, ?_, contents, ?_, hprint⟩
      · rw [at?_without written hroot, if_pos hl]
      · rw [(hafter (.refl _)).read hr, ← hbefore.read hr, hread]
  obtain ⟨after, hsettle, hsame⟩ := Backup.settleAll_holds hfinal
  refine ⟨after, hsettle, ⟨fun a ha => ?_, ?_, fun l => ?_⟩, hafter hsame⟩
  · obtain ⟨l, hnames, hdirectory⟩ := hputs.names a ha
    exact ⟨l, hways.names_iff.1 hnames, mt hways.1.directory hdirectory⟩
  · rw [hsame.workingDirectory, workingDirectory_setAll]
    exact hhome
  · rw [hsame.entries]
    by_cases hl : l ∈ before.places staged
    · have hlocations : l ∉ locations := fun hmem => hapart l hmem hl
      rw [at?_without written hroot, if_neg hlocations, hputs.same.entries, hways.files_eq]
      rw [← map_fst_files] at hl
      exact at?_setAll_of_mem _ _ (before.root_not_mem_files staged) hl
    · rw [hkept l hl, at?_setAll_of_not_mem (before.root_not_mem_files staged)]
      rwa [map_fst_files]

/-- **No copy is in the place of an artifact.** -/
theorem apart_of_loads {before copied : Disk} (htree : before.IsTree) {target : Path} {paths : List Path}
    (hlocate : before.locate {} target = .ok paths) {loaded : Loaded} {locations : List Location}
    (hholds : before.Holds copied loaded.backups locations) (hloads : before.Loads paths loaded)
    {modules : List ModuleOutput} (hmodules : ∀ m ∈ modules, m.path ∈ paths) (emitMap : Bool)
    (manifest : Manifest) :
    ∀ location ∈ locations,
      location ∉ before.places (before.artifactsOf (usual emitMap) target modules manifest) := by
  intro place hplace hmem
  obtain ⟨i, hi, rfl⟩ := List.getElem_of_mem hplace
  have hi' : i < loaded.backups.length := hholds.backups.length_eq ▸ hi
  have hof := (List.forall₂_iff_get.1 hholds.backups).2 i hi' hi
  obtain ⟨hsource, hbeside⟩ := hloads.backups _ (List.getElem_mem hi')
  obtain ⟨-, location, name, -, hat, hmodule⟩ := htree.exists_at_of_mem_locate hlocate hsource
  obtain ⟨copy, hcopy, -, hcopyAt⟩ := hbeside location name hat
  have hcopyAt := (hcopyAt hat).location_eq hof.names
  obtain ⟨a, ha, hnames⟩ := mem_places.1 hmem
  have hlast : ∀ {location' : Location} {n : String}, before.At a.path location' n → n = copy := by
    intro location' n hn
    have heq := (hn.location_eq hnames).symm.trans hcopyAt
    exact List.singleton_inj.1 (List.append_inj' heq rfl).2
  cases hdirectory : before.isDirectory target with
  | true =>
    obtain ⟨root, hroot⟩ := isDirectory_iff.1 hdirectory
    obtain ⟨_, other, n, hother, hname, hn, hplace⟩ :=
      kind_of_mem_places htree hroot hlocate hmodules (mem_places.2 ⟨a, ha, hnames⟩)
    obtain rfl := List.singleton_inj.1 (List.append_inj' (hcopyAt.symm.trans hplace) rfl).2
    exact Output.not_mem_of_isCopyName hother hname hat.isName hcopy hn
  | false =>
    rw [artifactsOf, if_neg (by rw [hdirectory]; exact Bool.false_ne_true)] at ha
    obtain rfl := locate_file hlocate hdirectory
    rcases mem_artifacts ha with ⟨m, hm, ha⟩ | hrun
    · have hsame : m.path = loaded.backups[i].source :=
        (List.mem_singleton.1 (hmodules m hm)).trans (List.mem_singleton.1 hsource).symm
      obtain ⟨n, hn, hnat⟩ := exists_at_of_mem_artifactsFor ha (hsame ▸ hat)
      refine Output.not_mem_artifacts_of_isCopyName hat.isName hcopy ?_
      rw [← hlast hnat]
      simpa [artifactNames] using hn
    · cases hrun

/-- **A run whose modules can be found without its artifacts settles its backups**: the copies go, the artifacts
stay, and what was found without them is there. -/
theorem settleAll_of_commit {disk copied written : Disk} (htree : disk.IsTree) {target : Path}
    {paths : List Path} (hlocate : disk.locate {} target = .ok paths) {loaded : Loaded}
    (hload : disk.loadModules ".bak" (disk.isDirectory target) {} paths = (copied, loaded, none))
    {modules : List ModuleOutput} (hmodules : ∀ m ∈ modules, m.path ∈ paths) {emitMap : Bool}
    {manifest : Manifest} {staged : List Artifact}
    (hstaged : disk.artifactsOf (usual emitMap) target modules manifest = staged)
    (hfound : disk.FoundWithout paths staged) (hcommit : copied.commit staged = (written, none)) :
    ∃ after, Backup.settleAll written false loaded.backups = (after, none) ∧
      disk.Puts after staged ∧ (disk.without (disk.places staged)).Extends after := by
  have hstat : ∀ q ∈ paths, ∃ r, disk.stat q = .ok r := fun q hq => stat_of_mem_locate hlocate hq
  have hat : ∀ q ∈ paths, ∃ location name, disk.At q location name := fun q hq => by
    obtain ⟨-, location, name, -, hat, -⟩ := htree.exists_at_of_mem_locate hlocate hq
    exact ⟨location, name, hat⟩
  obtain ⟨locations, hholds, hloads⟩ := loads_of_loadModules hstat hload
  have hapart := apart_of_loads htree hlocate hholds hloads hmodules emitMap manifest
  rw [hstaged] at hapart
  exact settleAll_puts hfound hat hholds hloads hapart hcommit

end Disk

end Abridge
