import Abridge.Proofs.Effects

/-!
# Paths that collide

A run over one file makes four or five paths from the path of the file and the texts of its options: the copy,
the shortened text, the map, the manifest.  Nothing keeps these texts apart.  The artifacts are put in their
places over whatever is there, the copy and the file included, and settling then removes what is at the path of
the copy.

If what the paths mean is apart (`Disk.Apart`), an accepted run delivers what it reports, and if not, it does
not (`Disk.shorten_file`).  A manifest in the place of the copy is removed with it, although the run is accepted
(`Disk.manifest_removed`).

## What is here

* `Disk.Apart`, `Disk.Delivers`: what must not collide, and what an accepted run reports.
* `Disk.Written`: the disk when the artifacts are in their places and the backup is not settled.
* `Disk.Written.delivers`, `Disk.Written.apart`: settling the backup, for paths that are apart and from what it
  delivers.
* `Disk.shorten_file`: accepted runs over one file.
-/

set_option autoImplicit false

namespace Abridge

namespace Disk

/-! ## Paths on disks with fewer ways -/

/-- What is found at a path that names a location on another disk, is found at that location. -/
theorem Leads.names_of_stat {less disk : Disk} (h : less.Leads disk) {p : Path} {place : Location}
    (hnames : disk.Names p place) {r : Location × Entry} (hstat : less.stat p = .ok r) :
    less.Names p place := by
  obtain ⟨parent, name, haim, hplace⟩ := hnames
  obtain ⟨a, hless⟩ := exists_aimFrom_of_stat hstat
  have hless : less.aim p = .ok a.1 := by rw [Disk.aim, hless]; rfl
  obtain heq := Except.ok.inj ((h.aim hless).symm.trans haim)
  exact ⟨parent, name, by rw [hless, heq], hplace⟩

/-- A path that means a file means what is there on another disk, too. -/
theorem Leads.stat_file {less disk : Disk} (h : less.Leads disk) {p : Path} {location : Location}
    {contents contents' : ByteArray} (hstat : less.stat p = .ok (location, .file contents))
    (hfile : disk.at? location = some (.file contents')) :
    disk.stat p = .ok (location, .file contents') := by
  have hfollow := h.follow (follow_of_stat_file hstat Entry.noConfusion) fun target hlink => by
    rw [hfile] at hlink
    cases hlink
  rw [stat, hfollow]
  dsimp only
  rw [hfile]
  rfl

/-- What is read by a path that names a location on another disk, is there. -/
theorem Leads.at?_of_read {less disk : Disk} (h : less.Leads disk) {p : Path} {place : Location}
    {contents : ByteArray} (hnames : disk.Names p place) (hplain : less.Plain place)
    (hread : less.read p = .ok contents) :
    less.Names p place ∧ less.at? place = some (.file contents) := by
  obtain ⟨location, hstat⟩ := read_eq_ok hread
  have hless := h.names_of_stat hnames hstat
  refine ⟨hless, ?_⟩
  cases hentry : less.at? place with
  | none =>
    rw [hless.stat_eq_error hentry] at hstat
    cases hstat
  | some entry =>
    cases entry with
    | directory => exact absurd hentry hplain.1
    | link target => exact absurd hentry (hplain.2 target)
    | file there =>
      rw [hless.stat_eq hentry] at hstat
      cases hstat
      rfl

/-! ## What must not collide, and what a run reports -/

/-- **The paths of a run are apart**: without what is in the places of artifacts, the file can be found, and the
paths of artifacts can be gone; the copy is in none of these places; and artifacts that go to one place have one
text. -/
structure Apart (disk : Disk) (target copy : Path) (staged : List Artifact) : Prop where
  original : ∃ r, (disk.without (disk.places staged)).stat target = .ok r
  artifacts : ∀ a ∈ staged, ∃ place, (disk.without (disk.places staged)).Names a.path place
  copy : ∀ place ∈ disk.places staged, ¬ disk.Names copy place
  agree : disk.Agree staged

/-- **What an accepted run over one file reports**: the file reads as before, and its artifacts are there. -/
structure Delivers (disk disk' : Disk) (o : Output) (manifest : Manifest) (m : ModuleOutput) : Prop where
  original : disk'.read m.path = disk.read m.path
  optimized : disk'.read (o.optimizedPath m.path) = .ok m.after.toUTF8
  positionMap : ∀ map, m.positionMap = some map →
    disk'.read (o.positionMapPath m.path) = .ok map.text.toUTF8
  manifest : disk'.read (o.manifestPath m.path) = .ok manifest.text.toUTF8

theorem delivers_iff {disk disk' : Disk} {o : Output} {manifest : Manifest} {m : ModuleOutput} :
    disk.Delivers disk' o manifest m ↔ disk'.read m.path = disk.read m.path ∧
      ∀ a ∈ artifactsFor o manifest true m, disk'.read a.path = .ok a.text.toUTF8 := by
  have hartifacts : (∀ a ∈ artifactsFor o manifest true m, disk'.read a.path = .ok a.text.toUTF8) ↔
      disk'.read (o.optimizedPath m.path) = .ok m.after.toUTF8 ∧
        (∀ map, m.positionMap = some map → disk'.read (o.positionMapPath m.path) = .ok map.text.toUTF8) ∧
        disk'.read (o.manifestPath m.path) = .ok manifest.text.toUTF8 := by
    rw [artifactsFor]
    cases m.positionMap <;> simp
  rw [hartifacts]
  exact ⟨fun h => ⟨h.original, h.optimized, h.positionMap, h.manifest⟩,
    fun h => ⟨h.1, h.2.1, h.2.2.1, h.2.2.2⟩⟩

/-! ## When the artifacts are in their places -/

/-- **A disk with a copy and artifacts**, where there was a file.  In each place of artifacts is one of them,
and the copy is where nothing was, unless it is in such a place. -/
structure Written (disk written : Disk) (b : Backup) (staged : List Artifact) (copy : Location)
    (old : ByteArray) : Prop where
  read : disk.read b.source = .ok old
  print : b.fingerprint = fingerprint old
  names : disk.Names b.copy copy
  free : disk.at? copy = none
  workingDirectory : written.workingDirectory = disk.workingDirectory
  placed : ∀ a ∈ staged, ∃ place, disk.Names a.path place ∧ disk.at? place ≠ some .directory
  file : ∀ place ∈ disk.places staged, ∃ a ∈ staged, disk.Names a.path place ∧
    written.at? place = some (.file a.text.toUTF8)
  copied : copy ∉ disk.places staged → written.at? copy = some (.file old)
  off : ∀ location, location ∉ disk.places staged → location ≠ copy →
    written.at? location = disk.at? location

variable {disk disk' copied written : Disk} {target : Path} {suffix : String} {b : Backup}
  {staged : List Artifact} {copy : Location} {old : ByteArray} {restored : Bool}

/-- A file is copied aside, and artifacts are written. -/
theorem exists_written (hcreate : Backup.create disk target suffix = .ok (b, copied))
    (hcommit : copied.commit staged = (written, none)) :
    b.source = target ∧ ∃ copy old, disk.Written written b staged copy old := by
  obtain ⟨old, copy, hsource, hread, hprint, hnames, hfree, hsame⟩ := Backup.create_eq_ok hcreate
  have hne := hnames.ne_nil
  have hcopied : ∀ location, copied.at? location =
      if copy = location then some (.file old) else disk.at? location := fun location => by
    rw [hsame.entries, at?_set disk hne]
  have hways : disk.SameWays copied :=
    ((plain_of_eq_none hfree).sameWays_set hne old).trans hsame.sameWays
  have hputs := commit_puts hcommit
  refine ⟨hsource, copy, old, hsource ▸ hread, hprint, hnames, hfree, ?_, fun a ha => ?_, fun place hplace => ?_,
    fun hcopy => ?_, fun location hlocation hother => ?_⟩
  · exact hputs.workingDirectory.trans hways.1.workingDirectory
  · obtain ⟨place, hplace, hentry⟩ := hputs.names a ha
    exact ⟨place, hways.names_iff.1 hplace, fun h => hentry (hways.1.directory h)⟩
  · rw [← hways.places_eq] at hplace
    obtain ⟨a, ha, hname, hfile⟩ := hputs.exists_file hplace
    exact ⟨a, ha, hways.names_iff.1 hname, hfile⟩
  · rw [← hways.places_eq] at hcopy
    rw [hputs.off hcopy, hcopied, if_pos rfl]
  · rw [← hways.places_eq] at hlocation
    rw [hputs.off hlocation, hcopied, if_neg (Ne.symm hother)]

/-- Removing something leaves part of a disk. -/
theorem unset_extends {location : Location} (hne : location ≠ []) : (disk.unset location).Extends disk := by
  refine ⟨rfl, fun {l entry} hentry => ?_⟩
  rw [at?_unset disk hne] at hentry
  split at hentry
  · cases hentry
  · exact hentry

namespace Written

/-- Artifacts and copies take ways away, but make none. -/
theorem leads (h : disk.Written written b staged copy old) : written.Leads disk := by
  have hway : ∀ {location : Location} {entry : Entry}, written.at? location = some entry →
      (∀ contents, entry ≠ .file contents) → disk.at? location = some entry := by
    intro location entry hentry hfile
    by_cases hplace : location ∈ disk.places staged
    · obtain ⟨a, -, -, hartifact⟩ := h.file location hplace
      exact absurd (Option.some_inj.1 (hentry.symm.trans hartifact)) (hfile _)
    · by_cases hcopy : location = copy
      · subst hcopy
        exact absurd (Option.some_inj.1 (hentry.symm.trans (h.copied hplace))) (hfile _)
      · rwa [← h.off location hplace hcopy]
  exact ⟨h.workingDirectory.symm, fun hl => hway hl fun _ => Entry.noConfusion,
    fun hl => hway hl fun _ => Entry.noConfusion⟩

/-- The disk without what is in the places of artifacts is part of the disk with the artifacts, and stays so
when the copy goes. -/
theorem extends_unset (h : disk.Written written b staged copy old) :
    (disk.without (disk.places staged)).Extends (written.unset copy) := by
  refine ⟨h.workingDirectory, fun {location entry} hentry => ?_⟩
  rw [at?_without disk (disk.root_not_mem_places staged)] at hentry
  split at hentry
  · cases hentry
  · rename_i hplace
    have hother : location ≠ copy := fun heq => by
      rw [heq, h.free] at hentry
      cases hentry
    rwa [at?_unset written h.names.ne_nil, if_neg (Ne.symm hother), h.off location hplace hother]

/-- What is removed with the copy is what is in its place. -/
theorem eq_unset (h : disk.Written written b staged copy old) {settled : Disk} (hleads : settled.Leads disk)
    (hremove : settled.remove b.copy = .ok disk') : disk' = settled.unset copy := by
  obtain ⟨location, hnames, -, -, rfl⟩ := remove_eq_ok hremove
  rw [(hnames.mono hleads).unique h.names]

end Written

/-- **How a backup is settled** that is not kept: the file is as it was or the copy is written over it, and then
the copy is removed. -/
theorem settle_eq_ok {settled : Disk} (h : b.settle disk false = (settled, .ok restored)) :
    (b.verify disk = true ∧ disk.remove b.copy = .ok settled ∧ restored = false) ∨
      ∃ contents restoring, b.verify disk = false ∧ disk.read b.copy = .ok contents ∧
        disk.write b.source contents = .ok restoring ∧ restoring.remove b.copy = .ok settled ∧
        restored = true := by
  have hdiscard : ∀ {d : Disk} {r : Bool}, b.discard d false r = (settled, .ok restored) →
      d.remove b.copy = .ok settled ∧ restored = r := by
    intro d r hd
    rw [Backup.discard, if_neg Bool.false_ne_true] at hd
    cases hremove : d.remove b.copy with
    | error e => rw [hremove] at hd; cases hd
    | ok removed => rw [hremove] at hd; cases hd; exact ⟨rfl, rfl⟩
  rw [Backup.settle] at h
  cases hverify : b.verify disk with
  | true =>
    rw [hverify, if_pos rfl] at h
    exact .inl ⟨rfl, hdiscard h⟩
  | false =>
    rw [hverify, if_neg Bool.false_ne_true, Backup.restore] at h
    cases hread : disk.read b.copy with
    | error e => rw [hread] at h; cases h
    | ok contents =>
      rw [hread] at h
      dsimp only at h
      cases hwrite : disk.write b.source contents with
      | error e => rw [hwrite] at h; cases h
      | ok restoring =>
        rw [hwrite] at h
        obtain ⟨hremove, hrestored⟩ := hdiscard h
        exact .inr ⟨contents, restoring, rfl, rfl, hwrite, hremove, hrestored⟩

/-! ## Settling -/

namespace Written

/-- **With paths that are apart, settling delivers.**  The file is not restored. -/
theorem delivers (h : disk.Written written b staged copy old)
    (hsettle : b.settle written false = (disk', .ok restored)) (hapart : disk.Apart b.source b.copy staged) :
    restored = false ∧ disk.Gains disk' staged ∧ disk'.read b.source = disk.read b.source ∧
      ∀ a ∈ staged, disk'.read a.path = .ok a.text.toUTF8 := by
  have hne := h.names.ne_nil
  have hless : (disk.without (disk.places staged)).Extends disk :=
    without_extends (disk.root_not_mem_places staged)
  obtain ⟨r, hr⟩ := hapart.original
  have hread : written.read b.source = .ok old := by
    have hstat := (unset_extends hne).stat (h.extends_unset.stat hr)
    rw [← h.read, hless.read hr, Disk.read, Disk.read, hr, hstat]
  obtain ⟨-, hremove, hrestored⟩ | ⟨-, -, hverify, -⟩ := settle_eq_ok hsettle
  swap
  · rw [Backup.verify_eq_true hread h.print] at hverify
    cases hverify
  obtain rfl := h.eq_unset h.leads hremove
  have hgains : disk.Gains (written.unset copy) staged := by
    refine ⟨h.workingDirectory, fun a ha => ?_, fun location hlocation => ?_⟩
    · obtain ⟨place, hplace, hdirectory⟩ := h.placed a ha
      have hmem := mem_places.2 ⟨a, ha, hplace⟩
      obtain ⟨a', ha', hplace', hfile⟩ := h.file place hmem
      have hcopy : copy ≠ place := fun heq => hapart.copy place hmem (heq ▸ h.names)
      refine ⟨place, hplace, hdirectory, ?_⟩
      rw [at?_unset written hne, if_neg hcopy, hfile, hapart.agree a ha a' ha' place hplace hplace']
    · rw [at?_unset written hne]
      split
      · rename_i heq
        rw [← heq, h.free]
      · rename_i hother
        exact h.off location hlocation (Ne.symm hother)
  refine ⟨hrestored, hgains, ?_, fun a ha => ?_⟩
  · rw [h.extends_unset.read hr, hless.read hr]
  · obtain ⟨place, hplace⟩ := hapart.artifacts a ha
    obtain ⟨location, hlocation, -, hfile⟩ := hgains.written a ha
    rw [hlocation.unique (hplace.mono hless.leads)] at hfile
    exact read_of_stat ((hplace.mono h.extends_unset.leads).stat_eq hfile)

/-- Where artifacts are, they are files. -/
theorem plain (h : disk.Written written b staged copy old) {place : Location}
    (hplace : place ∈ disk.places staged) : written.Plain place := by
  obtain ⟨a, -, -, hfile⟩ := h.file place hplace
  exact plain_of_eq_file hfile

/-- When all artifacts can be read, none is in the place of the copy, which is removed. -/
theorem copy_not_mem {after : Disk} (hne : copy ≠ []) (hleads : (after.unset copy).Leads disk)
    (hplain : ∀ place ∈ disk.places staged, (after.unset copy).Plain place)
    (hartifacts : ∀ a ∈ staged, (after.unset copy).read a.path = .ok a.text.toUTF8) :
    copy ∉ disk.places staged := by
  intro hmem
  obtain ⟨a, ha, hnames⟩ := mem_places.1 hmem
  obtain ⟨-, hfile⟩ := hleads.at?_of_read hnames (hplain _ hmem) (hartifacts a ha)
  rw [at?_unset after hne, if_pos rfl] at hfile
  cases hfile

/-- A file that reads as before although it was restored is in the place of an artifact, which has its text
then. -/
theorem not_restored (h : disk.Written written b staged copy old)
    (hsettle : b.settle written false = (disk', .ok restored))
    (hother : ∀ a ∈ staged, a.text.toUTF8 ≠ old) (horiginal : disk'.read b.source = .ok old)
    (hartifacts : ∀ a ∈ staged, disk'.read a.path = .ok a.text.toUTF8) : restored = false := by
  have hne := h.names.ne_nil
  obtain ⟨-, -, hrestored⟩ | ⟨contents, restoring, hverify, hcopy, hwrite, hremove, -⟩ := settle_eq_ok hsettle
  · exact hrestored
  exfalso
  obtain ⟨place, hfollow, hdirectory, rfl⟩ := write_eq_ok hwrite
  have hplace : place ≠ [] := by
    rintro rfl
    exact hdirectory rfl
  have hset : (written.set place (.file contents)).Leads written :=
    ((Differs.refl written).set hplace hdirectory contents).leads
  obtain ⟨location, hcopied, -⟩ := remove_eq_ok hremove
  obtain rfl := (hcopied.mono (hset.trans h.leads)).unique h.names
  obtain rfl := h.eq_unset (hset.trans h.leads) hremove
  have hleads := (unset_extends hne).leads.trans hset
  have hat : ∀ l, ((written.set place (.file contents)).unset location).at? l =
      if location = l then none else if place = l then some (.file contents) else written.at? l := fun l => by
    rw [at?_unset _ hne, at?_set written hplace]
  have hplain : ∀ l ∈ disk.places staged,
      ((written.set place (.file contents)).unset location).Plain l :=
    fun l hl => ((h.plain hl).set hplace contents).unset hne
  have hfree := copy_not_mem hne (hleads.trans h.leads) hplain hartifacts
  obtain rfl : contents = old := by
    have hread := read_of_stat ((hcopied.mono hset).stat_eq (h.copied hfree))
    exact Except.ok.inj (hcopy.symm.trans hread)
  -- The file is found where it was written, or it would not have been restored.
  have hsame : ∀ l, written.at? l = some (.file contents) →
      ¬ ((written.set place (.file contents)).unset location).stat b.source = .ok (l, .file contents) := by
    intro l hl hstat
    rw [Backup.verify_eq_true (read_of_stat (hleads.stat_file hstat hl)) h.print] at hverify
    cases hverify
  obtain ⟨found, hstat⟩ := read_eq_ok horiginal
  have hfile := stat_eq_ok hstat
  have hentry := hfile
  rw [hat] at hentry
  split_ifs at hentry with hloc heq
  · obtain rfl := heq
    by_cases hmem : place ∈ disk.places staged
    · obtain ⟨a, ha, hnames⟩ := mem_places.1 hmem
      obtain ⟨-, hartifact⟩ := (hleads.trans h.leads).at?_of_read hnames (hplain _ hmem) (hartifacts a ha)
      rw [hfile] at hartifact
      exact hother a ha (Entry.file.inj (Option.some_inj.1 hartifact)).symm
    · have hoff := h.off place hmem (Ne.symm hloc)
      have hdisk := h.leads.follow hfollow fun target hlink => by rwa [hoff]
      obtain ⟨start, hstart⟩ := read_eq_ok h.read
      obtain ⟨_, hfollow'⟩ := follow_of_stat hstart
      obtain ⟨rfl, -⟩ := Prod.mk.inj (Except.ok.inj (hdisk.symm.trans hfollow'))
      exact hsame place (hoff.trans (stat_eq_ok hstart)) hstat
  · exact hsame found hentry hstat

/-- **What settling delivers is apart**, if no artifact has the text of the file. -/
theorem apart (h : disk.Written written b staged copy old)
    (hsettle : b.settle written false = (disk', .ok restored))
    (hother : ∀ a ∈ staged, a.text.toUTF8 ≠ old) (horiginal : disk'.read b.source = .ok old)
    (hartifacts : ∀ a ∈ staged, disk'.read a.path = .ok a.text.toUTF8) :
    disk.Apart b.source b.copy staged := by
  have hne := h.names.ne_nil
  obtain rfl := h.not_restored hsettle hother horiginal hartifacts
  obtain ⟨-, hremove, -⟩ | ⟨-, -, -, -, -, -, hrestored⟩ := settle_eq_ok hsettle
  swap
  · cases hrestored
  obtain rfl := h.eq_unset h.leads hremove
  have hroot := disk.root_not_mem_places staged
  have hleads := (unset_extends hne).leads.trans h.leads
  have hplain : ∀ l ∈ disk.places staged, (written.unset copy).Plain l := fun l hl => (h.plain hl).unset hne
  have hfree := copy_not_mem hne hleads hplain hartifacts
  have hplaced : ∀ a ∈ staged, ∀ place, disk.Names a.path place →
      (written.unset copy).Names a.path place ∧
        (written.unset copy).at? place = some (.file a.text.toUTF8) := fun a ha place hplace =>
    hleads.at?_of_read hplace (hplain place (mem_places.2 ⟨a, ha, hplace⟩)) (hartifacts a ha)
  have hless : (written.unset copy).Leads (disk.without (disk.places staged)) := by
    refine ⟨hleads.workingDirectory, fun {l} hl => ?_, fun {l target} hl => ?_⟩
    · rw [at?_without disk hroot, if_neg fun hmem => (hplain l hmem).1 hl, hleads.directory hl]
    · rw [at?_without disk hroot, if_neg fun hmem => (hplain l hmem).2 target hl, hleads.link hl]
  refine ⟨?_, fun a ha => ?_, fun place hplace hcopy => ?_, fun a ha a' ha' place hnames hnames' => ?_⟩
  · obtain ⟨found, hstat⟩ := read_eq_ok horiginal
    have hfile : (written.unset copy).at? found = some (.file old) := stat_eq_ok hstat
    have hplace : found ∉ disk.places staged := by
      intro hmem
      obtain ⟨a, ha, hnames⟩ := mem_places.1 hmem
      obtain ⟨-, hartifact⟩ := hplaced a ha found hnames
      exact hother a ha (Entry.file.inj (Option.some_inj.1 (hartifact.symm.trans hfile)))
    refine ⟨_, hless.stat_file hstat (?_ : _ = some (Entry.file old))⟩
    rw [at?_unset written hne] at hfile
    split at hfile
    · cases hfile
    · rename_i hcopy
      rw [at?_without disk hroot, if_neg hplace, ← h.off found hplace (Ne.symm hcopy), hfile]
  · obtain ⟨place, hplace, -⟩ := h.placed a ha
    exact ⟨place, (hplaced a ha place hplace).1.mono hless⟩
  · rw [hcopy.unique h.names] at hplace
    exact hfree hplace
  · have hfile := (hplaced a ha place hnames).2
    rw [(hplaced a' ha' place hnames').2] at hfile
    have htext := congrArg String.fromUTF8? (Entry.file.inj (Option.some_inj.1 hfile))
    rw [fromUTF8?_toUTF8, fromUTF8?_toUTF8] at htext
    exact (Option.some_inj.1 htext).symm

/-- Without links all ways are left, so that it is enough that the file and the copy are in no place of an
artifact. -/
theorem apart_of_linkless (h : disk.Written written b staged copy old)
    (hlinks : ∀ location link, disk.at? location ≠ some (.link link))
    (hplaces : ∀ place ∈ disk.places staged,
      (∀ entry, disk.stat b.source ≠ .ok (place, entry)) ∧ ¬ disk.Names b.copy place)
    (hagree : disk.Agree staged) : disk.Apart b.source b.copy staged := by
  have hroot := disk.root_not_mem_places staged
  have hdirectory : ∀ place ∈ disk.places staged, disk.at? place ≠ some .directory := by
    intro place hplace
    obtain ⟨a, ha, hnames⟩ := mem_places.1 hplace
    obtain ⟨other, hother, hentry⟩ := h.placed a ha
    rwa [hnames.unique hother]
  have hless : disk.Leads (disk.without (disk.places staged)) := by
    refine ⟨rfl, fun {l} hl => ?_, fun {l link} hl => absurd hl (hlinks l link)⟩
    rw [at?_without disk hroot, if_neg fun hmem => hdirectory l hmem hl, hl]
  refine ⟨?_, fun a ha => ?_, fun place hplace => (hplaces place hplace).2, hagree⟩
  · obtain ⟨found, hstat⟩ := read_eq_ok h.read
    have hplace : found ∉ disk.places staged := fun hmem => (hplaces found hmem).1 _ hstat
    refine ⟨_, hless.stat_file hstat (?_ : _ = some (Entry.file old))⟩
    rw [at?_without disk hroot, if_neg hplace, stat_eq_ok hstat]
  · obtain ⟨place, hplace, -⟩ := h.placed a ha
    exact ⟨place, hplace.mono hless⟩

end Written

/-! ## Runs over one file -/

section

variable {profile : Profile} {o : Output} {timestamp : String} {modules : List ModuleOutput}
  {manifest : Manifest} {report : Report}

/-- A run that goes on over no failures loads its one module. -/
theorem exists_loadModule {loaded : Loaded}
    (h : disk.loadModules suffix false {} [target] = (copied, loaded, none)) :
    ∃ b m, disk.loadModule suffix target = (copied, .ok (b, m)) ∧ loaded = { backups := [b], modules := [m] } := by
  rcases hmodule : disk.loadModule suffix target with ⟨next, e | ⟨b, m⟩⟩
  · rw [loadModules_cons_error hmodule] at h
    cases h
  · rw [loadModules_cons_ok hmodule] at h
    cases h
    exact ⟨b, m, rfl, rfl⟩

/-- **The steps of an accepted run over one file**: the file is copied aside, the artifacts are written, and the
backup is settled. -/
theorem exists_steps (hkeep : o.keepBackup = false) (hfile : disk.isDirectory target = false)
    (h : disk.shorten profile o timestamp target = (disk', .ok (.accepted modules manifest report))) :
    ∃ m b copied written restored, modules = [m] ∧ m.path = target ∧
      Backup.create disk target o.backupSuffix = .ok (b, copied) ∧
      copied.commit (artifactsFor o manifest true m) = (written, none) ∧
      b.settle written false = (disk', .ok restored) := by
  obtain ⟨p, paths, copied, loaded, written, hp, hlocate, hload, hrun, hcommit, hsettle⟩ :=
    shorten_eq_accepted_iff.1 h
  obtain rfl := locate_file hlocate hfile
  rw [hfile] at hload
  obtain ⟨b, source, hmodule, rfl⟩ := exists_loadModule hload
  obtain ⟨hpath, -, hcreate⟩ := loadModule_eq_ok hmodule
  have hsources := map_source_of_run hp hrun
  obtain ⟨m, rfl, hm⟩ : ∃ m, modules = [m] ∧ m.source = source := by
    rw [Path.sortBy, List.mergeSort_singleton] at hsources
    exact List.map_eq_singleton_iff.1 hsources
  have hstaged : disk.artifactsOf o target [m] manifest = artifactsFor o manifest true m := by
    rw [artifactsOf, hfile, artifacts_eq]
    simp
  rw [hstaged] at hcommit
  rw [hkeep, Backup.settleAll] at hsettle
  rcases hsettled : b.settle written false with ⟨next, e | restored⟩
  · rw [hsettled] at hsettle
    cases hsettle
  · rw [hsettled] at hsettle
    cases hsettle
    exact ⟨m, b, copied, written, restored, rfl, (congrArg SourceModule.path hm).trans hpath, hcreate, hcommit,
      hsettled⟩

/-- **What an accepted run over one file leaves**, whatever its options are.  If its paths are apart, it
delivers what it reports and does nothing else to the disk.  If they are not, it does not deliver, except that
an artifact can stand for the file when it has the text of the file.  On a disk without links, paths are apart
when neither the file nor its copy is in the place of an artifact, and no two artifacts with different texts are
in one place. -/
theorem shorten_file (hkeep : o.keepBackup = false) (hfile : disk.isDirectory target = false)
    (h : disk.shorten profile o timestamp target = (disk', .ok (.accepted modules manifest report))) :
    ∃ m b copied, modules = [m] ∧ m.path = target ∧
      Backup.create disk target o.backupSuffix = .ok (b, copied) ∧
      (disk.Apart target b.copy (artifactsFor o manifest true m) →
        disk.Delivers disk' o manifest m ∧ disk.Gains disk' (artifactsFor o manifest true m)) ∧
      ((∀ a ∈ artifactsFor o manifest true m, disk.read target ≠ .ok a.text.toUTF8) →
        disk.Delivers disk' o manifest m → disk.Apart target b.copy (artifactsFor o manifest true m)) ∧
      ((∀ location link, disk.at? location ≠ some (.link link)) →
        (∀ place ∈ disk.places (artifactsFor o manifest true m),
          (∀ entry, disk.stat target ≠ .ok (place, entry)) ∧ ¬ disk.Names b.copy place) →
        disk.Agree (artifactsFor o manifest true m) →
        disk.Apart target b.copy (artifactsFor o manifest true m)) := by
  obtain ⟨m, b, copied, written, restored, rfl, hpath, hcreate, hcommit, hsettle⟩ := exists_steps hkeep hfile h
  obtain ⟨rfl, copy, old, hwritten⟩ := exists_written hcreate hcommit
  refine ⟨m, b, copied, rfl, hpath, hcreate, fun hapart => ?_, fun hother hdelivers => ?_, ?_⟩
  · obtain ⟨-, hgains, horiginal, hartifacts⟩ := hwritten.delivers hsettle hapart
    exact ⟨delivers_iff.2 ⟨hpath ▸ horiginal, hartifacts⟩, hgains⟩
  · obtain ⟨horiginal, hartifacts⟩ := delivers_iff.1 hdelivers
    rw [hpath, hwritten.read] at horiginal
    rw [hwritten.read] at hother
    exact hwritten.apart hsettle (fun a ha heq => hother a ha (heq ▸ rfl)) horiginal hartifacts
  · exact hwritten.apart_of_linkless

end

/-! ## A manifest in the place of the copy -/

/-- What a run over `a.js` writes when its manifest has a name. -/
def namedArtifacts (name : String) : List Artifact :=
  [⟨⟨"a.optimized.js"⟩, "12345678;"⟩, ⟨⟨name⟩, Manifest.ofUnspacedRun.text⟩]

/-- A suffix of manifests gives the manifest of `a.js` a name, which is a single one and not `a.js` itself. -/
structure NamesManifest (s name : String) : Prop where
  path : Output.manifestPath { manifestSuffix := s } ⟨"a.js"⟩ = ⟨name⟩
  single : isSingleName name = true
  directory : Path.directory ⟨name⟩ = ⟨"."⟩
  ne : name ≠ "a.js"

section

variable {s name : String}

theorem NamesManifest.artifactsFor_eq (h : NamesManifest s name) :
    artifactsFor { manifestSuffix := s } .ofUnspacedRun true (.unspaced ⟨"a.js"⟩) = namedArtifacts name := by
  have hoptimized : Output.optimizedPath { manifestSuffix := s } ⟨"a.js"⟩ = ⟨"a.optimized.js"⟩ :=
    names_evaluate.2.2.2.1
  rw [namedArtifacts, ← hoptimized, ← h.path]
  rfl

theorem namedArtifacts_names (h : isSingleName name = true) :
    withModule.Names ⟨"a.optimized.js"⟩ ["a.optimized.js"] ∧ withModule.Names ⟨name⟩ [name] :=
  ⟨names_of_home rfl _ names_evaluate.1.2.2.1, names_of_home rfl _ h⟩

theorem mem_places_namedArtifacts (h : isSingleName name = true) {place : Location}
    (hplace : place ∈ withModule.places (namedArtifacts name)) :
    place = ["a.optimized.js"] ∨ place = [name] :=
  mem_places_pair hplace (namedArtifacts_names h).1 (namedArtifacts_names h).2

theorem withModule_plain {name : String} : withModule.Plain [name] := by
  change Plain { entries := [(["a.js"], .file "12345678; ".toUTF8)] } [name]
  by_cases hname : name = "a.js"
  · subst hname
    exact plain_of_eq_file rfl
  · refine plain_of_eq_none (?_ : Table.get? _ _ = none)
    simp [Table.get?, Ne.symm hname]

/-- A run over `a.js`, which ends in a blank, is accepted whatever its manifest is called, and what is at
`a.js.bak` goes at last. -/
theorem NamesManifest.exists_shorten (h : NamesManifest s name) :
    ∃ disk' report, withModule.shorten .bounded { manifestSuffix := s } "t" ⟨"a.js"⟩ =
        (disk', .ok (.accepted [.unspaced ⟨"a.js"⟩] .ofUnspacedRun report)) ∧
      disk'.at? ["a.js.bak"] = none ∧ disk'.workingDirectory = [] := by
  obtain ⟨⟨hmodule, hbackup, hoptimized, -⟩, ⟨hcopy, hdirectory, -⟩, -, -, hdialect, hshort⟩ := names_evaluate
  obtain ⟨hlocate, hfile⟩ := locate_of_stat withModule_stat
  have hstaged : withModule.artifactsOf { manifestSuffix := s } ⟨"a.js"⟩ [.unspaced ⟨"a.js"⟩] .ofUnspacedRun =
      namedArtifacts name := by
    rw [← h.artifactsFor_eq, artifactsOf, hfile]
    rfl
  have hopen : withModule.openDirectory ⟨"."⟩ = .ok [] := openDirectory_here withModule rfl
  have hplace : ∀ a ∈ withModule.artifactsOf { manifestSuffix := s } ⟨"a.js"⟩ [.unspaced ⟨"a.js"⟩]
      .ofUnspacedRun, (∃ around, withModule.openDirectory a.path.directory = .ok around) ∧
        ∃ place, withModule.Names a.path place ∧ withModule.Plain place := by
    rw [hstaged]
    refine List.forall_mem_cons.2 ⟨⟨⟨[], ?_⟩, _, names_of_home rfl _ hoptimized, withModule_plain⟩,
      List.forall_mem_singleton.2 ⟨⟨[], ?_⟩, _, names_of_home rfl _ h.single, withModule_plain⟩⟩
    · rw [hdirectory, hopen]
    · rw [h.directory, hopen]
  have hread := read_of_stat withModule_stat
  obtain ⟨written, report, -, hcommit, hshorten⟩ := exists_shorten_spaced (o := { manifestSuffix := s })
    rfl rfl ⟨rfl, rfl⟩ hlocate hdialect (at_of_home rfl _ hmodule) hread rfl hshort hplace
  rw [hstaged] at hcommit
  have hcopyNames : withModule.Names (Path.append ⟨"a.js"⟩ ".bak") ["a.js.bak"] :=
    hcopy ▸ names_of_home rfl _ hbackup
  obtain ⟨-, copy, old, hwritten⟩ := exists_written (Backup.create_of_free hread hcopyNames rfl) hcommit
  obtain rfl := hwritten.names.unique hcopyNames
  obtain rfl := Except.ok.inj (hread.symm.trans hwritten.read)
  have hhome : written.workingDirectory = [] := hwritten.workingDirectory
  have hverify : Backup.verify ⟨⟨"a.js"⟩, Path.append ⟨"a.js"⟩ ".bak", fingerprint "12345678; ".toUTF8⟩ written =
      true := by
    refine Backup.verify_eq_true (read_of_stat ((names_of_home hhome "a.js" hmodule).stat_eq ?_)) rfl
    refine (hwritten.off ["a.js"] (fun hmem => ?_) (by decide)).trans rfl
    rcases mem_places_namedArtifacts h.single hmem with heq | heq
    · exact absurd heq (by decide)
    · exact h.ne (List.singleton_inj.1 heq).symm
  obtain ⟨contents, hfile⟩ : ∃ contents, written.at? ["a.js.bak"] = some (.file contents) := by
    by_cases hmem : ["a.js.bak"] ∈ withModule.places (namedArtifacts name)
    · obtain ⟨a, -, -, hfile⟩ := hwritten.file _ hmem
      exact ⟨_, hfile⟩
    · exact ⟨_, hwritten.copied hmem⟩
  have hsettle : Backup.settleAll written false (blankLoaded ⟨"a.js"⟩).backups =
      (written.unset ["a.js.bak"], none) := by
    rw [blankLoaded, Backup.settleAll, Backup.settle, hverify, if_pos rfl, Backup.discard,
      if_neg Bool.false_ne_true, hcopy, (names_of_home hhome _ hbackup).remove_eq hfile]
    rfl
  refine ⟨_, report, hshorten hsettle, ?_, hhome⟩
  rw [at?_unset written (List.cons_ne_nil _ _), if_pos rfl]

/-- The manifest of `a.js` can be called `a.json`, and then a run delivers what it reports. -/
theorem shorten_file_withModule :
    ∃ disk' report, withModule.shorten .bounded { manifestSuffix := ".json" } "t" ⟨"a.js"⟩ =
        (disk', .ok (.accepted [.unspaced ⟨"a.js"⟩] .ofUnspacedRun report)) ∧
      Output.keepBackup { manifestSuffix := ".json" } = false ∧ withModule.isDirectory ⟨"a.js"⟩ = false ∧
      withModule.Delivers disk' { manifestSuffix := ".json" } .ofUnspacedRun (.unspaced ⟨"a.js"⟩) := by
  have hnames : NamesManifest ".json" "a.json" :=
    ⟨by decide +kernel, by decide +kernel, by decide +kernel, by decide⟩
  obtain ⟨disk', report, hshorten, -⟩ := hnames.exists_shorten
  have hdirectory := (locate_of_stat withModule_stat).2
  obtain ⟨m, b, copied, hm, -, hcreate, hdelivers, -, hapart⟩ := shorten_file rfl hdirectory hshorten
  obtain rfl := List.singleton_inj.1 hm
  have hplaces : ∀ {place}, place ∈ withModule.places (namedArtifacts "a.json") →
      place = ["a.optimized.js"] ∨ place = ["a.json"] := mem_places_namedArtifacts hnames.single
  have hcopy : b.copy = ⟨"a.js.bak"⟩ := by
    have hcopyNames : withModule.Names (Path.append ⟨"a.js"⟩ ".bak") ["a.js.bak"] :=
      names_evaluate.2.1.1 ▸ names_of_home rfl _ names_evaluate.1.2.1
    have hmade := Backup.create_of_free (read_of_stat withModule_stat) hcopyNames rfl
    obtain ⟨rfl, -⟩ := Prod.mk.inj (Except.ok.inj (hcreate.symm.trans hmade))
    exact names_evaluate.2.1.1
  rw [hnames.artifactsFor_eq] at hdelivers hapart
  refine ⟨disk', report, hshorten, rfl, hdirectory, (hdelivers (hapart ?_ ?_ ?_)).1⟩
  · exact withModule_linkless
  · refine fun place hplace => ⟨fun entry hstat => ?_, fun hcopied => ?_⟩
    · obtain ⟨hfound, -⟩ := Prod.mk.inj (Except.ok.inj (withModule_stat.symm.trans hstat))
      rcases hplaces hplace with rfl | rfl <;> exact absurd hfound (by decide)
    · have hfound := hcopied.unique (hcopy ▸ names_of_home rfl _ names_evaluate.1.2.1)
      rcases hplaces hplace with rfl | rfl <;> exact absurd hfound (by decide)
  · exact agree_pair (namedArtifacts_names hnames.single).1 (namedArtifacts_names hnames.single).2 (by decide)

/-- **A manifest in the place of the copy is removed** with it, although the run is accepted. -/
theorem manifest_removed :
    ∃ disk' report, withModule.shorten .bounded { manifestSuffix := ".js.bak" } "t" ⟨"a.js"⟩ =
        (disk', .ok (.accepted [.unspaced ⟨"a.js"⟩] .ofUnspacedRun report)) ∧
      Output.manifestPath { manifestSuffix := ".js.bak" } ⟨"a.js"⟩ = ⟨"a.js.bak"⟩ ∧
      disk'.read ⟨"a.js.bak"⟩ = .error .notFound := by
  have hnames : NamesManifest ".js.bak" "a.js.bak" :=
    ⟨by decide +kernel, by decide +kernel, by decide +kernel, by decide⟩
  obtain ⟨disk', report, hshorten, hnone, hhome⟩ := hnames.exists_shorten
  refine ⟨disk', report, hshorten, hnames.path, ?_⟩
  rw [read, (names_of_home hhome _ hnames.single).stat_eq_error hnone]

end

end Disk

end Abridge
