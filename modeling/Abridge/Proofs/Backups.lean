import Abridge.Proofs.Ways
import Abridge.Run.OnDisk
import Mathlib.Data.List.Forall2
import Mathlib.Data.List.Nodup

/-!
# Copies on a disk

A run copies every module aside before it knows how it ends.  Until it commits, the copies are all that it
adds to the disk: each lies where nothing was (`Disk.Holds`), so every path still leads where it led, the
modules still read as they did, and settling a backup finds its module unchanged and removes its copy and
nothing else.

A copy that is made is the same on every medium (`Backup.createOn_cases`), so that most of what follows is
said of a sound one.

## What is here

* `Disk.Holds`: a disk with the copies that a run has made so far, in their locations.
* `Backup.exists_of_create`, `Backup.create_eq_ok`: how a file is copied, and where the copy is put.
* `Backup.createOn_cases`, `Disk.loadModuleOn_cases`: what a medium that is not sound adds to that.
* `Disk.loadModule_eq_ok`, `Disk.same_of_loadModule`, `Disk.loadModulesOn_invariant`: loading one module, and
  from it loading modules.
* `Disk.loadModules_holds`, `Backup.settleAll_holds`: loading adds copies, settling takes them away.
-/

set_option autoImplicit false

namespace Abridge

/-! ## Copies -/

namespace Disk

theorem stat_eq_ok {disk : Disk} {p : Path} {r : Location × Entry} (h : disk.stat p = .ok r) :
    disk.at? r.1 = some r.2 := by
  rw [stat] at h
  split at h
  · cases h
  · split at h
    · cases h
    · cases h
      assumption
    · split at h <;> cases h
      assumption

theorem read_eq_ok {disk : Disk} {p : Path} {contents : ByteArray} (h : disk.read p = .ok contents) :
    ∃ location, disk.stat p = .ok (location, .file contents) := by
  rw [read] at h
  split at h
  · cases h
  · cases h
    exact ⟨_, by assumption⟩
  · cases h

theorem read_of_stat {disk : Disk} {p : Path} {location : Location} {contents : ByteArray}
    (h : disk.stat p = .ok (location, .file contents)) : disk.read p = .ok contents := by
  rw [read, h]

/-- What was there is there on a disk that differs only where nothing was. -/
theorem Differs.stat_of_free {before after : Disk} {locations : List Location} (h : before.Differs after locations)
    (hfree : ∀ l ∈ locations, before.at? l = none) {p : Path} {r : Location × Entry}
    (hstat : before.stat p = .ok r) : after.stat p = .ok r := by
  have hoff : r.1 ∉ locations := by
    intro hmem
    have hnone := hfree r.1 hmem
    rw [stat_eq_ok hstat] at hnone
    cases hnone
  exact (h.sameWays fun l hl => plain_of_eq_none (hfree l hl)).stat hstat (h.off r.1 hoff)

/-- What a new file leaves of a disk, whether its name was drawn or not. -/
structure Created (disk disk' : Disk) (p : Path) (location : Location) (contents : ByteArray) :
    Prop where
  names : disk.Names p location
  free : disk.at? location = none
  same : (disk.set location (.file contents)).Same disk'

theorem created_of_create {disk disk' : Disk} {p : Path} {contents : ByteArray}
    (h : disk.create p contents = .ok disk') : ∃ location, disk.Created disk' p location contents := by
  obtain ⟨location, hnames, hfree, rfl⟩ := create_eq_ok h
  exact ⟨location, hnames, hfree, .refl _⟩

/-- The names that were drawn are no part of what a disk has. -/
theorem Created.withDrawn {disk disk' : Disk} {p : Path} {location : Location} {contents : ByteArray}
    (h : disk.Created disk' p location contents) (drawn : List DrawnName) :
    disk.Created { disk' with drawn } p location contents :=
  ⟨h.names, h.free, h.same.workingDirectory, h.same.entries⟩

end Disk

namespace Backup

/-- The copy of a file has the plain name, or one that was drawn. -/
def IsCopyPath (source : Path) (suffix : String) (copy : Path) : Prop :=
  copy = source.append suffix ∨
    ∃ n, copy = source.directory.join (source.fileName?.getD "" ++ "." ++ Disk.drawnPart n ++ suffix)

theorem createUnique_eq_ok {disk disk' : Disk} {source p : Path} {suffix : String}
    {contents : ByteArray} (h : createUnique disk source suffix contents = .ok (p, disk')) :
    ∃ n made drawn,
      p = source.directory.join (source.fileName?.getD "" ++ "." ++ Disk.drawnPart n ++ suffix) ∧
      disk.create p contents = .ok made ∧ disk' = { made with drawn } := by
  -- The directory is generalised, or the case split would try to compute it.
  unfold createUnique at h
  generalize source.directory = directory at h ⊢
  split at h
  · rename_i hdrawn
    rw [Except.ok.injEq] at h
    subst h
    obtain ⟨n, made, hp, hcreate, hdisk⟩ := Disk.createDrawn_eq_ok hdrawn
    exact ⟨n, made, _, hp, hcreate, hdisk⟩
  · cases h

theorem taken_sound (disk : Disk) (p : Path) (contents : ByteArray) :
    Medium.sound.taken disk p contents = contents := rfl

/-- **On any medium a file is copied as on a sound one**, or it is not copied, and then the disk is as it was
or has as much of the copy under the plain name as the medium took. -/
theorem createOn_cases (medium : Medium) (disk : Disk) (source : Path) (suffix : String) :
    createOn medium disk source suffix = createOn .sound disk source suffix ∨
      (∃ failure, createOn medium disk source suffix = (disk, .error failure)) ∨
      ∃ contents n e made, disk.read source = .ok contents ∧
        medium.stops? disk (source.append suffix) contents = some (n, e) ∧
        disk.create (source.append suffix) (contents.extract 0 n) = .ok made ∧
        createOn medium disk source suffix = (made, .error (.disk (source.append suffix) e)) := by
  rw [createOn, createOn]
  cases hread : disk.read source with
  | error e => exact .inl rfl
  | ok contents =>
    dsimp only [Output.backupPath]
    rw [taken_sound]
    cases hcreate : disk.create (source.append suffix) (medium.taken disk (source.append suffix) contents) with
    | ok made =>
      rw [Medium.taken] at hcreate
      cases hstops : medium.stops? disk (source.append suffix) contents with
      | none =>
        rw [hstops] at hcreate
        rw [hcreate]
        exact .inl rfl
      | some stop =>
        rw [hstops] at hcreate
        exact .inr (.inr ⟨contents, stop.1, stop.2, made, rfl, hstops, hcreate, rfl⟩)
    | error e =>
      rw [Disk.create_eq_error hcreate contents]
      cases e with
      | alreadyExists =>
        dsimp only
        cases createUnique disk source suffix contents with
        | error failure => exact .inl rfl
        | ok made =>
          dsimp only
          cases medium.stops? disk made.1 contents with
          | none => exact .inl rfl
          | some stop => exact .inr (.inl ⟨_, rfl⟩)
      | _ => exact .inl rfl

/-- What is copied on a sound medium. -/
theorem createOn_of_create_eq_ok {disk made : Disk} {source : Path} {suffix : String} {b : Backup}
    (h : create disk source suffix = .ok (b, made)) : createOn .sound disk source suffix = (made, .ok b) := by
  rcases hcreate : createOn .sound disk source suffix with ⟨next, e | b'⟩ <;> rw [create, hcreate] at h <;> cases h
  rfl

/-- A sound medium takes a copy whole or has nothing of it. -/
theorem createOn_of_create_eq_error {disk : Disk} {source : Path} {suffix : String} {failure : Failure}
    (h : create disk source suffix = .error failure) :
    createOn .sound disk source suffix = (disk, .error failure) := by
  rcases hcopied : createOn .sound disk source suffix with ⟨made, e | b⟩ <;> rw [create, hcopied] at h <;> cases h
  suffices made = disk by rw [this]
  rw [createOn] at hcopied
  cases hread : disk.read source with
  | error e =>
    rw [hread] at hcopied
    cases hcopied
    rfl
  | ok contents =>
    rw [hread] at hcopied
    dsimp only [Medium.sound] at hcopied
    split at hcopied
    · cases hcopied
    · split at hcopied <;> cases hcopied
      rfl
    · cases hcopied
      rfl

/-- Whichever name the copy gets, a file was created under it with the bytes of the source. -/
theorem exists_of_create {disk disk' : Disk} {source : Path} {suffix : String} {b : Backup}
    (h : create disk source suffix = .ok (b, disk')) :
    ∃ contents made drawn, b.source = source ∧ disk.read source = .ok contents ∧
      b.fingerprint = Abridge.fingerprint contents ∧ IsCopyPath source suffix b.copy ∧
      disk.create b.copy contents = .ok made ∧ disk' = { made with drawn } := by
  have h := createOn_of_create_eq_ok h
  rw [createOn] at h
  cases hread : disk.read source with
  | error e => rw [hread] at h; cases h
  | ok contents =>
    rw [hread] at h
    dsimp only [Medium.taken, Medium.sound] at h
    split at h
    · rename_i hcreate
      cases h
      exact ⟨contents, _, _, rfl, rfl, rfl, .inl rfl, hcreate, rfl⟩
    · split at h
      · cases h
      · rename_i hunique
        cases h
        obtain ⟨n, made, drawn, hcopy, hcreate, hdisk⟩ := createUnique_eq_ok hunique
        exact ⟨contents, made, drawn, rfl, rfl, rfl, .inr ⟨n, hcopy⟩, hcreate, hdisk⟩
    · cases h

/-- **A copy is put where nothing was**, and remembers what its file looked like. -/
theorem create_eq_ok {disk disk' : Disk} {source : Path} {suffix : String} {b : Backup}
    (h : create disk source suffix = .ok (b, disk')) :
    ∃ contents location, b.source = source ∧ disk.read source = .ok contents ∧
      b.fingerprint = Abridge.fingerprint contents ∧
      disk.Created disk' b.copy location contents := by
  obtain ⟨contents, made, drawn, hsource, hread, hprint, -, hcreate, rfl⟩ := exists_of_create h
  obtain ⟨location, hcreated⟩ := Disk.created_of_create hcreate
  exact ⟨contents, location, hsource, hread, hprint, hcreated.withDrawn drawn⟩

/-- A file is copied to the plain name if that is free. -/
theorem create_of_free {disk : Disk} {source : Path} {suffix : String} {contents : ByteArray}
    {location : Location} (hread : disk.read source = .ok contents)
    (hnames : disk.Names (source.append suffix) location) (hfree : disk.at? location = none) :
    create disk source suffix = .ok (⟨source, source.append suffix, Abridge.fingerprint contents⟩,
      disk.set location (.file contents)) := by
  rw [create, createOn, hread]
  dsimp only
  rw [taken_sound, Output.backupPath, hnames.create_eq hfree]
  rfl

/-- A backup of a run: its copy was put where nothing was, and its file looked then as it says. -/
structure IsOf (before : Disk) (b : Backup) (location : Location) : Prop where
  names : before.Names b.copy location
  free : before.at? location = none
  source : ∃ contents, before.read b.source = .ok contents ∧
    b.fingerprint = Abridge.fingerprint contents

end Backup

namespace Disk

/-- A disk with the copies that backups have made in locations of their own. -/
structure Holds (before after : Disk) (backups : List Backup) (locations : List Location) : Prop where
  differs : before.Differs after locations
  backups : List.Forall₂ (Backup.IsOf before) backups locations
  files : ∀ location ∈ locations, ∃ contents, after.at? location = some (.file contents)
  nodup : locations.Nodup

namespace Holds

variable {before after : Disk} {backups : List Backup} {locations : List Location}

theorem refl (disk : Disk) : disk.Holds disk [] [] :=
  ⟨.refl disk, .nil, fun _ h => absurd h List.not_mem_nil, .nil⟩

theorem free (h : before.Holds after backups locations) {location : Location}
    (hlocation : location ∈ locations) : before.at? location = none := by
  have hall : ∀ {bs : List Backup} {ls : List Location}, List.Forall₂ (Backup.IsOf before) bs ls →
      ∀ l ∈ ls, before.at? l = none := by
    intro bs ls hbs
    induction hbs with
    | nil => exact fun _ hl => absurd hl List.not_mem_nil
    | cons hb _ ih => exact List.forall_mem_cons.2 ⟨hb.free, ih⟩
  exact hall h.backups location hlocation

/-- A location that is free now has no copy and was free before. -/
theorem of_free (h : before.Holds after backups locations) {location : Location}
    (hfree : after.at? location = none) : location ∉ locations ∧ before.at? location = none := by
  have hnew : location ∉ locations := by
    intro hmem
    obtain ⟨contents, hfile⟩ := h.files location hmem
    rw [hfree] at hfile
    cases hfile
  exact ⟨hnew, by rw [← h.differs.off location hnew, hfree]⟩

/-- Every path leads where it led. -/
theorem sameWays (h : before.Holds after backups locations) : before.SameWays after :=
  h.differs.sameWays fun _ hl => plain_of_eq_none (h.free hl)

/-- What was there reads as it did. -/
theorem read_eq (h : before.Holds after backups locations) {p : Path} {r : Location × Entry}
    (hstat : before.stat p = .ok r) : after.read p = before.read p := by
  rw [read, read, hstat, h.differs.stat_of_free (fun _ hl => h.free hl) hstat]

/-- The same copies lie on a disk that cannot be told apart. -/
theorem congr (h : before.Holds after backups locations) {after' : Disk} (hsame : after.Same after') :
    before.Holds after' backups locations := by
  refine ⟨h.differs.congr hsame, h.backups, fun l hl => ?_, h.nodup⟩
  rw [hsame.entries]
  exact h.files l hl

/-- A copy is put where nothing was from the beginning, and has what its file had. -/
theorem exists_created (h : before.Holds after backups locations) {after' : Disk} {b : Backup}
    {suffix : String} {p : Path} {r : Location × Entry} (hstat : before.stat p = .ok r)
    (hcreate : Backup.create after p suffix = .ok (b, after')) :
    ∃ contents location, b.source = p ∧ before.read p = .ok contents ∧ Backup.IsOf before b location ∧
      location ∉ locations ∧ (after.set location (.file contents)).Same after' := by
  obtain ⟨contents, location, rfl, hread, hprint, hnames, hfree, hsame⟩ := Backup.create_eq_ok hcreate
  obtain ⟨hnew, hnone⟩ := h.of_free hfree
  rw [h.read_eq hstat] at hread
  exact ⟨contents, location, rfl, hread, ⟨hnames.mono h.sameWays.2, hnone, contents, hread, hprint⟩, hnew, hsame⟩

/-- Another copy is put in a location of its own. -/
theorem add (h : before.Holds after backups locations) {after' : Disk} {b : Backup} {location : Location}
    {contents : ByteArray} (hb : Backup.IsOf before b location) (hnew : location ∉ locations)
    (hsame : (after.set location (.file contents)).Same after') :
    before.Holds after' (backups ++ [b]) (locations ++ [location]) := by
  have hne := hb.names.ne_nil
  have hdirectory : after.at? location ≠ some .directory := by
    rw [h.differs.off location hnew, hb.free]
    exact (Option.some_ne_none _).symm
  refine congr ⟨h.differs.set hne hdirectory contents, ?_, ?_, ?_⟩ hsame
  · exact List.rel_append h.backups (.cons hb .nil)
  · intro l hl
    rw [at?_set after hne]
    split
    · exact ⟨contents, rfl⟩
    · rename_i hother
      refine h.files l ?_
      rcases List.mem_append.1 hl with hl | hl
      · exact hl
      · exact absurd (List.mem_singleton.1 hl).symm hother
  · exact List.nodup_append.2 ⟨h.nodup, List.nodup_singleton _, by
      intro l hl l' hl' heq
      rw [List.mem_singleton.1 hl'] at heq
      exact hnew (heq ▸ hl)⟩

/-- Another copy is made. -/
theorem create (h : before.Holds after backups locations) {after' : Disk} {b : Backup}
    {suffix : String} {p : Path} {r : Location × Entry} (hstat : before.stat p = .ok r)
    (hcreate : Backup.create after p suffix = .ok (b, after')) :
    ∃ location, before.Holds after' (backups ++ [b]) (locations ++ [location]) := by
  obtain ⟨_, location, -, -, hb, hnew, hsame⟩ := h.exists_created hstat hcreate
  exact ⟨location, h.add hb hnew hsame⟩

/-- The first copy is taken away. -/
theorem unset {b : Backup} {location : Location}
    (h : before.Holds after (b :: backups) (location :: locations)) (hlocation : location ≠ []) :
    before.Holds (after.unset location) backups locations := by
  obtain ⟨hnew, hnodup⟩ := List.nodup_cons.1 h.nodup
  have hne : ∀ l ∈ locations, location ≠ l := fun l hl heq => hnew (heq ▸ hl)
  cases h.backups with
  | cons hb hbackups =>
    refine ⟨⟨h.differs.workingDirectory, fun l hl => ?_, fun l hl => ?_, fun l hl => ?_⟩, hbackups,
      fun l hl => ?_, hnodup⟩
    · rw [at?_unset after hlocation]
      split
      · rename_i heq
        rw [← heq, hb.free]
      · rename_i heq
        exact h.differs.off l (List.not_mem_cons_of_ne_of_not_mem (Ne.symm heq) hl)
    · have hplain := h.differs.plain l (List.mem_cons_of_mem _ hl)
      rwa [Plain, at?_unset after hlocation, if_neg (hne l hl)]
    · exact h.differs.notDirectory l (List.mem_cons_of_mem _ hl)
    · rw [at?_unset after hlocation, if_neg (hne l hl)]
      exact h.files l (List.mem_cons_of_mem _ hl)

/-- With no copies left the disk is the one before. -/
theorem same (h : before.Holds after [] locations) : before.Same after := by
  cases h.backups
  exact h.differs.same fun _ hl => absurd hl List.not_mem_nil

end Holds

end Disk

/-! ## Settling -/

namespace Backup

/-- A file that reads as it did looks as it did. -/
theorem verify_eq_true {disk : Disk} {b : Backup} {contents : ByteArray}
    (hread : disk.read b.source = .ok contents) (hprint : b.fingerprint = Abridge.fingerprint contents) :
    b.verify disk = true := by
  rw [verify, hread, hprint]
  exact beq_self_eq_true _

/-- A file is restored where its path leads. -/
theorem restore_eq {disk : Disk} {b : Backup} {location copy : Location} {contents : ByteArray}
    (hfollow : disk.follow b.source = .ok (location, false)) (hentry : disk.at? location ≠ some .directory)
    (hnames : disk.Names b.copy copy) (hcopy : disk.at? copy = some (.file contents)) :
    b.restore disk = .ok (disk.set location (.file contents)) := by
  rw [restore, Disk.read_of_stat (hnames.stat_eq hcopy)]
  dsimp only
  rw [Disk.write_eq hfollow hentry]

variable {before disk : Disk} {backups : List Backup} {locations : List Location}

/-- **Settling a backup** finds its file as it was and removes its copy. -/
theorem settle_holds {b : Backup} (h : before.Holds disk (b :: backups) locations) :
    ∃ disk' locations', b.settle disk false = (disk', .ok false) ∧
      before.Holds disk' backups locations' := by
  cases hlocations : h.backups with
  | @cons _ location _ locations hb _ =>
    obtain ⟨contents, hread, hprint⟩ := hb.source
    obtain ⟨_, hstat⟩ := Disk.read_eq_ok hread
    have hverify : b.verify disk = true := verify_eq_true ((h.read_eq hstat).trans hread) hprint
    obtain ⟨copied, hcopy⟩ := h.files location List.mem_cons_self
    have hremove := (hb.names.mono h.sameWays.1).remove_eq hcopy
    refine ⟨disk.unset location, locations, ?_, h.unset hb.names.ne_nil⟩
    rw [settle, hverify, if_pos rfl, discard, if_neg Bool.false_ne_true, hremove]

/-- **Settling all backups gives the disk back**, and no settling fails. -/
theorem settleAll_holds : ∀ {backups : List Backup} {disk : Disk} {locations : List Location},
    before.Holds disk backups locations →
      ∃ disk', settleAll disk false backups = (disk', none) ∧ before.Same disk'
  | [], disk, _, h => ⟨disk, rfl, h.same⟩
  | b :: backups, disk, _, h => by
    obtain ⟨next, locations', hsettle, hnext⟩ := settle_holds h
    obtain ⟨disk', hall, hsame⟩ := settleAll_holds hnext
    refine ⟨disk', ?_, hsame⟩
    rw [settleAll, hsettle]
    dsimp only
    rw [hall]

end Backup

/-! ## Loading -/

namespace Disk

variable {before disk disk' : Disk} {suffix : String}

/-- A module that cannot be copied aside is not loaded. -/
theorem loadModule_of_create_eq_error {p : Path} {failure : Failure}
    (hcreate : Backup.create disk p suffix = .error failure) :
    disk.loadModule suffix p = (disk, .error failure) := by
  rw [loadModule, loadModuleOn, Backup.createOn_of_create_eq_error hcreate]

/-- A module that is copied aside is loaded if it is a text, and otherwise the disk is as it was. -/
theorem loadModule_of_create {p : Path} {b : Backup} {next : Disk}
    (hcreate : Backup.create disk p suffix = .ok (b, next)) :
    (∃ text, disk.readText p = .ok text ∧
      disk.loadModule suffix p = (next, .ok (b, { path := p, text, dialect := Dialect.ofPath p }))) ∨
    ∃ e settled, disk.readText p = .error e ∧ disk.loadModule suffix p = (settled, .error (.disk p e)) ∧
      disk.Same settled := by
  obtain ⟨contents, _, -, hread, -, -⟩ := Backup.create_eq_ok hcreate
  obtain ⟨_, hstat⟩ := read_eq_ok hread
  obtain ⟨location, hmade⟩ := (Holds.refl disk).create hstat hcreate
  have htext : next.readText p = disk.readText p := by rw [readText, readText, hmade.read_eq hstat]
  rw [loadModule, loadModuleOn, Backup.createOn_of_create_eq_ok hcreate]
  dsimp only
  rw [htext]
  cases disk.readText p with
  | ok text => exact .inl ⟨text, rfl, rfl⟩
  | error e =>
    -- The copy that was made last is the only one that the settling is about.
    obtain ⟨settled, _, hsettle, hsettled⟩ := Backup.settle_holds hmade
    exact .inr ⟨e, settled, rfl, by rw [hsettle], hsettled.same⟩

/-- **A module that loads was copied aside**, and is loaded as it is on the disk. -/
theorem loadModule_eq_ok {p : Path} {b : Backup} {m : SourceModule}
    (h : disk.loadModule suffix p = (disk', .ok (b, m))) :
    m.path = p ∧ disk.readText p = .ok m.text ∧ Backup.create disk p suffix = .ok (b, disk') := by
  cases hcreate : Backup.create disk p suffix with
  | error e => rw [loadModule_of_create_eq_error hcreate] at h; cases h
  | ok made =>
    obtain ⟨b', copied⟩ := made
    rcases loadModule_of_create hcreate with ⟨text, htext, hload⟩ | ⟨e, settled, -, hload, -⟩
    · rw [hload] at h
      cases h
      exact ⟨rfl, htext, rfl⟩
    · rw [hload] at h
      cases h

/-- **A module that does not load leaves nothing.** -/
theorem same_of_loadModule {p : Path} {failure : Failure}
    (h : disk.loadModule suffix p = (disk', .error failure)) : disk.Same disk' := by
  cases hcreate : Backup.create disk p suffix with
  | error e =>
    rw [loadModule_of_create_eq_error hcreate] at h
    cases h
    exact .refl disk
  | ok made =>
    obtain ⟨b, copied⟩ := made
    rcases loadModule_of_create hcreate with ⟨text, -, hload⟩ | ⟨e, settled, -, hload, hsame⟩
    · rw [hload] at h
      cases h
    · rw [hload] at h
      cases h
      exact hsame

/-- **On any medium a module is loaded as on a sound one**, or it is not loaded, and then the disk is as it was
or has as much of the copy as the medium took. -/
theorem loadModuleOn_cases (medium : Medium) (disk : Disk) (suffix : String) (p : Path) :
    disk.loadModuleOn medium suffix p = disk.loadModule suffix p ∨
      (∃ failure, disk.loadModuleOn medium suffix p = (disk, .error failure)) ∨
      ∃ contents n e made, disk.read p = .ok contents ∧
        medium.stops? disk (p.append suffix) contents = some (n, e) ∧
        disk.create (p.append suffix) (contents.extract 0 n) = .ok made ∧
        disk.loadModuleOn medium suffix p = (made, .error (.disk (p.append suffix) e)) := by
  rw [loadModule, loadModuleOn, loadModuleOn]
  rcases Backup.createOn_cases medium disk p suffix with
    heq | ⟨failure, heq⟩ | ⟨contents, n, e, made, hread, hstops, hcreate, heq⟩
  · rw [heq]
    exact .inl rfl
  · rw [heq]
    exact .inr (.inl ⟨failure, rfl⟩)
  · rw [heq]
    exact .inr (.inr ⟨contents, n, e, made, hread, hstops, hcreate, rfl⟩)

section

variable {medium : Medium} {goOn : Bool} {loaded : Loaded} {p : Path} {paths : List Path}

theorem loadModulesOn_cons_ok {b : Backup} {m : SourceModule}
    (h : disk.loadModuleOn medium suffix p = (disk', .ok (b, m))) :
    disk.loadModulesOn medium suffix goOn loaded (p :: paths) =
      disk'.loadModulesOn medium suffix goOn
        { loaded with backups := loaded.backups ++ [b]
                      modules := loaded.modules ++ [m] } paths := by
  rw [loadModulesOn, h]

theorem loadModulesOn_cons_error {failure : Failure}
    (h : disk.loadModuleOn medium suffix p = (disk', .error failure)) :
    disk.loadModulesOn medium suffix goOn loaded (p :: paths) =
      if goOn then
        disk'.loadModulesOn medium suffix goOn
          { loaded with failed := loaded.failed ++ [{ path := p, failure }] } paths
      else (disk', loaded, some failure) := by
  rw [loadModulesOn, h]

theorem loadModules_cons_ok {b : Backup} {m : SourceModule} (h : disk.loadModule suffix p = (disk', .ok (b, m))) :
    disk.loadModules suffix goOn loaded (p :: paths) =
      disk'.loadModules suffix goOn
        { loaded with backups := loaded.backups ++ [b]
                      modules := loaded.modules ++ [m] } paths :=
  loadModulesOn_cons_ok h

theorem loadModules_cons_error {failure : Failure} (h : disk.loadModule suffix p = (disk', .error failure)) :
    disk.loadModules suffix goOn loaded (p :: paths) =
      if goOn then
        disk'.loadModules suffix goOn { loaded with failed := loaded.failed ++ [{ path := p, failure }] } paths
      else (disk', loaded, some failure) :=
  loadModulesOn_cons_error h

end

/-- **What loading one module preserves, loading modules preserves**, whether it goes on over failures or
ends with one. -/
theorem loadModulesOn_invariant {P : Disk → Loaded → Prop} {medium : Medium} {goOn : Bool} {paths : List Path}
    (hok : ∀ p ∈ paths, ∀ disk disk' loaded b m, P disk loaded →
      disk.loadModuleOn medium suffix p = (disk', .ok (b, m)) →
      P disk' { loaded with backups := loaded.backups ++ [b]
                            modules := loaded.modules ++ [m] })
    (herror : ∀ p ∈ paths, ∀ disk disk' loaded failure, P disk loaded →
      disk.loadModuleOn medium suffix p = (disk', .error failure) → ∀ failed, P disk' { loaded with failed })
    {loaded loaded' : Loaded} {failure : Option Failure} (h : P disk loaded)
    (hload : disk.loadModulesOn medium suffix goOn loaded paths = (disk', loaded', failure)) :
    P disk' loaded' := by
  induction paths generalizing disk loaded with
  | nil =>
    cases hload
    exact h
  | cons p paths ih =>
    obtain ⟨hokHere, hok⟩ := List.forall_mem_cons.1 hok
    obtain ⟨herrorHere, herror⟩ := List.forall_mem_cons.1 herror
    rcases hmodule : disk.loadModuleOn medium suffix p with ⟨next, e | ⟨b, m⟩⟩
    · have hnext := herrorHere disk next loaded e h hmodule
      rw [loadModulesOn_cons_error hmodule] at hload
      split at hload
      · exact ih hok herror (hnext _) hload
      · cases hload
        exact hnext loaded'.failed
    · rw [loadModulesOn_cons_ok hmodule] at hload
      exact ih hok herror (hokHere disk next loaded b m h hmodule) hload

/-- **Loading modules adds their copies to the disk.** -/
theorem loadModules_holds {goOn : Bool} {paths : List Path} {loaded loaded' : Loaded}
    {locations : List Location} {failure : Option Failure} (hstat : ∀ p ∈ paths, ∃ r, before.stat p = .ok r)
    (h : before.Holds disk loaded.backups locations)
    (hload : disk.loadModules suffix goOn loaded paths = (disk', loaded', failure)) :
    ∃ locations', before.Holds disk' loaded'.backups locations' := by
  refine loadModulesOn_invariant (P := fun disk loaded => ∃ locations, before.Holds disk loaded.backups locations)
    ?_ ?_ ⟨locations, h⟩ hload
  · rintro p hp disk disk' loaded b m ⟨locations, h⟩ hmodule
    obtain ⟨r, hr⟩ := hstat p hp
    obtain ⟨location, hnext⟩ := h.create hr (loadModule_eq_ok hmodule).2.2
    exact ⟨_, hnext⟩
  · rintro p - disk disk' loaded e ⟨locations, h⟩ hmodule failed
    exact ⟨locations, h.congr (same_of_loadModule hmodule)⟩

theorem stat_of_mem_modulesBelow {m : ArtifactMarkers} {q : Path} {fuel : Nat} :
    ∀ {p : Path} {around : List Location}, q ∈ disk.modulesBelow m p around fuel →
      ∃ r, disk.stat q = .ok r := by
  induction fuel with
  | zero => intro p around h; exact absurd h List.not_mem_nil
  | succ fuel ih =>
    intro p around h
    rw [modulesBelow] at h
    obtain ⟨⟨name, entry⟩, -, hq⟩ := List.mem_flatMap.1 h
    dsimp only at hq
    split at hq
    · exact absurd hq List.not_mem_nil
    · split at hq
      · exact absurd hq List.not_mem_nil
      · split at hq
        · exact absurd hq List.not_mem_nil
        · exact ih hq
      · rename_i hstat
        split at hq
        · rw [List.mem_singleton.1 hq]
          exact ⟨_, hstat⟩
        · exact absurd hq List.not_mem_nil

/-- There is something at every path that a run is about. -/
theorem stat_of_mem_locate {m : ArtifactMarkers} {target q : Path} {paths : List Path}
    (h : disk.locate m target = .ok paths) (hq : q ∈ paths) : ∃ r, disk.stat q = .ok r := by
  rw [locate] at h
  cases hstat : disk.stat target with
  | error e => rw [hstat] at h; cases h
  | ok r =>
    rw [hstat] at h
    obtain ⟨location, entry⟩ := r
    cases entry with
    | directory =>
      dsimp only at h
      generalize hfound : (if targetName target = dependencyDirectory then [] else
        Path.sortBy id (disk.modulesBelow m target [location]
          ((disk.entries.length + 1) * (disk.entries.length + 1)))) = found at h
      split at h
      · cases h
      · cases h
        subst hfound
        split at hq
        · exact absurd hq List.not_mem_nil
        · exact stat_of_mem_modulesBelow (List.mem_mergeSort.1 hq)
    | file contents =>
      cases h
      rw [List.mem_singleton.1 hq]
      exact ⟨_, hstat⟩
    | link path =>
      cases h
      rw [List.mem_singleton.1 hq]
      exact ⟨_, hstat⟩

end Disk

end Abridge
