import Abridge.Proofs.Chains

/-!
# Backups that are outstanding

Several files are backed up before anything is done to them, and each backup is settled some time later.  In
between the files are written over, replaced or removed.  Copies of different files never meet, because each was
put where nothing was, and whatever happens to a file happens at locations that meant this file and no other.  So
the order of events does not matter: as long as a backup is pending its copy has what the file had, and once it
is settled the file has it again (`Disk.restores_exactly`).

## What is here

* `Backup.createAll`: several backups, made one after the other.
* `Disk.Reached`: disks that are reached from there while files are touched and backups are settled.
* `Deposit`: a backup with the locations of its file and of its copy.
* `Disk.Interim`: what holds on every disk that is reached; `Disk.Interim.touch` and `Disk.Interim.settle` are its
  steps.
* `Disk.restores_exactly`, `Disk.settleAll_reached`: what settling leaves.
-/

set_option autoImplicit false

namespace Abridge

/-! ## What happens to backups -/

namespace Backup

/-- Copies files aside in order, each with a suffix of its own. -/
def createAll (disk : Disk) : List (Path × String) → Except Failure (List Backup × Disk)
  | [] => .ok ([], disk)
  | (source, suffix) :: rest =>
    match create disk source suffix with
    | .error e => .error e
    | .ok (b, made) =>
      match createAll made rest with
      | .error e => .error e
      | .ok (backups, made) => .ok (b :: backups, made)

end Backup

namespace Disk

/-- The path of a file, or one that names the file itself and not a link to it. -/
def IsNameOf (before : Disk) (source p : Path) : Prop :=
  p = source ∨ ∃ r, before.stat source = .ok r ∧ before.Names p r.1

/-- What may happen to a file that is backed up: its bytes are written over by any path that meant it, or another
file takes its name, or the name is removed.  The bytes that are put there are among those given. -/
inductive Touches (before : Disk) (bytes : List ByteArray) (source : Path) (disk disk' : Disk) : Prop
  | write {p : Path} {contents : ByteArray} : before.stat p = before.stat source → contents ∈ bytes →
    disk.write p contents = .ok disk' → Touches before bytes source disk disk'
  | replace {p : Path} {contents : ByteArray} : before.IsNameOf source p → contents ∈ bytes →
    disk.replace p contents = .ok disk' → Touches before bytes source disk disk'
  | remove {p : Path} : before.IsNameOf source p → disk.remove p = .ok disk' →
    Touches before bytes source disk disk'

/-- **The disks that are reached with backups outstanding**, with those that are pending and those that were
settled, each with whether its copy was kept.  Files are touched while their backups are pending, and any backup
that is pending may be settled next.  No backup is made any more: when a file is gone, the copy of another one
could be put in its place. -/
inductive Reached (before : Disk) (bytes : List ByteArray) (made : Disk) (backups : List Backup) :
    Disk → List Backup → List (Backup × Bool) → Prop
  | start : Reached before bytes made backups made backups []
  | touch {disk disk' : Disk} {pending : List Backup} {settled : List (Backup × Bool)} {b : Backup} :
    Reached before bytes made backups disk pending settled → b ∈ pending →
    before.Touches bytes b.source disk disk' → Reached before bytes made backups disk' pending settled
  | settle {disk : Disk} {settled : List (Backup × Bool)} {b : Backup} (pre post : List Backup) (keep : Bool) :
    Reached before bytes made backups disk (pre ++ b :: post) settled →
    Reached before bytes made backups (b.settle disk keep).1 (pre ++ post) ((b, keep) :: settled)

/-- The locations that backups are about: those that mean one of the files, and those of the copies that are to
be there. -/
def Concerned (before : Disk) (files : List Location) (pending : List Backup) (settled : List (Backup × Bool))
    (location : Location) : Prop :=
  (∃ file ∈ files, before.Means file location) ∨
    ∃ b, (b ∈ pending ∨ (b, true) ∈ settled) ∧ before.Names b.copy location

/-- **A disk on which every backup keeps its promise.** -/
structure Restores (before disk : Disk) (files : List Location) (pending : List Backup)
    (settled : List (Backup × Bool)) : Prop where
  /-- Settling succeeds, and reports a restore exactly when the file does not read as it did. -/
  settles : ∀ b ∈ pending, ∀ keep, ∃ disk' restored, b.settle disk keep = (disk', .ok restored) ∧
    (restored = true ↔ disk.read b.source ≠ before.read b.source)
  restored : ∀ x ∈ settled, disk.read x.1.source = before.read x.1.source
  kept : ∀ b, (b, true) ∈ settled → disk.read b.copy = before.read b.source
  dropped : ∀ b, (b, false) ∈ settled → disk.stat b.copy = .error .notFound
  /-- Other paths mean what they meant. -/
  others : ∀ p r, before.stat p = .ok r → r.1 ∉ files → disk.stat p = .ok r
  /-- So do other paths of a file that is where it was. -/
  aliases : ∀ x ∈ settled, ∀ p r, disk.stat x.1.source = .ok r → before.stat p = .ok r → disk.stat p = .ok r
  /-- No other path means anything new. -/
  found : ∀ p r, disk.stat p = .ok r → before.stat p = .ok r ∨ before.Concerned files pending settled r.1
  /-- Other locations have what they had. -/
  entries : ∀ location, ¬ before.Concerned files pending settled location →
    disk.at? location = before.at? location

end Disk

/-! ## Backups with their locations -/

/-- A backup with where its file and its copy are, and with what the file had. -/
structure Deposit where
  backup : Backup
  file : Location
  copy : Location
  old : ByteArray

/-- The file has this content on a disk, and nothing is where the copy goes. -/
structure Deposit.IsOf (before : Disk) (x : Deposit) : Prop where
  stat : before.stat x.backup.source = .ok (x.file, .file x.old)
  print : x.backup.fingerprint = fingerprint x.old
  names : before.Names x.backup.copy x.copy
  free : before.at? x.copy = none

namespace Deposit.IsOf

variable {before : Disk} {x y : Deposit}

theorem file_eq (h : x.IsOf before) : before.at? x.file = some (.file x.old) :=
  Disk.stat_eq_ok (r := (x.file, .file x.old)) h.stat

/-- A copy is not among the links that lead to a file. -/
theorem not_means (h : x.IsOf before) (h' : y.IsOf before) : ¬ before.Means y.file x.copy :=
  fun hmeans => hmeans.ne_none h'.file_eq h.free

end Deposit.IsOf

namespace Disk

/-- A disk with the copies of deposits, and nothing else, added to another. -/
structure Deposits (before made : Disk) (deposits : List Deposit) : Prop where
  holds : before.Holds made (deposits.map Deposit.backup) (deposits.map Deposit.copy)
  isOf : ∀ x ∈ deposits, x.IsOf before
  copies : ∀ x ∈ deposits, made.at? x.copy = some (.file x.old)

/-- **Several copies are made.** -/
theorem exists_deposits {before : Disk} {sources : List (Path × String)} {files : List Location}
    (hfiles : List.Forall₂ (fun source file => ∃ old, before.stat source.1 = .ok (file, .file old)) sources files) :
    ∀ {disk made : Disk} {deposits : List Deposit} {backups : List Backup}, before.Deposits disk deposits →
      Backup.createAll disk sources = .ok (backups, made) →
      ∃ more : List Deposit, before.Deposits made (deposits ++ more) ∧ more.map Deposit.backup = backups ∧
        more.map Deposit.file = files ∧ backups.map Backup.source = sources.map Prod.fst := by
  induction hfiles with
  | nil =>
    intro disk made deposits backups h hcreate
    cases hcreate
    exact ⟨[], by rwa [List.append_nil], rfl, rfl, rfl⟩
  | @cons source file sources files hfile _ ih =>
    intro disk made deposits backups h hcreate
    obtain ⟨old, hstat⟩ := hfile
    rw [Backup.createAll] at hcreate
    cases hfirst : Backup.create disk source.1 source.2 with
    | error e => rw [hfirst] at hcreate; cases hcreate
    | ok first =>
      obtain ⟨b, next⟩ := first
      rw [hfirst] at hcreate
      dsimp only at hcreate
      cases hrest : Backup.createAll next sources with
      | error e => rw [hrest] at hcreate; cases hcreate
      | ok rest =>
        obtain ⟨backups, all⟩ := rest
        rw [hrest] at hcreate
        cases hcreate
        obtain ⟨contents, location, hsource, hread, hb, hnew, hsame⟩ := h.holds.exists_created hstat hfirst
        obtain rfl := Except.ok.inj ((read_of_stat hstat).symm.trans hread)
        obtain ⟨_, hread', hprint⟩ := hb.source
        rw [hsource] at hread'
        obtain rfl := Except.ok.inj (hread.symm.trans hread')
        have hnext : before.Deposits next (deposits ++ [⟨b, file, location, old⟩]) := by
          refine ⟨?_, fun x hx => ?_, fun x hx => ?_⟩
          · rw [List.map_append, List.map_append]
            exact h.holds.add hb hnew hsame
          · rcases List.mem_append.1 hx with hx | hx
            · exact h.isOf x hx
            · rw [List.mem_singleton.1 hx]
              exact ⟨hsource ▸ hstat, hprint, hb.names, hb.free⟩
          · rw [hsame.entries, at?_set disk hb.names.ne_nil]
            rcases List.mem_append.1 hx with hx | hx
            · rw [if_neg fun heq : location = x.copy => hnew (heq ▸ List.mem_map_of_mem hx), h.copies x hx]
            · rw [List.mem_singleton.1 hx, if_pos rfl]
        obtain ⟨more, hmade, hbackups, hfiles, hsources⟩ := ih hnext hrest
        refine ⟨⟨b, file, location, old⟩ :: more, ?_, ?_, ?_, ?_⟩
        · rwa [List.append_assoc] at hmade
        · rw [List.map_cons, hbackups]
        · rw [List.map_cons, hfiles]
        · rw [List.map_cons, List.map_cons, hsource, hsources]

/-! ## What is touched -/

section

variable {before disk disk' : Disk} {files : List Location} {bytes : List ByteArray}

/-- A name of a file is a location that means it, and no link to it unless it is its path. -/
theorem IsNameOf.exists_names (h : before.Alters disk files) (htree : before.IsTree) {source p : Path}
    {file : Location} {old : ByteArray} (hstat : before.stat source = .ok (file, .file old))
    (hname : before.IsNameOf source p) : ∃ location, before.Names p location ∧ before.Means file location ∧
      (before.Names source location ∨ disk.Plain location) := by
  obtain rfl | ⟨r, hr, hnames⟩ := hname
  · obtain ⟨location, hnames, hmeans⟩ := htree.exists_names hstat
    exact ⟨location, hnames, hmeans, .inl hnames⟩
  · obtain rfl := Except.ok.inj (hstat.symm.trans hr)
    have hfile : before.at? file = some (.file old) := stat_eq_ok (r := (file, .file old)) hstat
    refine ⟨file, hnames, .here, .inr ?_⟩
    rcases h.plain_or_link hfile .here with hplain | ⟨target, hlink, -⟩
    · exact hplain
    · rw [hfile] at hlink
      cases hlink

/-- **A file is touched** at a location that meant it. -/
theorem Touches.exists_setContents (h : before.Alters disk files) (htree : before.IsTree)
    (hfiles : before.HasFiles files) {source : Path} {file : Location} {old : ByteArray}
    (hstat : before.stat source = .ok (file, .file old)) (htouch : before.Touches bytes source disk disk') :
    ∃ location contents, before.Means file location ∧ (before.Names source location ∨ disk.Plain location) ∧
      (∀ new, contents = some new → new ∈ bytes) ∧ disk' = disk.setContents location contents := by
  cases htouch with
  | @write p contents hsame hmem hwrite =>
    obtain ⟨location, hmeans, hplain, hfollow⟩ := h.follow htree hfiles (hsame.trans hstat)
    obtain ⟨found, hfound, -, rfl⟩ := write_eq_ok hwrite
    obtain ⟨rfl, -⟩ := Prod.mk.inj (Except.ok.inj (hfollow.symm.trans hfound))
    exact ⟨location, some contents, hmeans, .inr hplain, fun new hnew => Option.some_inj.1 hnew ▸ hmem, rfl⟩
  | @replace p contents hname hmem hreplace =>
    obtain ⟨location, hnames, hmeans, hway⟩ := hname.exists_names h htree hstat
    obtain ⟨found, hfound, -, rfl⟩ := replace_eq_ok hreplace
    obtain rfl := (hnames.of_walks (h.walks hfiles)).unique hfound
    exact ⟨location, some contents, hmeans, hway, fun new hnew => Option.some_inj.1 hnew ▸ hmem, rfl⟩
  | remove hname hremove =>
    obtain ⟨location, hnames, hmeans, hway⟩ := hname.exists_names h htree hstat
    obtain ⟨found, hfound, -, -, rfl⟩ := remove_eq_ok hremove
    obtain rfl := (hnames.of_walks (h.walks hfiles)).unique hfound
    exact ⟨location, none, hmeans, hway, by simp, rfl⟩

end

/-! ## Disks with backups outstanding -/

/-- Backups of different files on a tree, with bytes that can be told apart by their fingerprints. -/
structure Backed (before : Disk) (bytes : List ByteArray) (deposits : List Deposit) : Prop where
  tree : before.IsTree
  isOf : ∀ x ∈ deposits, x.IsOf before
  files : (deposits.map Deposit.file).Nodup
  copies : (deposits.map Deposit.copy).Nodup
  old : ∀ x ∈ deposits, x.old ∈ bytes
  apart : ∀ x ∈ bytes, ∀ y ∈ bytes, fingerprint x = fingerprint y → x = y

/-- The links that mean a file are as they were. -/
def LinksKept (before disk : Disk) (file : Location) : Prop :=
  ∀ location, before.Means file location → location ≠ file → disk.at? location = before.at? location

/-- The links to a file are as they were, unless the path of the file was a link itself and is none any more. -/
def Tracked (before disk : Disk) (x : Deposit) : Prop :=
  before.LinksKept disk x.file ∨
    ∃ location, location ≠ x.file ∧ before.Names x.backup.source location ∧ disk.Plain location

/-- **What holds while backups are outstanding.**  Where a file was there may be any of the bytes or nothing.
Files whose backups are settled read as they did, and the copies are there that should be. -/
structure Interim (before : Disk) (bytes : List ByteArray) (deposits : List Deposit) (disk : Disk)
    (pending : List Deposit) (settled : List (Deposit × Bool)) : Prop where
  all : (pending ++ settled.map Prod.fst).Perm deposits
  alters : before.Alters disk (deposits.map Deposit.file)
  contents : ∀ x ∈ deposits, ∀ location contents, before.Means x.file location →
    disk.at? location = some (.file contents) → contents ∈ bytes
  tracked : ∀ x ∈ deposits, before.Tracked disk x
  waiting : ∀ x ∈ pending, disk.at? x.copy = some (.file x.old)
  restored : ∀ x ∈ settled, disk.read x.1.backup.source = .ok x.1.old
  copies : ∀ x ∈ settled, disk.at? x.1.copy = if x.2 then some (.file x.1.old) else none
  off : ∀ location, disk.at? location = before.at? location ∨
    (∃ x ∈ deposits, before.Means x.file location) ∨ (∃ x ∈ pending, x.copy = location) ∨
      ∃ x ∈ settled, x.2 = true ∧ x.1.copy = location

section

variable {before disk made : Disk} {bytes : List ByteArray} {deposits pending pre post : List Deposit}
  {settled : List (Deposit × Bool)} {x : Deposit}

theorem Backed.hasFiles (hb : before.Backed bytes deposits) : before.HasFiles (deposits.map Deposit.file) := by
  intro file hfile
  obtain ⟨x, hx, rfl⟩ := List.mem_map.1 hfile
  exact ⟨_, (hb.isOf x hx).file_eq⟩

/-- A file that is touched by its path is tracked, and so are the others. -/
theorem Backed.tracked (hb : before.Backed bytes deposits) (hx : x ∈ deposits) {location : Location}
    (hmeans : before.Means x.file location) (hway : before.Names x.backup.source location ∨ disk.Plain location)
    {y : Deposit} (hy : y ∈ deposits) (h : before.Tracked disk y) (contents : Option ByteArray) :
    before.Tracked (disk.setContents location contents) y := by
  have hfile := (hb.isOf x hx).file_eq
  have hne := hmeans.ne_nil hfile
  rcases h with hkept | ⟨other, hother, hnames, hplain⟩
  · by_cases hlink : location ≠ y.file ∧ before.Means y.file location
    · -- The name of a link is touched, and from now on the path ends there.
      obtain ⟨hother, hmeans'⟩ := hlink
      obtain rfl : x = y := List.inj_on_of_nodup_map hb.files hx hy
        (hmeans.unique hmeans' hfile (hb.isOf y hy).file_eq)
      rcases hway with hnames | hplain
      · exact .inr ⟨location, hother, hnames, plain_setContents disk hne contents⟩
      · obtain ⟨heq, -⟩ | ⟨target, hlinked⟩ := hmeans.at?_eq hfile
        · exact absurd heq hother
        · exact absurd ((hkept location hmeans hother).trans hlinked) (hplain.2 target)
    · refine .inl fun other hmeans' hother => ?_
      rw [at?_setContents disk hne, if_neg, hkept other hmeans' hother]
      rintro rfl
      exact hlink ⟨hother, hmeans'⟩
  · exact .inr ⟨other, hother, hnames, hplain.setContents hne contents⟩

namespace Interim

theorem mem_deposits (h : before.Interim bytes deposits disk pending settled) (hx : x ∈ pending) : x ∈ deposits :=
  h.all.subset (List.mem_append_left _ hx)

theorem mem_deposits_of_settled {y : Deposit × Bool} (h : before.Interim bytes deposits disk pending settled)
    (hy : y ∈ settled) : y.1 ∈ deposits :=
  h.all.subset (List.mem_append_right _ (List.mem_map_of_mem hy))

/-- The paths of copies name what they named. -/
theorem names (hb : before.Backed bytes deposits) (h : before.Interim bytes deposits disk pending settled)
    (hx : x ∈ deposits) : disk.Names x.backup.copy x.copy :=
  (hb.isOf x hx).names.of_walks (h.alters.walks hb.hasFiles)

/-- What tells deposits apart tells a pending one from all others. -/
theorem key_ne {key : Deposit → Location} (hkey : (deposits.map key).Nodup)
    (h : before.Interim bytes deposits disk (pre ++ x :: post) settled) :
    ∀ y ∈ pre ++ post ++ settled.map Prod.fst, key x ≠ key y := by
  have hperm : (x :: (pre ++ post ++ settled.map Prod.fst)).Perm deposits := by
    refine List.Perm.trans ?_ h.all
    rw [List.append_assoc, List.append_assoc, List.cons_append]
    exact List.perm_middle.symm
  have hnodup := (hperm.map key).nodup_iff.2 hkey
  rw [List.map_cons, List.nodup_cons] at hnodup
  exact fun y hy heq => hnodup.1 (heq ▸ List.mem_map_of_mem hy)

/-- When the copies are made, all backups are pending. -/
theorem start (hb : before.Backed bytes deposits) (hmade : before.Deposits made deposits) :
    before.Interim bytes deposits made deposits [] := by
  have hoff : ∀ location, location ∉ deposits.map Deposit.copy → made.at? location = before.at? location :=
    hmade.holds.differs.off
  have hmeant : ∀ x ∈ deposits, ∀ location, before.Means x.file location →
      made.at? location = before.at? location := by
    refine fun x hx location hmeans => hoff location fun hmem => ?_
    obtain ⟨y, hy, rfl⟩ := List.mem_map.1 hmem
    exact (hb.isOf y hy).not_means (hb.isOf x hx) hmeans
  refine ⟨by simp, ⟨hmade.holds.differs.workingDirectory, fun location => ?_⟩,
    fun x hx location contents hmeans hentry => ?_, fun x hx => .inl fun location hmeans _ => hmeant x hx _ hmeans,
    hmade.copies, by simp, by simp, fun location => ?_⟩
  · by_cases hmem : location ∈ deposits.map Deposit.copy
    · exact .inr ⟨hmade.holds.differs.plain location hmem, .inl (hmade.holds.free hmem)⟩
    · exact .inl (hoff location hmem)
  · rw [hmeant x hx location hmeans] at hentry
    obtain ⟨-, hfile⟩ | ⟨target, hlink⟩ := hmeans.at?_eq (hb.isOf x hx).file_eq
    · rw [hentry] at hfile
      cases hfile
      exact hb.old x hx
    · rw [hentry] at hlink
      cases hlink
  · by_cases hmem : location ∈ deposits.map Deposit.copy
    · exact .inr (.inr (.inl (List.mem_map.1 hmem)))
    · exact .inl (hoff location hmem)

/-- **Touching a file** whose backup is pending has no effect on the others. -/
theorem touch (hb : before.Backed bytes deposits) (h : before.Interim bytes deposits disk pending settled)
    (hx : x ∈ pending) {location : Location} {contents : Option ByteArray}
    (hmeans : before.Means x.file location) (hway : before.Names x.backup.source location ∨ disk.Plain location)
    (hbytes : ∀ new, contents = some new → new ∈ bytes) :
    before.Interim bytes deposits (disk.setContents location contents) pending settled := by
  have hmem := h.mem_deposits hx
  have hne := hmeans.ne_nil (hb.isOf x hmem).file_eq
  have halters := h.alters.setContents hne (.inr ⟨_, List.mem_map_of_mem hmem, hmeans⟩) contents
  have hat := at?_setContents disk hne contents
  have hcopy : ∀ y ∈ deposits, (disk.setContents location contents).at? y.copy = disk.at? y.copy := by
    intro y hy
    rw [hat, if_neg]
    rintro rfl
    exact (hb.isOf y hy).not_means (hb.isOf x hmem) hmeans
  refine ⟨h.all, halters, fun y hy other new hother hentry => ?_, fun y hy => ?_, fun y hy => ?_, fun y hy => ?_,
    fun y hy => ?_, fun other => ?_⟩
  · rw [hat] at hentry
    split at hentry
    · obtain ⟨_, hnew, heq⟩ := Option.map_eq_some_iff.1 hentry
      exact Entry.file.inj heq ▸ hbytes _ hnew
    · exact h.contents y hy other new hother hentry
  · exact hb.tracked hmem hmeans hway hy (h.tracked y hy) contents
  · rw [hcopy y (h.mem_deposits hy), h.waiting y hy]
  · have hy' := hb.isOf y.1 (h.mem_deposits_of_settled hy)
    obtain ⟨pre, post, rfl⟩ := List.append_of_mem hx
    have hfile : x.file ≠ y.1.file :=
      h.key_ne hb.files y.1 (List.mem_append_right _ (List.mem_map_of_mem hy))
    rw [h.alters.read_congr halters hb.tree hb.hasFiles (fun other hother => ?_) hy'.stat, h.restored y hy]
    rw [hat, if_neg]
    rintro rfl
    exact hfile (hmeans.unique hother (hb.isOf x hmem).file_eq hy'.file_eq)
  · rw [hcopy y.1 (h.mem_deposits_of_settled hy), h.copies y hy]
  · rw [hat]
    split
    · rename_i heq
      exact .inr (.inl ⟨x, hmem, heq ▸ hmeans⟩)
    · exact h.off other

/-- A file passes exactly when it reads as it did. -/
theorem verify_iff (hb : before.Backed bytes deposits) (h : before.Interim bytes deposits disk pending settled)
    (hx : x ∈ pending) : x.backup.verify disk = true ↔ disk.read x.backup.source = .ok x.old := by
  have hmem := h.mem_deposits hx
  have hof := hb.isOf x hmem
  refine ⟨fun hverify => ?_, fun hread => Backup.verify_eq_true hread hof.print⟩
  obtain ⟨location, hmeans, -, hfollow⟩ := h.alters.follow hb.tree hb.hasFiles hof.stat
  rw [Backup.verify] at hverify
  cases hread : disk.read x.backup.source with
  | error e => rw [hread] at hverify; cases hverify
  | ok contents =>
    rw [hread] at hverify
    have hbytes := h.contents x hmem location contents hmeans ((read_eq_ok_iff hfollow).1 hread)
    exact congrArg Except.ok (hb.apart _ hbytes _ (hb.old x hmem) ((beq_iff_eq.1 hverify).trans hof.print))

/-- A file whose backup is pending can be restored. -/
theorem exists_restore (hb : before.Backed bytes deposits) (h : before.Interim bytes deposits disk pending settled)
    (hx : x ∈ pending) : ∃ disk', x.backup.restore disk = .ok disk' ∧
      before.Interim bytes deposits disk' pending settled ∧ disk'.read x.backup.source = .ok x.old := by
  have hmem := h.mem_deposits hx
  have hof := hb.isOf x hmem
  obtain ⟨location, hmeans, hplain, hfollow⟩ := h.alters.follow hb.tree hb.hasFiles hof.stat
  have hne := hmeans.ne_nil hof.file_eq
  refine ⟨_, Backup.restore_eq hfollow hplain.1 (h.names hb hmem) (h.waiting x hx), ?_, ?_⟩
  · have hold : ∀ new, some x.old = some new → new ∈ bytes := fun new hnew => Option.some_inj.1 hnew ▸ hb.old x hmem
    exact h.touch hb hx hmeans (.inr hplain) hold
  · rw [read_eq_ok_iff ((hplain.sameWays_set hne x.old).follow hfollow), at?_set disk hne, if_pos rfl]

/-- A copy whose backup is pending can be dealt with. -/
theorem exists_discard (hb : before.Backed bytes deposits)
    (h : before.Interim bytes deposits disk pending settled) (hx : x ∈ pending) (keep restored : Bool) :
    ∃ disk', x.backup.discard disk keep restored = (disk', .ok restored) ∧
      before.Alters disk' (deposits.map Deposit.file) ∧
      disk'.at? x.copy = (if keep then some (.file x.old) else none) ∧
      ∀ location, x.copy ≠ location → disk'.at? location = disk.at? location := by
  have hmem := h.mem_deposits hx
  have hof := hb.isOf x hmem
  have hne := hof.names.ne_nil
  rw [Backup.discard]
  cases keep with
  | true => exact ⟨disk, rfl, h.alters, h.waiting x hx, fun _ _ => rfl⟩
  | false =>
    have hremove := (h.names hb hmem).remove_eq (h.waiting x hx)
    refine ⟨disk.unset x.copy, ?_, h.alters.setContents hne (.inl hof.free) none, ?_, fun location hother => ?_⟩
    · rw [if_neg Bool.false_ne_true, hremove]
    · rw [at?_unset disk hne, if_pos rfl]
      rfl
    · rw [at?_unset disk hne, if_neg hother]

/-- **A backup whose file reads as it did becomes a settled one.** -/
theorem discard (hb : before.Backed bytes deposits)
    (h : before.Interim bytes deposits disk (pre ++ x :: post) settled)
    (hread : disk.read x.backup.source = .ok x.old) (keep restored : Bool) :
    ∃ disk', x.backup.discard disk keep restored = (disk', .ok restored) ∧
      before.Interim bytes deposits disk' (pre ++ post) ((x, keep) :: settled) := by
  have hx : x ∈ pre ++ x :: post := List.mem_append_right _ List.mem_cons_self
  have hmem := h.mem_deposits hx
  have hof := hb.isOf x hmem
  have hrest : ∀ y ∈ pre ++ post, y ∈ pre ++ x :: post := fun y hy =>
    List.perm_middle.symm.subset (List.mem_cons_of_mem x hy)
  have hcopies := h.key_ne hb.copies
  obtain ⟨disk', hdiscard, halters, hcopy, hoff⟩ := h.exists_discard hb hx keep restored
  have hmeant : ∀ y ∈ deposits, ∀ location, before.Means y.file location →
      disk'.at? location = disk.at? location := fun y hy location hmeans =>
    hoff location fun heq => hof.not_means (hb.isOf y hy) (heq ▸ hmeans)
  have hsame : ∀ y ∈ deposits, disk'.read y.backup.source = disk.read y.backup.source := fun y hy =>
    h.alters.read_congr halters hb.tree hb.hasFiles (hmeant y hy) (hb.isOf y hy).stat
  refine ⟨disk', hdiscard, ?_, halters, fun y hy location new hmeans hentry => ?_, fun y hy => ?_, fun y hy => ?_,
    List.forall_mem_cons.2 ⟨?_, fun y hy => ?_⟩, List.forall_mem_cons.2 ⟨hcopy, fun y hy => ?_⟩,
    fun location => ?_⟩
  · refine List.Perm.trans ?_ h.all
    rw [List.map_cons, List.append_assoc, List.append_assoc, List.cons_append]
    exact List.perm_middle.append_left pre
  · exact h.contents y hy location new hmeans (hmeant y hy location hmeans ▸ hentry)
  · rcases h.tracked y hy with hkept | ⟨location, hother, hnames, hplain⟩
    · exact .inl fun location hmeans hother => (hmeant y hy location hmeans).trans (hkept location hmeans hother)
    · refine .inr ⟨location, hother, hnames, ?_⟩
      by_cases heq : x.copy = location
      · rw [← heq, Plain, hcopy]
        cases keep <;> simp
      · rwa [Plain, hoff location heq]
  · rw [hoff _ (hcopies y (List.mem_append_left _ hy)), h.waiting y (hrest y hy)]
  · rw [hsame x hmem, hread]
  · rw [hsame y.1 (h.mem_deposits_of_settled hy), h.restored y hy]
  · rw [hoff _ (hcopies y.1 (List.mem_append_right _ (List.mem_map_of_mem hy))), h.copies y hy]
  · by_cases heq : x.copy = location
    · cases keep with
      | true => exact .inr (.inr (.inr ⟨_, List.mem_cons_self, rfl, heq⟩))
      | false =>
        subst heq
        rw [hcopy, hof.free]
        exact .inl rfl
    · rw [hoff location heq]
      rcases h.off location with hsame | hmeans | ⟨y, hy, hlocation⟩ | ⟨y, hy, hkept⟩
      · exact .inl hsame
      · exact .inr (.inl hmeans)
      · rcases List.mem_cons.1 (List.perm_middle.subset hy) with rfl | hy
        · exact absurd hlocation heq
        · exact .inr (.inr (.inl ⟨y, hy, hlocation⟩))
      · exact .inr (.inr (.inr ⟨y, List.mem_cons_of_mem _ hy, hkept⟩))

/-- **Settling any backup that is pending** succeeds, and tells whether the file had to be restored. -/
theorem settle (hb : before.Backed bytes deposits)
    (h : before.Interim bytes deposits disk (pre ++ x :: post) settled) (keep : Bool) :
    ∃ disk' restored, x.backup.settle disk keep = (disk', .ok restored) ∧
      (restored = true ↔ disk.read x.backup.source ≠ .ok x.old) ∧
      before.Interim bytes deposits disk' (pre ++ post) ((x, keep) :: settled) := by
  have hx : x ∈ pre ++ x :: post := List.mem_append_right _ List.mem_cons_self
  have hverify := h.verify_iff hb hx
  rw [Backup.settle]
  by_cases hread : disk.read x.backup.source = .ok x.old
  · obtain ⟨disk', hdiscard, hsettled⟩ := h.discard hb hread keep false
    rw [if_pos (hverify.2 hread)]
    exact ⟨disk', false, hdiscard, ⟨fun hfalse => absurd hfalse Bool.false_ne_true, fun hne => absurd hread hne⟩,
      hsettled⟩
  · obtain ⟨next, hrestore, hnext, hrestored⟩ := h.exists_restore hb hx
    obtain ⟨disk', hdiscard, hsettled⟩ := hnext.discard hb hrestored keep true
    rw [if_neg fun hpass => hread (hverify.1 hpass), hrestore]
    exact ⟨disk', true, hdiscard, ⟨fun _ => hread, fun _ => rfl⟩, hsettled⟩

/-- Settling all that is pending settles one after the other. -/
theorem settleAll (hb : before.Backed bytes deposits) (keep : Bool) : ∀ {pending : List Deposit} {disk : Disk}
    {settled : List (Deposit × Bool)}, before.Interim bytes deposits disk pending settled →
      before.Reached bytes made (deposits.map Deposit.backup) disk (pending.map Deposit.backup)
        (settled.map (Prod.map Deposit.backup id)) →
      ∃ disk', Backup.settleAll disk keep (pending.map Deposit.backup) = (disk', none) ∧
        before.Reached bytes made (deposits.map Deposit.backup) disk' []
          (((pending.map (·, keep)).reverse ++ settled).map (Prod.map Deposit.backup id)) := by
  intro pending
  induction pending with
  | nil => exact fun _ hreached => ⟨_, rfl, hreached⟩
  | cons x pending ih =>
    intro disk settled h hreached
    have hfirst : before.Interim bytes deposits disk ([] ++ x :: pending) settled := h
    obtain ⟨next, restored, hsettle, -, hnext⟩ := hfirst.settle hb keep
    have hreached' := hreached.settle [] _ keep
    rw [hsettle] at hreached'
    obtain ⟨disk', hall, hdone⟩ := ih hnext hreached'
    refine ⟨disk', ?_, by simpa using hdone⟩
    rw [List.map_cons, Backup.settleAll, hsettle]
    dsimp only
    rw [hall]

/-- No link to a file was touched if its path still leads there. -/
theorem linksKept (hb : before.Backed bytes deposits) (h : before.Interim bytes deposits disk pending settled)
    (hx : x ∈ deposits) (hfollow : disk.follow x.backup.source = .ok (x.file, false)) :
    before.LinksKept disk x.file := by
  rcases h.tracked x hx with hkept | ⟨location, hother, hnames, hplain⟩
  · exact hkept
  · have hends := (hnames.of_walks (h.alters.walks hb.hasFiles)).follow_eq hplain
    exact absurd (Prod.mk.inj (Except.ok.inj (hends.symm.trans hfollow))).1 hother

/-- A path that means one of the files means its own. -/
theorem eq_file_of_stat (hb : before.Backed bytes deposits)
    (h : before.Interim bytes deposits disk pending settled) (hx : x ∈ deposits) {y : Deposit} (hy : y ∈ deposits)
    {entry : Entry} (hstat : disk.stat x.backup.source = .ok (y.file, entry)) :
    y.file = x.file ∧ disk.follow x.backup.source = .ok (x.file, false) := by
  have hof := hb.isOf x hx
  obtain ⟨location, hmeans, -, hfollow⟩ := h.alters.follow hb.tree hb.hasFiles hof.stat
  obtain ⟨slash, hfollow'⟩ := follow_of_stat hstat
  obtain ⟨rfl, -⟩ := Prod.mk.inj (Except.ok.inj (hfollow.symm.trans hfollow'))
  obtain ⟨heq, -⟩ | ⟨target, hlink⟩ := hmeans.at?_eq hof.file_eq
  · exact ⟨heq, heq ▸ hfollow⟩
  · rw [(hb.isOf y hy).file_eq] at hlink
    cases hlink

/-- All paths of a file mean it as they did when its own does. -/
theorem stat_of_source (hb : before.Backed bytes deposits)
    (h : before.Interim bytes deposits disk pending settled) (hx : x ∈ deposits) {r : Location × Entry}
    (hsource : disk.stat x.backup.source = .ok r) (hfile : r.1 ∈ deposits.map Deposit.file) {p : Path}
    (hstat : before.stat p = .ok r) : disk.stat p = .ok r := by
  obtain ⟨y, hy, hr⟩ := List.mem_map.1 hfile
  obtain ⟨location, entry⟩ := r
  obtain rfl : y.file = location := hr
  obtain ⟨heq, hfollow⟩ := h.eq_file_of_stat hb hx hy hsource
  obtain rfl : Entry.file y.old = entry :=
    Option.some_inj.1 ((hb.isOf y hy).file_eq.symm.trans (stat_eq_ok hstat))
  refine h.alters.stat_of_agree hb.tree hb.hasFiles (fun other hother => ?_) hstat
  by_cases hlink : other = y.file
  · rw [hlink, stat_eq_ok hsource, stat_eq_ok hstat]
  · rw [heq] at hother hlink
    exact h.linksKept hb hx hfollow other hother hlink

/-- Every backup keeps its promise. -/
theorem restores (hb : before.Backed bytes deposits) (h : before.Interim bytes deposits disk pending settled) :
    before.Restores disk (deposits.map Deposit.file) (pending.map Deposit.backup)
      (settled.map (Prod.map Deposit.backup id)) := by
  have hread : ∀ x ∈ deposits, before.read x.backup.source = .ok x.old := fun x hx =>
    read_of_stat (hb.isOf x hx).stat
  have hconcerned : ∀ location, ¬ before.Concerned (deposits.map Deposit.file) (pending.map Deposit.backup)
      (settled.map (Prod.map Deposit.backup id)) location → disk.at? location = before.at? location := by
    intro location hother
    rcases h.off location with hsame | ⟨x, hx, hmeans⟩ | ⟨x, hx, rfl⟩ | ⟨x, hx, hkeep, rfl⟩
    · exact hsame
    · exact absurd (.inl ⟨_, List.mem_map_of_mem hx, hmeans⟩) hother
    · exact absurd (.inr ⟨x.backup, .inl (List.mem_map_of_mem hx), (hb.isOf x (h.mem_deposits hx)).names⟩) hother
    · refine absurd (.inr ⟨x.1.backup, .inr (List.mem_map.2 ⟨x, hx, Prod.ext rfl hkeep⟩), ?_⟩) hother
      exact (hb.isOf x.1 (h.mem_deposits_of_settled hx)).names
  have hcopy : ∀ x ∈ settled, disk.Names x.1.backup.copy x.1.copy := fun x hx =>
    h.names hb (h.mem_deposits_of_settled hx)
  have hothers : ∀ p r, before.stat p = .ok r → r.1 ∉ deposits.map Deposit.file → disk.stat p = .ok r :=
    fun p r => h.alters.stat hb.tree hb.hasFiles
  refine ⟨fun b hpending keep => ?_, fun y hy => ?_, fun b hkept => ?_, fun b hdropped => ?_,
    hothers, fun y hy p r hsource hstat => ?_, fun p r hstat => ?_, hconcerned⟩
  · obtain ⟨x, hx, rfl⟩ := List.mem_map.1 hpending
    rw [hread x (h.mem_deposits hx)]
    obtain ⟨pre, post, rfl⟩ := List.append_of_mem hx
    obtain ⟨disk', restored, hsettle, hiff, -⟩ := h.settle hb keep
    exact ⟨disk', restored, hsettle, hiff⟩
  · obtain ⟨x, hx, rfl⟩ := List.mem_map.1 hy
    exact (h.restored x hx).trans (hread x.1 (h.mem_deposits_of_settled hx)).symm
  · obtain ⟨⟨x, keep⟩, hx, heq⟩ := List.mem_map.1 hkept
    obtain ⟨rfl, rfl⟩ := Prod.mk.inj heq
    rw [read_of_stat ((hcopy _ hx).stat_eq (h.copies _ hx)), hread x (h.mem_deposits_of_settled hx)]
  · obtain ⟨⟨x, keep⟩, hx, heq⟩ := List.mem_map.1 hdropped
    obtain ⟨rfl, rfl⟩ := Prod.mk.inj heq
    exact (hcopy _ hx).stat_eq_error (h.copies _ hx)
  · by_cases hfile : r.1 ∈ deposits.map Deposit.file
    · obtain ⟨x, hx, rfl⟩ := List.mem_map.1 hy
      exact h.stat_of_source hb (h.mem_deposits_of_settled hx) hsource hfile hstat
    · exact hothers p r hstat hfile
  · refine (h.alters.stat_or hstat).imp_right fun hnew => ?_
    by_contra hother
    exact hnew (hconcerned r.1 hother)

end Interim

/-- **Whatever is touched and settled, in any order**, the disk stays one on which all that holds. -/
theorem Reached.exists_interim {pending : List Backup} {settled : List (Backup × Bool)}
    (hb : before.Backed bytes deposits) (hmade : before.Deposits made deposits)
    (h : before.Reached bytes made (deposits.map Deposit.backup) disk pending settled) :
    ∃ waiting done, List.map Deposit.backup waiting = pending ∧
      List.map (Prod.map Deposit.backup id) done = settled ∧
      before.Interim bytes deposits disk waiting done := by
  induction h with
  | start => exact ⟨deposits, [], rfl, rfl, .start hb hmade⟩
  | touch _ hpending htouch ih =>
    obtain ⟨waiting, done, rfl, rfl, hinterim⟩ := ih
    obtain ⟨x, hx, rfl⟩ := List.mem_map.1 hpending
    obtain ⟨location, contents, hmeans, hway, hbytes, rfl⟩ := htouch.exists_setContents hinterim.alters hb.tree
      hb.hasFiles (hb.isOf x (hinterim.mem_deposits hx)).stat
    exact ⟨waiting, done, rfl, rfl, hinterim.touch hb hx hmeans hway hbytes⟩
  | settle _ _ keep _ ih =>
    obtain ⟨waiting, done, hwaiting, rfl, hinterim⟩ := ih
    obtain ⟨pre, rest, rfl, rfl, hrest⟩ := List.map_eq_append_iff.1 hwaiting
    obtain ⟨x, post, rfl, rfl, rfl⟩ := List.map_eq_cons_iff.1 hrest
    obtain ⟨disk', restored, hsettle, -, hsettled⟩ := hinterim.settle hb keep
    refine ⟨pre ++ post, (x, keep) :: done, List.map_append, rfl, ?_⟩
    rw [hsettle]
    exact hsettled

end

/-! ## Backups restore exactly -/

section

variable {before made disk : Disk} {sources : List (Path × String)} {files : List Location}
  {bytes : List ByteArray} {backups pending : List Backup} {settled : List (Backup × Bool)}

/-- Files that are different and can be told apart are backed up. -/
theorem exists_backed (htree : before.IsTree)
    (hfiles : List.Forall₂ (fun source file => ∃ old, before.stat source.1 = .ok (file, .file old)) sources files)
    (hdifferent : files.Nodup)
    (hbytes : ∀ source ∈ sources, ∀ old, before.read source.1 = .ok old → old ∈ bytes)
    (hapart : ∀ x ∈ bytes, ∀ y ∈ bytes, fingerprint x = fingerprint y → x = y)
    (hcreate : Backup.createAll before sources = .ok (backups, made)) :
    ∃ deposits, before.Backed bytes deposits ∧ before.Deposits made deposits ∧
      deposits.map Deposit.backup = backups ∧ deposits.map Deposit.file = files ∧
      backups.map Backup.source = sources.map Prod.fst := by
  have hnone : before.Deposits before [] := ⟨.refl before, by simp, by simp⟩
  obtain ⟨deposits, hmade, hbackups, hfile, hsources⟩ := exists_deposits hfiles hnone hcreate
  rw [List.nil_append] at hmade
  refine ⟨deposits, ⟨htree, hmade.isOf, hfile ▸ hdifferent, hmade.holds.nodup, fun x hx => ?_, hapart⟩, hmade,
    hbackups, hfile, hsources⟩
  have hsource : x.backup.source ∈ sources.map Prod.fst := by
    rw [← hsources, ← hbackups]
    exact List.mem_map_of_mem (List.mem_map_of_mem hx)
  obtain ⟨source, hmem, heq⟩ := List.mem_map.1 hsource
  exact hbytes source hmem x.old (heq ▸ read_of_stat (hmade.isOf x hx).stat)

/-- Settling all that is pending in order does not fail. -/
theorem settleAll_reached (htree : before.IsTree)
    (hfiles : List.Forall₂ (fun source file => ∃ old, before.stat source.1 = .ok (file, .file old)) sources files)
    (hdifferent : files.Nodup)
    (hbytes : ∀ source ∈ sources, ∀ old, before.read source.1 = .ok old → old ∈ bytes)
    (hapart : ∀ x ∈ bytes, ∀ y ∈ bytes, fingerprint x = fingerprint y → x = y)
    (hcreate : Backup.createAll before sources = .ok (backups, made))
    (hreached : before.Reached bytes made backups disk pending settled) (keep : Bool) :
    ∃ disk', Backup.settleAll disk keep pending = (disk', none) ∧
      before.Reached bytes made backups disk' [] ((pending.map (·, keep)).reverse ++ settled) := by
  obtain ⟨deposits, hb, hmade, rfl, rfl, -⟩ := exists_backed htree hfiles hdifferent hbytes hapart hcreate
  obtain ⟨waiting, done, rfl, rfl, hinterim⟩ := hreached.exists_interim hb hmade
  obtain ⟨disk', hall, hdone⟩ := hinterim.settleAll hb keep hreached
  refine ⟨disk', hall, ?_⟩
  rw [List.map_append, List.map_reverse, List.map_map] at hdone
  rwa [List.map_map]

/-- **Backups restore exactly, and touch nothing else.**  Different files are backed up, each with any suffix.
Then they are written over, replaced or removed in any way, and their backups are settled in any order, each with
its copy kept or not.  On every disk that is reached, each backup keeps its promise. -/
theorem restores_exactly (htree : before.IsTree)
    (hfiles : List.Forall₂ (fun source file => ∃ old, before.stat source.1 = .ok (file, .file old)) sources files)
    (hdifferent : files.Nodup)
    (hbytes : ∀ source ∈ sources, ∀ old, before.read source.1 = .ok old → old ∈ bytes)
    (hapart : ∀ x ∈ bytes, ∀ y ∈ bytes, fingerprint x = fingerprint y → x = y)
    (hcreate : Backup.createAll before sources = .ok (backups, made))
    (hreached : before.Reached bytes made backups disk pending settled) :
    backups.map Backup.source = sources.map Prod.fst ∧ (pending ++ settled.map Prod.fst).Perm backups ∧
      before.Restores disk files pending settled := by
  obtain ⟨deposits, hb, hmade, rfl, rfl, hsources⟩ :=
    exists_backed htree hfiles hdifferent hbytes hapart hcreate
  obtain ⟨waiting, done, rfl, rfl, hinterim⟩ := hreached.exists_interim hb hmade
  refine ⟨hsources, ?_, hinterim.restores hb⟩
  have hall := hinterim.all.map Deposit.backup
  rw [List.map_append, List.map_map] at hall
  rwa [List.map_map]

/-- A disk with two files. -/
def withTwoFiles : Disk := { entries := [(["a.js"], .file "1;".toUTF8), (["b.js"], .file "2;".toUTF8)] }

/-- What the two files have, and what the first of them gets. -/
def threeContents : List ByteArray := ["1;".toUTF8, "2;".toUTF8, "3;".toUTF8]

theorem withTwoFiles_evaluates :
    (isSingleName "a.js" = true ∧ isSingleName "b.js" = true ∧ isSingleName "a.js.bak" = true ∧
      isSingleName "b.js.old" = true) ∧
    (Path.append ⟨"a.js"⟩ ".bak" = ⟨"a.js.bak"⟩ ∧ Path.append ⟨"b.js"⟩ ".old" = ⟨"b.js.old"⟩) ∧
    ∀ x ∈ threeContents, ∀ y ∈ threeContents, fingerprint x = fingerprint y → x = y := by
  decide +kernel

theorem withTwoFiles_isTree : withTwoFiles.IsTree :=
  .of_flat (by decide) (List.forall_mem_cons.2 ⟨⟨"a.js", by constructor <;> decide, rfl⟩,
    List.forall_mem_singleton.2 ⟨"b.js", by constructor <;> decide, rfl⟩⟩)

theorem withTwoFiles_stat : withTwoFiles.stat ⟨"a.js"⟩ = .ok (["a.js"], .file "1;".toUTF8) ∧
    withTwoFiles.stat ⟨"b.js"⟩ = .ok (["b.js"], .file "2;".toUTF8) := by
  obtain ⟨⟨hfirst, hsecond, -⟩, -⟩ := withTwoFiles_evaluates
  exact ⟨(names_of_home rfl _ hfirst).stat_eq rfl, (names_of_home rfl _ hsecond).stat_eq rfl⟩

/-- One file is written over and the other removed, and then the backup that was made last is settled first. -/
theorem exists_reached_withTwoFiles : ∃ a b made disk,
    Backup.createAll withTwoFiles [(⟨"a.js"⟩, ".bak"), (⟨"b.js"⟩, ".old")] = .ok ([a, b], made) ∧
      withTwoFiles.Reached threeContents made [a, b] disk [] [(a, true), (b, false)] := by
  obtain ⟨⟨hfirst, hsecond, hbak, hold⟩, hcopies, -⟩ := withTwoFiles_evaluates
  let a : Backup := ⟨⟨"a.js"⟩, Path.append ⟨"a.js"⟩ ".bak", fingerprint "1;".toUTF8⟩
  let b : Backup := ⟨⟨"b.js"⟩, Path.append ⟨"b.js"⟩ ".old", fingerprint "2;".toUTF8⟩
  let next := withTwoFiles.set ["a.js.bak"] (.file "1;".toUTF8)
  let made := next.set ["b.js.old"] (.file "2;".toUTF8)
  let written := made.set ["a.js"] (.file "3;".toUTF8)
  have hcreate : Backup.createAll withTwoFiles [(⟨"a.js"⟩, ".bak"), (⟨"b.js"⟩, ".old")] = .ok ([a, b], made) := by
    have hnext : Backup.create withTwoFiles ⟨"a.js"⟩ ".bak" = .ok (a, next) :=
      Backup.create_of_free (read_of_stat withTwoFiles_stat.1) (hcopies.1 ▸ names_of_home rfl _ hbak) rfl
    have hmade : Backup.create next ⟨"b.js"⟩ ".old" = .ok (b, made) :=
      Backup.create_of_free (read_of_stat ((names_of_home rfl _ hsecond).stat_eq rfl))
        (hcopies.2 ▸ names_of_home rfl _ hold) rfl
    rw [Backup.createAll, hnext]
    dsimp only
    rw [Backup.createAll, hmade]
    rfl
  have hwrite : made.write ⟨"a.js"⟩ "3;".toUTF8 = .ok written := by
    have hplain : made.Plain ["a.js"] :=
      plain_of_eq_file (rfl : made.at? ["a.js"] = some (.file "1;".toUTF8))
    exact write_eq ((names_of_home rfl _ hfirst).follow_eq hplain) hplain.1
  have hremove : written.remove ⟨"b.js"⟩ = .ok (written.unset ["b.js"]) := by
    have hfile : written.at? ["b.js"] = some (.file "2;".toUTF8) := rfl
    exact (names_of_home rfl _ hsecond).remove_eq hfile
  have htouched : withTwoFiles.Reached threeContents made [a, b] (written.unset ["b.js"]) [a, b] [] :=
    .touch (.touch .start (b := a) (by simp) (.write rfl (by simp [threeContents]) hwrite)) (b := b) (by simp)
      (.remove (.inl rfl) hremove)
  exact ⟨a, b, made, _, hcreate, (htouched.settle [a] [] false).settle [] [] true⟩

/-- Two files are as they were after this, and one copy is left. -/
theorem restores_exactly_reversed : ∃ a b made disk,
    Backup.createAll withTwoFiles [(⟨"a.js"⟩, ".bak"), (⟨"b.js"⟩, ".old")] = .ok ([a, b], made) ∧
      withTwoFiles.Reached threeContents made [a, b] disk [] [(a, true), (b, false)] ∧
      withTwoFiles.Restores disk [["a.js"], ["b.js"]] [] [(a, true), (b, false)] := by
  obtain ⟨a, b, made, disk, hcreate, hreached⟩ := exists_reached_withTwoFiles
  obtain ⟨ha, hb⟩ := withTwoFiles_stat
  have hfiles : List.Forall₂ (fun source file => ∃ old, withTwoFiles.stat source.1 = .ok (file, .file old))
      [(⟨"a.js"⟩, ".bak"), (⟨"b.js"⟩, ".old")] [["a.js"], ["b.js"]] :=
    .cons ⟨_, ha⟩ (.cons ⟨_, hb⟩ .nil)
  have hbytes : ∀ source ∈ [((⟨"a.js"⟩ : Path), ".bak"), (⟨"b.js"⟩, ".old")], ∀ old,
      withTwoFiles.read source.1 = .ok old → old ∈ threeContents := by
    refine List.forall_mem_cons.2 ⟨fun old hread => ?_, List.forall_mem_singleton.2 fun old hread => ?_⟩
    · rw [read_of_stat ha] at hread
      simp [← Except.ok.inj hread, threeContents]
    · rw [read_of_stat hb] at hread
      simp [← Except.ok.inj hread, threeContents]
  obtain ⟨-, -, hrestores⟩ := restores_exactly withTwoFiles_isTree hfiles (by decide) hbytes
    withTwoFiles_evaluates.2.2 hcreate hreached
  exact ⟨a, b, made, disk, hcreate, hreached, hrestores⟩

end

end Disk

end Abridge
