import Abridge.Disk.Operations
import Abridge.Proofs.Table
import Mathlib.Logic.Basic

/-!
# Ways on a disk

A path is followed through directories and links; what lies in files never matters.  So a disk leads
every path where another one does as soon as it has the directories and links of the other
(`Disk.Leads`), and an operation that puts a file where no directory and no link is, or takes a file away,
leaves all ways as they are.  This is what lets a run undo what it did by path: the paths still mean the
locations that they meant when the files were made.

## What is here

* `Disk.Walks`, `Disk.Leads`, `Disk.SameWays`: disks that lead paths to the same locations.
* `Disk.Same`: two disks that no path can tell apart.
* `Disk.create_eq_ok`, `Disk.createDrawn_eq_ok`, `Disk.replace_eq_ok`, `Disk.remove_eq_ok`,
  `Disk.write_eq_ok`: what the operations on files do, once for all proofs about them.
-/

set_option autoImplicit false

namespace Abridge

namespace Disk

/-! ## Locations -/

theorem at?_set (disk : Disk) {location : Location} (hlocation : location ≠ []) (entry : Entry)
    (other : Location) :
    (disk.set location entry).at? other = if location = other then some entry else disk.at? other := by
  cases other with
  | nil => rw [if_neg hlocation]; rfl
  | cons name names =>
    change (disk.entries.put location entry).get? (name :: names) = _
    rw [Table.get?_put]
    exact if_congr (by simp) rfl rfl

theorem at?_unset (disk : Disk) {location : Location} (hlocation : location ≠ []) (other : Location) :
    (disk.unset location).at? other = if location = other then none else disk.at? other := by
  cases other with
  | nil => rw [if_neg hlocation]; rfl
  | cons name names =>
    change (disk.entries.erase location).get? (name :: names) = _
    rw [Table.get?_erase]
    exact if_congr (by simp) rfl rfl

/-! ## Disks that lead paths alike -/

/-- Whatever directory parts lead to on a disk, they lead to it on another. -/
structure Walks (disk disk' : Disk) : Prop where
  workingDirectory : disk'.workingDirectory = disk.workingDirectory
  walk : ∀ {links : Nat} {directory : Location} {parts : List String} {r : Location × Nat},
    disk.walk links directory parts = .ok r → disk'.walk links directory parts = .ok r

namespace Walks

variable {disk disk' : Disk}

theorem aimFrom (h : disk.Walks disk') {links : Nat} {directory : Location} {p : Path}
    {r : Aim × Nat} (hr : disk.aimFrom links directory p = .ok r) :
    disk'.aimFrom links directory p = .ok r := by
  rw [Disk.aimFrom] at hr ⊢
  split at hr
  · cases hr
  rename_i hnul
  rw [if_neg hnul]
  split at hr
  · cases hr
  rename_i hempty
  rw [if_neg hempty]
  split at hr
  · exact hr
  · split at hr
    · cases hr
    · rename_i parent links' hwalk
      rw [h.walk hwalk]
      exact hr

theorem aim (h : disk.Walks disk') {p : Path} {a : Aim} (ha : disk.aim p = .ok a) :
    disk'.aim p = .ok a := by
  rw [Disk.aim] at ha ⊢
  cases hr : disk.aimFrom linkLimit disk.workingDirectory p with
  | error e => rw [hr] at ha; cases ha
  | ok r =>
    rw [h.workingDirectory, h.aimFrom hr]
    rwa [hr] at ha

end Walks

/-- Every way of a disk is one of another: they are seen from the same directory, and the directories and
links of the one are at the same locations of the other. -/
structure Leads (disk disk' : Disk) : Prop where
  workingDirectory : disk'.workingDirectory = disk.workingDirectory
  directory : ∀ {location}, disk.at? location = some .directory → disk'.at? location = some .directory
  link : ∀ {location target},
    disk.at? location = some (.link target) → disk'.at? location = some (.link target)

namespace Leads

variable {disk disk' disk'' : Disk}

theorem refl (disk : Disk) : disk.Leads disk := ⟨rfl, id, id⟩

theorem trans (h : disk.Leads disk') (h' : disk'.Leads disk'') : disk.Leads disk'' :=
  ⟨h'.workingDirectory.trans h.workingDirectory, h'.directory ∘ h.directory, h'.link ∘ h.link⟩

/-- A way that can be gone on one disk can be gone on the other. -/
theorem walk (h : disk.Leads disk') {links : Nat} {directory : Location} {parts : List String}
    {r : Location × Nat} (hr : disk.walk links directory parts = .ok r) :
    disk'.walk links directory parts = .ok r := by
  fun_induction Disk.walk disk links directory parts with
  | case1 => rwa [Disk.walk]
  | case2 _ _ _ ih => rw [Disk.walk, ih hr]
  | case3 _ _ _ ih => rw [Disk.walk, ih hr]
  | case7 _ _ _ _ hdot hdots hshort hentry ih =>
    rw [Disk.walk.eq_4 _ _ _ _ _ hdot hdots, if_neg hshort, h.directory hentry]
    exact ih hr
  | case9 _ _ _ hdot hdots hshort _ hentry _ ih =>
    rw [Disk.walk.eq_4 _ _ _ _ _ hdot hdots, if_neg hshort, h.link hentry]
    exact ih hr
  | _ => cases hr

theorem walks (h : disk.Leads disk') : disk.Walks disk' := ⟨h.workingDirectory, h.walk⟩

theorem aimFrom (h : disk.Leads disk') {links : Nat} {directory : Location} {p : Path}
    {r : Aim × Nat} (hr : disk.aimFrom links directory p = .ok r) :
    disk'.aimFrom links directory p = .ok r :=
  h.walks.aimFrom hr

theorem aim (h : disk.Leads disk') {p : Path} {a : Aim} (ha : disk.aim p = .ok a) :
    disk'.aim p = .ok a :=
  h.walks.aim ha

end Leads

/-- A name that is no link is what its path means. -/
theorem followFrom_name {disk : Disk} {links links' fuel : Nat} {directory parent : Location} {p : Path}
    {name : String} {slash : Bool}
    (haim : disk.aimFrom links directory p = .ok (.name parent name slash, links'))
    (hplain : ∀ target, disk.at? (parent ++ [name]) ≠ some (.link target)) :
    disk.followFrom links directory p (fuel + 1) = .ok (parent ++ [name], slash) := by
  rw [followFrom, haim]
  dsimp only
  split
  · rename_i target hentry
    exact absurd hentry (hplain target)
  · rfl

/-- A link means what its target means. -/
theorem followFrom_link {disk : Disk} {links links' fuel : Nat} {directory parent : Location} {p : Path}
    {name : String} {slash : Bool} {target : Path}
    (haim : disk.aimFrom links directory p = .ok (.name parent name slash, links'))
    (hlink : disk.at? (parent ++ [name]) = some (.link target)) :
    disk.followFrom links directory p (fuel + 1) =
      if links' = 0 then .error .tooManyLinks
      else (disk.followFrom (links' - 1) parent target fuel).map fun r => (r.1, slash || r.2) := by
  rw [followFrom, haim]
  dsimp only
  rw [hlink]
  cases links' with
  | zero => rfl
  | succ links' =>
    rw [if_neg (Nat.succ_ne_zero links'), Nat.succ_sub_one]
    dsimp only
    cases disk.followFrom links' parent target fuel <;> rfl

/-- A path is followed to where it is followed on a disk with fewer ways, unless it goes on from there. -/
theorem Leads.followFrom {disk disk' : Disk} (h : disk.Leads disk') {p : Path} {fuel : Nat} : ∀ {links : Nat}
    {directory : Location} {r : Location × Bool}, disk.followFrom links directory p fuel = .ok r →
      (∀ target, disk'.at? r.1 = some (.link target) → disk.at? r.1 = some (.link target)) →
      disk'.followFrom links directory p fuel = .ok r := by
  induction fuel generalizing p with
  | zero => intro _ _ _ hr; cases hr
  | succ fuel ih =>
    intro links directory r hr hend
    cases haim : disk.aimFrom links directory p with
    | error e => rw [Disk.followFrom, haim] at hr; cases hr
    | ok a =>
      have haim' := h.aimFrom haim
      obtain ⟨⟨parent, name, slash⟩ | location, links'⟩ := a
      · by_cases hlink : ∃ target, disk.at? (parent ++ [name]) = some (.link target)
        · obtain ⟨target, hlink⟩ := hlink
          rw [followFrom_link haim hlink] at hr
          rw [followFrom_link haim' (h.link hlink)]
          split at hr
          · cases hr
          · rename_i hlinks
            rw [if_neg hlinks]
            cases hinner : disk.followFrom (links' - 1) parent target fuel with
            | error e => rw [hinner] at hr; cases hr
            | ok inner =>
              rw [hinner] at hr
              cases hr
              rw [ih hinner hend]
              rfl
        · have hplain : ∀ target, disk.at? (parent ++ [name]) ≠ some (.link target) :=
            fun target hentry => hlink ⟨target, hentry⟩
          rw [followFrom_name haim hplain] at hr
          cases hr
          exact followFrom_name haim' fun target hentry => hplain target (hend target hentry)
      · rw [Disk.followFrom, haim] at hr
        rw [Disk.followFrom, haim']
        exact hr

theorem Leads.follow {disk disk' : Disk} (h : disk.Leads disk') {p : Path} {r : Location × Bool}
    (hr : disk.follow p = .ok r)
    (hend : ∀ target, disk'.at? r.1 = some (.link target) → disk.at? r.1 = some (.link target)) :
    disk'.follow p = .ok r := by
  rw [Disk.follow] at hr ⊢
  rw [h.workingDirectory]
  exact h.followFrom hr hend

theorem follow_of_stat {disk : Disk} {p : Path} {r : Location × Entry} (h : disk.stat p = .ok r) :
    ∃ slash, disk.follow p = .ok (r.1, slash) := by
  rw [stat] at h
  cases hfollow : disk.follow p with
  | error e => rw [hfollow] at h; cases h
  | ok x =>
    rw [hfollow] at h
    dsimp only at h
    split at h
    · cases h
    · cases h; exact ⟨_, rfl⟩
    · split at h <;> cases h
      exact ⟨_, rfl⟩

/-- What a path means is found on another disk if the path is followed to the same location and the same is
there. -/
theorem stat_of_follow {disk disk' : Disk} {p : Path} {r : Location × Entry} (hr : disk.stat p = .ok r)
    (hfollow : ∀ slash, disk.follow p = .ok (r.1, slash) → disk'.follow p = .ok (r.1, slash))
    (hat : disk'.at? r.1 = disk.at? r.1) : disk'.stat p = .ok r := by
  obtain ⟨slash, hbefore⟩ := follow_of_stat hr
  have hafter := hfollow slash hbefore
  rw [stat, hbefore] at hr
  rw [stat, hafter]
  dsimp only at hr ⊢
  rwa [hat]

/-- Two disks have the same ways. -/
def SameWays (disk disk' : Disk) : Prop := disk.Leads disk' ∧ disk'.Leads disk

namespace SameWays

variable {disk disk' disk'' : Disk}

theorem refl (disk : Disk) : disk.SameWays disk := ⟨.refl disk, .refl disk⟩

theorem symm (h : disk.SameWays disk') : disk'.SameWays disk := ⟨h.2, h.1⟩

theorem trans (h : disk.SameWays disk') (h' : disk'.SameWays disk'') : disk.SameWays disk'' :=
  ⟨h.1.trans h'.1, h'.2.trans h.2⟩

theorem followFrom (h : disk.SameWays disk') {p : Path} {fuel : Nat} {links : Nat}
    {directory : Location} {r : Location × Bool}
    (hr : disk.followFrom links directory p fuel = .ok r) :
    disk'.followFrom links directory p fuel = .ok r :=
  h.1.followFrom hr fun _ => h.2.link

theorem follow (h : disk.SameWays disk') {p : Path} {r : Location × Bool}
    (hr : disk.follow p = .ok r) : disk'.follow p = .ok r :=
  h.1.follow hr fun _ => h.2.link

/-- What a path means is found at the same location where the disks have the same there. -/
theorem stat (h : disk.SameWays disk') {p : Path} {r : Location × Entry} (hr : disk.stat p = .ok r)
    (hat : disk'.at? r.1 = disk.at? r.1) : disk'.stat p = .ok r :=
  stat_of_follow hr (fun _ => h.follow) hat

end SameWays

/-! ## Disks that cannot be told apart -/

/-- Two disks have the same at every location, and are seen from the same directory. -/
structure Same (disk disk' : Disk) : Prop where
  workingDirectory : disk'.workingDirectory = disk.workingDirectory
  entries : ∀ location, disk'.at? location = disk.at? location

namespace Same

variable {disk disk' disk'' : Disk}

theorem refl (disk : Disk) : disk.Same disk := ⟨rfl, fun _ => rfl⟩

theorem symm (h : disk.Same disk') : disk'.Same disk :=
  ⟨h.workingDirectory.symm, fun l => (h.entries l).symm⟩

theorem leads (h : disk.Same disk') : disk.Leads disk' :=
  ⟨h.workingDirectory, (h.entries _).trans, (h.entries _).trans⟩

theorem sameWays (h : disk.Same disk') : disk.SameWays disk' := ⟨h.leads, h.symm.leads⟩

/-- **Every path means the same on both disks**: there is something on one exactly when there is on the
other, and it is the same file or directory. -/
theorem stat_iff (h : disk.Same disk') (p : Path) (r : Location × Entry) :
    disk'.stat p = .ok r ↔ disk.stat p = .ok r :=
  ⟨fun hr => h.symm.sameWays.stat hr (h.symm.entries _), fun hr => h.sameWays.stat hr (h.entries _)⟩

end Same

/-! ## What the operations on files do -/

/-- A path names a location: it leads to a directory and a name in it, and does not end in a slash. -/
def Names (disk : Disk) (p : Path) (location : Location) : Prop :=
  ∃ parent name, disk.aim p = .ok (.name parent name false) ∧ parent ++ [name] = location

/-- Neither a directory nor a link is at a location, so that no way leads through it. -/
def Plain (disk : Disk) (location : Location) : Prop :=
  disk.at? location ≠ some .directory ∧ ∀ target, disk.at? location ≠ some (.link target)

section

variable {disk disk' : Disk} {p : Path} {location : Location} {contents : ByteArray}

theorem Names.ne_nil (h : disk.Names p location) : location ≠ [] := by
  obtain ⟨parent, name, -, rfl⟩ := h
  exact List.append_ne_nil_of_right_ne_nil _ (List.cons_ne_nil _ _)

theorem Names.of_walks (h : disk.Names p location) (hwalks : disk.Walks disk') : disk'.Names p location := by
  obtain ⟨parent, name, haim, hlocation⟩ := h
  exact ⟨parent, name, hwalks.aim haim, hlocation⟩

theorem Names.mono (h : disk.Names p location) (hleads : disk.Leads disk') : disk'.Names p location :=
  h.of_walks hleads.walks

theorem plain_of_eq_none (h : disk.at? location = none) : disk.Plain location := by simp [Plain, h]

theorem plain_of_eq_file (h : disk.at? location = some (.file contents)) : disk.Plain location := by
  simp [Plain, h]

/-- Files do not stand in a way. -/
theorem Plain.set {other : Location} (h : disk.Plain other) (hne : location ≠ [])
    (contents : ByteArray) : (disk.set location (.file contents)).Plain other := by
  rw [Plain, at?_set disk hne]
  split
  · simp
  · exact h

theorem Plain.unset {other : Location} (h : disk.Plain other) (hne : location ≠ []) :
    (disk.unset location).Plain other := by
  rw [Plain, at?_unset disk hne]
  split
  · simp
  · exact h

theorem create_eq_ok (h : disk.create p contents = .ok disk') :
    ∃ location, disk.Names p location ∧ disk.at? location = none ∧
      disk' = disk.set location (.file contents) := by
  rw [create] at h
  split at h
  · cases h
  · cases h
  · cases h
  · rename_i parent name haim
    split at h
    · cases h
    · rename_i hnone
      cases h
      exact ⟨_, ⟨parent, name, haim, rfl⟩, hnone, rfl⟩

/-- Whether a file can be created does not depend on what is to be in it. -/
theorem create_eq_error {e : DiskError} (h : disk.create p contents = .error e) (contents' : ByteArray) :
    disk.create p contents' = .error e := by
  rw [create] at h ⊢
  cases haim : disk.aim p with
  | error e' =>
    rw [haim] at h
    exact h
  | ok aim =>
    rw [haim] at h
    cases aim with
    | directory location => exact h
    | name parent name slash =>
      cases slash with
      | true => exact h
      | false =>
        dsimp only at h ⊢
        cases hentry : disk.at? (parent ++ [name]) with
        | some entry =>
          rw [hentry] at h
          exact h
        | none =>
          rw [hentry] at h
          cases h

/-- A file under a drawn name is a file created under one of the names that can be drawn. -/
theorem createDrawn_eq_ok {directory : Path} {lead trail : String} {n fuel : Nat}
    (h : disk.createDrawn directory lead trail contents n fuel = .ok (p, disk')) :
    ∃ k made, p = directory.join (lead ++ drawnPart k ++ trail) ∧ disk.create p contents = .ok made ∧
      disk' = { made with drawn := disk.drawn ++ [⟨lead, drawnPart k, trail⟩] } := by
  induction fuel generalizing n with
  | zero => cases h
  | succ fuel ih =>
    rw [createDrawn] at h
    split at h
    · rename_i made hcreate
      cases h
      exact ⟨n, made, rfl, hcreate, rfl⟩
    · exact ih h
    · cases h

theorem replace_eq_ok (h : disk.replace p contents = .ok disk') :
    ∃ location, disk.Names p location ∧ disk.at? location ≠ some .directory ∧
      disk' = disk.set location (.file contents) := by
  rw [replace] at h
  split at h
  · cases h
  · cases h
  · rename_i parent name slash haim
    split at h
    · cases h
    · rename_i hslash
      rw [Bool.not_eq_true] at hslash
      subst hslash
      split at h
      · cases h
      · rename_i hdirectory
        cases h
        exact ⟨_, ⟨parent, name, haim, rfl⟩, hdirectory, rfl⟩

theorem remove_eq_ok (h : disk.remove p = .ok disk') :
    ∃ location, disk.Names p location ∧ disk.at? location ≠ none ∧
      disk.at? location ≠ some .directory ∧ disk' = disk.unset location := by
  rw [remove] at h
  split at h
  · cases h
  · cases h
  · rename_i parent name slash haim
    split at h
    · cases h
    · cases h
    · rename_i entry hdirectory hentry
      split at h
      · cases h
      · rename_i hslash
        rw [Bool.not_eq_true] at hslash
        subst hslash
        cases h
        refine ⟨_, ⟨parent, name, haim, rfl⟩, ?_, ?_, rfl⟩
        · rw [hentry]
          exact Option.some_ne_none _
        · rw [hentry]
          exact fun heq => hdirectory (Option.some_inj.1 heq)

/-- A file is written where its path leads. -/
theorem write_eq_ok (h : disk.write p contents = .ok disk') :
    ∃ location, disk.follow p = .ok (location, false) ∧ disk.at? location ≠ some .directory ∧
      disk' = disk.set location (.file contents) := by
  rw [write] at h
  cases hfollow : disk.follow p with
  | error e => rw [hfollow] at h; cases h
  | ok x =>
    obtain ⟨location, slash⟩ := x
    rw [hfollow] at h
    dsimp only at h
    split at h
    · cases h
    rename_i hslash
    rw [Bool.not_eq_true] at hslash
    subst hslash
    split at h
    · cases h
    · rename_i hdirectory
      cases h
      exact ⟨location, rfl, hdirectory, rfl⟩

/-- A file is written over what its path means. -/
theorem write_eq (h : disk.follow p = .ok (location, false)) (hentry : disk.at? location ≠ some .directory) :
    disk.write p contents = .ok (disk.set location (.file contents)) := by
  rw [write, h]
  dsimp only
  rw [if_neg Bool.false_ne_true]
  split
  · rename_i hdirectory
    exact absurd hdirectory hentry
  · rfl

/-- A file is created under a name that is free. -/
theorem Names.create_eq (h : disk.Names p location) (hfree : disk.at? location = none) :
    disk.create p contents = .ok (disk.set location (.file contents)) := by
  obtain ⟨parent, name, haim, rfl⟩ := h
  rw [create, haim]
  dsimp only
  rw [hfree]

/-- A file takes the place of what a path names, unless that is a directory. -/
theorem Names.replace_eq (h : disk.Names p location) (hentry : disk.at? location ≠ some .directory) :
    disk.replace p contents = .ok (disk.set location (.file contents)) := by
  obtain ⟨parent, name, haim, rfl⟩ := h
  rw [replace, haim]
  dsimp only
  rw [if_neg Bool.false_ne_true]
  split
  · rename_i hdirectory
    exact absurd hdirectory hentry
  · rfl

theorem Names.replace_eq_error (h : disk.Names p location)
    (hentry : disk.at? location = some .directory) :
    disk.replace p contents = .error .isDirectory := by
  obtain ⟨parent, name, haim, rfl⟩ := h
  rw [replace, haim]
  dsimp only
  rw [if_neg Bool.false_ne_true, hentry]

/-- A file is removed by the path that names its location. -/
theorem Names.remove_eq (h : disk.Names p location) (hfile : disk.at? location = some (.file contents)) :
    disk.remove p = .ok (disk.unset location) := by
  obtain ⟨parent, name, haim, rfl⟩ := h
  rw [remove, haim]
  dsimp only
  rw [hfile]
  rfl

/-- Where nothing is, nothing is removed. -/
theorem Names.remove_eq_error (h : disk.Names p location) (hnone : disk.at? location = none) :
    disk.remove p = .error .notFound := by
  obtain ⟨parent, name, haim, rfl⟩ := h
  rw [remove, haim]
  dsimp only
  rw [hnone]

/-- What a path names is what it means, where that is no link. -/
theorem Names.follow_eq (h : disk.Names p location) (hplain : disk.Plain location) :
    disk.follow p = .ok (location, false) := by
  obtain ⟨parent, name, haim, rfl⟩ := h
  rw [aim] at haim
  cases hr : disk.aimFrom linkLimit disk.workingDirectory p with
  | error e => rw [hr] at haim; cases haim
  | ok a =>
    rw [hr] at haim
    obtain ⟨a, links⟩ := a
    cases haim
    rw [follow, followFrom_name hr hplain.2]

theorem Names.stat_eq (h : disk.Names p location) (hfile : disk.at? location = some (.file contents)) :
    disk.stat p = .ok (location, .file contents) := by
  rw [stat, h.follow_eq (plain_of_eq_file hfile)]
  dsimp only
  rw [hfile]
  rfl

/-- Where nothing is, nothing is found. -/
theorem Names.stat_eq_error (h : disk.Names p location) (hnone : disk.at? location = none) :
    disk.stat p = .error .notFound := by
  rw [stat, h.follow_eq (plain_of_eq_none hnone)]
  dsimp only
  rw [hnone]

/-- A path names one location at most. -/
theorem Names.unique {location' : Location} (h : disk.Names p location) (h' : disk.Names p location') :
    location = location' := by
  obtain ⟨parent, name, haim, rfl⟩ := h
  obtain ⟨parent', name', haim', rfl⟩ := h'
  rw [haim] at haim'
  cases haim'
  rfl

end

/-! ## Names in the working directory -/

/-- Whether a text is a path of one name. -/
def isSingleName (name : String) : Bool :=
  parts ⟨name⟩ == [name] && !name.isEmpty && !name.toList.contains '\x00' && !endsInSlash ⟨name⟩ &&
    !Path.isAbsolute ⟨name⟩ && name != "." && name != ".." && decide (name.utf8ByteSize ≤ nameLimit)

/-- A single name is looked for where its path starts. -/
theorem aimFrom_of_isSingleName (disk : Disk) {name : String} (h : isSingleName name = true) (links : Nat)
    (directory : Location) :
    disk.aimFrom links directory ⟨name⟩ = .ok (.name directory name false, links) := by
  simp only [isSingleName, Bool.and_eq_true, Bool.not_eq_true', beq_iff_eq, bne_iff_ne, ne_eq,
    decide_eq_true_eq] at h
  obtain ⟨⟨⟨⟨⟨⟨⟨hparts, hempty⟩, hnul⟩, hslash⟩, hrelative⟩, hdot⟩, hdots⟩, hshort⟩ := h
  rw [aimFrom, hnul, hempty, hparts]
  simp [walk, origin, hrelative, hdot, hdots, Nat.not_lt.2 hshort, hslash]

/-- A single name is looked for in the working directory. -/
theorem names_of_isSingleName (disk : Disk) {name : String} (h : isSingleName name = true) :
    disk.Names ⟨name⟩ (disk.workingDirectory ++ [name]) := by
  refine ⟨disk.workingDirectory, name, ?_, rfl⟩
  rw [aim, aimFrom_of_isSingleName disk h]
  rfl

/-- A single name means a place in the root, seen from there. -/
theorem names_of_home {disk : Disk} (hhome : disk.workingDirectory = []) (name : String)
    (h : isSingleName name = true) : disk.Names ⟨name⟩ [name] := by
  have hnames := names_of_isSingleName disk h
  rwa [hhome] at hnames

/-- A link to a single name means what has the name, unless that is a link itself. -/
theorem follow_of_isSingleName {disk : Disk} {name target : String} (h : isSingleName name = true)
    (h' : isSingleName target = true)
    (hlink : disk.at? (disk.workingDirectory ++ [name]) = some (.link ⟨target⟩))
    (hplain : ∀ link, disk.at? (disk.workingDirectory ++ [target]) ≠ some (.link link)) :
    disk.follow ⟨name⟩ = .ok (disk.workingDirectory ++ [target], false) := by
  rw [follow, followFrom_link (aimFrom_of_isSingleName disk h _ _) hlink, if_neg (by decide), linkLimit,
    followFrom_name (aimFrom_of_isSingleName disk h' _ _) hplain]
  rfl

/-- The working directory takes files. -/
theorem openDirectory_here (disk : Disk) (h : disk.at? disk.workingDirectory = some .directory) :
    disk.openDirectory ⟨"."⟩ = .ok disk.workingDirectory := by
  have hparts : parts ⟨"."⟩ = ["."] := by decide +kernel
  have hrelative : Path.isAbsolute ⟨"."⟩ = false := by decide +kernel
  simp [openDirectory, stat, follow, followFrom, aimFrom, hparts, walk, origin, hrelative, h]

/-! ## Disks that differ in a few places -/

/-- Two disks differ in the given locations at most.  No directory was there before, and no way leads
through them afterwards. -/
structure Differs (before after : Disk) (locations : List Location) : Prop where
  workingDirectory : after.workingDirectory = before.workingDirectory
  off : ∀ location, location ∉ locations → after.at? location = before.at? location
  plain : ∀ location ∈ locations, after.Plain location
  notDirectory : ∀ location ∈ locations, before.at? location ≠ some .directory

namespace Differs

variable {before after : Disk} {locations : List Location} {location : Location}

theorem refl (disk : Disk) : disk.Differs disk [] :=
  ⟨rfl, fun _ _ => rfl, fun _ h => absurd h List.not_mem_nil, fun _ h => absurd h List.not_mem_nil⟩

/-- Ways may get lost, but none is new. -/
theorem leads (h : before.Differs after locations) : after.Leads before := by
  refine ⟨h.workingDirectory.symm, fun {l} hl => ?_, fun {l t} hl => ?_⟩
  · have hoff : l ∉ locations := fun hmem => (h.plain l hmem).1 hl
    rwa [← h.off l hoff]
  · have hoff : l ∉ locations := fun hmem => (h.plain l hmem).2 t hl
    rwa [← h.off l hoff]

/-- No way gets lost where none led through. -/
theorem sameWays (h : before.Differs after locations)
    (hplain : ∀ location ∈ locations, before.Plain location) : before.SameWays after := by
  refine ⟨⟨h.workingDirectory, fun {l} hl => ?_, fun {l t} hl => ?_⟩, h.leads⟩
  · have hoff : l ∉ locations := fun hmem => (hplain l hmem).1 hl
    rwa [h.off l hoff]
  · have hoff : l ∉ locations := fun hmem => (hplain l hmem).2 t hl
    rwa [h.off l hoff]

/-- Another file is put somewhere. -/
theorem set (h : before.Differs after locations) (hlocation : location ≠ [])
    (hentry : after.at? location ≠ some .directory) (contents : ByteArray) :
    before.Differs (after.set location (.file contents)) (locations ++ [location]) := by
  refine ⟨h.workingDirectory, fun l hl => ?_, fun l hl => ?_, fun l hl => ?_⟩
  · rw [List.mem_append, List.mem_singleton, not_or] at hl
    rw [at?_set after hlocation, if_neg (Ne.symm hl.2), h.off l hl.1]
  · by_cases heq : location = l
    · have hfile : (after.set location (.file contents)).at? l = some (.file contents) := by
        rw [at?_set after hlocation, if_pos heq]
      exact plain_of_eq_file hfile
    · have hmem : l ∈ locations := by
        rcases List.mem_append.1 hl with hmem | hmem
        · exact hmem
        · exact absurd (List.mem_singleton.1 hmem).symm heq
      have hplain := h.plain l hmem
      rwa [Plain, at?_set after hlocation, if_neg heq]
  · by_cases hmem : l ∈ locations
    · exact h.notDirectory l hmem
    · obtain rfl : l = location := by simpa [hmem] using hl
      rwa [← h.off l hmem]

/-- A file that was put somewhere is taken away. -/
theorem unset (h : before.Differs after locations) (hlocation : location ≠ [])
    (hmem : location ∈ locations) : before.Differs (after.unset location) locations := by
  refine ⟨h.workingDirectory, fun l hl => ?_, fun l hl => ?_, h.notDirectory⟩
  · have hne : location ≠ l := fun heq => hl (heq ▸ hmem)
    rw [at?_unset after hlocation, if_neg hne, h.off l hl]
  · by_cases heq : location = l
    · refine plain_of_eq_none ?_
      rw [at?_unset after hlocation, if_pos heq]
    · have hplain := h.plain l hl
      rwa [Plain, at?_unset after hlocation, if_neg heq]

/-- What cannot be told apart differs alike. -/
theorem congr (h : before.Differs after locations) {after' : Disk} (hsame : after.Same after') :
    before.Differs after' locations := by
  refine ⟨hsame.workingDirectory.trans h.workingDirectory, fun l hl => ?_, fun l hl => ?_, h.notDirectory⟩
  · rw [hsame.entries, h.off l hl]
  · rw [Plain, hsame.entries]
    exact h.plain l hl

/-- Disks are the same where they have the same in the given locations too. -/
theorem same (h : before.Differs after locations)
    (hon : ∀ location ∈ locations, after.at? location = before.at? location) : before.Same after := by
  refine ⟨h.workingDirectory, fun l => ?_⟩
  by_cases hl : l ∈ locations
  · exact hon l hl
  · exact h.off l hl

end Differs

/-- A file that is put where no way leads through leaves all ways as they are. -/
theorem Plain.sameWays_set {disk : Disk} {location : Location} (h : disk.Plain location) (hne : location ≠ [])
    (contents : ByteArray) : disk.SameWays (disk.set location (.file contents)) :=
  ((Differs.refl disk).set hne h.1 contents).sameWays (by simpa using h)

end Disk

end Abridge
