import Abridge.Proofs.Descent

/-!
# Disks with less and more

What a run leaves can be compared with what it found by way of a third disk that has less than both: the
one without the places that artifacts go to.  Whatever can be found on a disk with less can be found on the
other two, and it is the same (`Disk.Extends.stat`).

A disk that has less may have lost ways.  Where a way is left, it leads where it led
(`Disk.Leads.followFrom_of_walk`); so a walk for modules that finds one of them on a disk finds it on one
with less as soon as it is there at all (`Disk.Keeps.finds`).

## What is here

* `Disk.without`, `Disk.Extends`, `Disk.Keeps`: disks with less.
* `Disk.Extends.stat`, `Disk.Extends.read`: what is found on them.
* `Disk.Keeps.visits`, `Disk.Keeps.finds`: walks on them.
-/

set_option autoImplicit false

namespace Abridge

namespace Path

/-- A path is a name in one directory. -/
theorem IsIn.unique {p directory directory' : Path} {name : String} (h : p.IsIn directory name)
    (h' : p.IsIn directory' name) : directory = directory' := by
  have htext := List.append_cancel_right (h.text.symm.trans h'.text)
  cases directory
  cases directory'
  exact congrArg Path.mk (String.toList_injective htext)

end Path

namespace Disk

/-! ## Disks with less and more -/

/-- The disk without what is at some locations. -/
def without (disk : Disk) (locations : List Location) : Disk :=
  { disk with entries := List.filter (fun e => !locations.contains e.1) disk.entries }

theorem at?_without (disk : Disk) {locations : List Location} (hroot : [] ∉ locations) (location : Location) :
    (disk.without locations).at? location = if location ∈ locations then none else disk.at? location := by
  cases location with
  | nil => rw [if_neg hroot]; rfl
  | cons name names =>
    change Table.get? (List.filter (fun e => !locations.contains e.1) disk.entries) (name :: names) = _
    rw [Table.get?_filter disk.entries fun location => !locations.contains location]
    by_cases hmem : name :: names ∈ locations
    · rw [if_pos hmem, if_neg]
      simpa using hmem
    · rw [if_neg hmem, if_pos]
      · rfl
      · simpa using hmem

/-- Whatever is on one disk is on another. -/
structure Extends (disk disk' : Disk) : Prop where
  workingDirectory : disk'.workingDirectory = disk.workingDirectory
  entries : ∀ {location : Location} {entry : Entry},
    disk.at? location = some entry → disk'.at? location = some entry

theorem without_extends {disk : Disk} {locations : List Location} (hroot : [] ∉ locations) :
    (disk.without locations).Extends disk := by
  refine ⟨rfl, fun {l e} hl => ?_⟩
  rw [at?_without disk hroot] at hl
  split at hl
  · cases hl
  · exact hl

namespace Extends

variable {disk disk' : Disk}

theorem leads (h : disk.Extends disk') : disk.Leads disk' := ⟨h.workingDirectory, h.entries, h.entries⟩

theorem followFrom (h : disk.Extends disk') {p : Path} {fuel : Nat} {links : Nat} {directory : Location}
    {r : Location × Bool} (hr : disk.followFrom links directory p fuel = .ok r)
    (hsome : disk.at? r.1 ≠ none) : disk'.followFrom links directory p fuel = .ok r := by
  obtain ⟨entry, hentry⟩ := Option.ne_none_iff_exists'.1 hsome
  refine h.leads.followFrom hr fun target hlink => ?_
  rw [h.entries hentry] at hlink
  rwa [hentry]

/-- **What is found without something is found with it.** -/
theorem stat (h : disk.Extends disk') {p : Path} {r : Location × Entry} (hr : disk.stat p = .ok r) :
    disk'.stat p = .ok r := by
  have hentry := stat_eq_ok hr
  refine stat_of_follow hr (fun slash hfollow => ?_) (by rw [hentry, h.entries hentry])
  rw [follow] at hfollow ⊢
  rw [h.workingDirectory]
  exact h.followFrom hfollow (hentry.trans_ne (Option.some_ne_none _))

theorem read (h : disk.Extends disk') {p : Path} {r : Location × Entry} (hr : disk.stat p = .ok r) :
    disk'.read p = disk.read p := by
  rw [Disk.read, Disk.read, hr, h.stat hr]

end Extends

/-! ## Directories on a disk with less -/

/-- What an operation is about depends on the way before the last part alone. -/
theorem aimFrom_congr {disk disk' : Disk} {links : Nat} {directory : Location} {p : Path}
    (h : ∀ before last, parts p = before ++ [last] →
      disk'.walk links (origin p directory) before = disk.walk links (origin p directory) before) :
    disk'.aimFrom links directory p = disk.aimFrom links directory p := by
  rw [aimFrom, aimFrom]
  split
  · rfl
  split
  · rfl
  split
  · rfl
  · rename_i last before hparts
    have hparts : parts p = before.reverse ++ [last] := by
      rw [← List.reverse_reverse (parts p), hparts, List.reverse_cons]
    rw [h _ _ hparts]

/-- A way that ends in a name goes to the directory around it first. -/
theorem exists_walk_of_append {disk : Disk} {links : Nat} {directory : Location} {before : List String}
    {last : String} {r : Location × Nat} (h : disk.walk links directory (before ++ [last]) = .ok r) :
    ∃ reached, disk.walk links directory before = .ok reached ∧
      disk.walk reached.2 reached.1 [last] = .ok r := by
  rw [walk_append] at h
  cases hwalk : disk.walk links directory before with
  | error e => rw [hwalk] at h; cases h
  | ok reached =>
    rw [hwalk] at h
    exact ⟨reached, rfl, h⟩

/-- A way leads through a name: a directory or a link is there. -/
theorem walk_name {disk : Disk} {links : Nat} {directory : Location} {name : String} {r : Location × Nat}
    (hdot : name ≠ ".") (hdots : name ≠ "..") (h : disk.walk links directory [name] = .ok r) :
    disk.at? (directory ++ [name]) = some .directory ∨
      ∃ target links', disk.at? (directory ++ [name]) = some (.link target) ∧ links = links' + 1 ∧
        disk.walk links' (origin target directory) (parts target) = .ok r := by
  rw [walk.eq_4 _ _ _ _ _ hdot hdots] at h
  split at h
  · cases h
  split at h
  · cases h
  · cases h
  · exact .inl (by assumption)
  · rename_i target hentry
    split at h
    · cases h
    · rename_i links'
      rw [List.append_nil] at h
      exact .inr ⟨target, links', hentry, rfl, h⟩

/-- A path that can be gone on a disk with less is followed as on the disk. -/
theorem Leads.followFrom_of_walk {less disk : Disk} (h : less.Leads disk) {fuel : Nat} :
    ∀ {links : Nat} {directory : Location} {p : Path} {r : Location × Bool} {end' : Location × Nat},
      disk.followFrom links directory p fuel = .ok r →
      less.walk links (origin p directory) (parts p) = .ok end' →
      less.followFrom links directory p fuel = .ok r := by
  induction fuel with
  | zero => intro _ _ _ _ _ hr _; cases hr
  | succ fuel ih =>
    intro links directory p r end' hr hwalk
    have haim : less.aimFrom links directory p = disk.aimFrom links directory p := by
      refine aimFrom_congr fun before last hparts => ?_
      rw [hparts] at hwalk
      obtain ⟨reached, hreached, -⟩ := exists_walk_of_append hwalk
      rw [hreached, h.walk hreached]
    cases hdisk : disk.aimFrom links directory p with
    | error e => rw [Disk.followFrom, hdisk] at hr; cases hr
    | ok a =>
      rw [hdisk] at haim
      obtain ⟨-, -, ⟨-, rfl⟩ | ⟨before, last, parent, links', hparts, hbefore, hlast⟩⟩ :=
        aimFrom_eq_ok hdisk
      · rw [Disk.followFrom, hdisk] at hr
        rwa [Disk.followFrom, haim]
      rw [hparts] at hwalk
      obtain ⟨reached, hreached, hname⟩ := exists_walk_of_append hwalk
      obtain rfl := Except.ok.inj (hbefore.symm.trans (h.walk hreached))
      obtain ⟨-, rfl⟩ | ⟨-, rfl⟩ | ⟨hdot, hdots, -, rfl⟩ := hlast
      · rw [Disk.followFrom, hdisk] at hr
        rwa [Disk.followFrom, haim]
      · rw [Disk.followFrom, hdisk] at hr
        rwa [Disk.followFrom, haim]
      by_cases hlink : ∃ target, disk.at? (parent ++ [last]) = some (.link target)
      · obtain ⟨target, hlink⟩ := hlink
        obtain hdirectory | ⟨target', links'', hlink', rfl, hinner⟩ := walk_name hdot hdots hname
        · rw [h.directory hdirectory] at hlink
          cases hlink
        · obtain rfl : target' = target :=
            Entry.link.inj (Option.some_inj.1 ((h.link hlink').symm.trans hlink))
          rw [followFrom_link hdisk hlink, if_neg (Nat.succ_ne_zero links''), Nat.succ_sub_one] at hr
          rw [followFrom_link haim hlink', if_neg (Nat.succ_ne_zero links''), Nat.succ_sub_one]
          cases hr' : disk.followFrom links'' parent target' fuel with
          | error e => rw [hr'] at hr; cases hr
          | ok r' => rw [ih hr' hinner]; rwa [hr'] at hr
      · have hplain : ∀ target, disk.at? (parent ++ [last]) ≠ some (.link target) :=
          fun target hentry => hlink ⟨target, hentry⟩
        rw [followFrom_name hdisk hplain] at hr
        rwa [followFrom_name haim fun target hentry => hplain target (h.link hentry)]

/-- **A directory that can be reached on a disk with less is found there.** -/
theorem Leads.stat_of_leadsTo {less disk : Disk} (h : less.Leads disk) {p : Path}
    {location location' : Location} (hstat : disk.stat p = .ok (location, .directory))
    (hleads : less.LeadsTo p location') (hentry : less.at? location = some .directory) :
    less.stat p = .ok (location, .directory) := by
  obtain ⟨slash, hfollow⟩ := follow_of_stat hstat
  obtain ⟨-, links, hwalk⟩ := hleads
  have hless : less.follow p = .ok (location, slash) := by
    rw [Disk.follow] at hfollow ⊢
    rw [h.workingDirectory] at hfollow
    exact h.followFrom_of_walk hfollow hwalk
  rw [stat, hless]
  dsimp only
  rw [hentry]

/-! ## Walks on a disk with less -/

/-- Something is found on a disk with less, so its directory is there already. -/
theorem At.of_stat {less disk : Disk} {p : Path} {location : Location} {name : String}
    (h : disk.At p location name) (hleads : less.Leads disk) {r : Location × Entry}
    (hstat : less.stat p = .ok r) : less.At p location name := by
  obtain ⟨directory, hin, hnul, links, hwalk⟩ := h
  obtain ⟨a, haim⟩ := exists_aimFrom_of_stat hstat
  obtain ⟨-, -, ⟨hparts, -⟩ | ⟨before, last, parent, links', hparts, hless, -⟩⟩ := aimFrom_eq_ok haim
  · rw [hin.parts_eq] at hparts
    exact absurd hparts (List.append_ne_nil_of_right_ne_nil _ (List.cons_ne_nil _ _))
  · obtain ⟨rfl, -⟩ := List.append_inj' (hin.parts_eq.symm.trans hparts) rfl
    rw [origin, hin.isAbsolute_eq] at hless
    have hmore := hleads.walk hless
    rw [← hleads.workingDirectory] at hmore
    obtain ⟨rfl, -⟩ := Prod.mk.inj (Except.ok.inj (hwalk.symm.trans hmore))
    exact ⟨directory, hin, hnul, links', hless⟩

/-- Something is found, so it is there. -/
theorem At.ne_none_of_stat {disk : Disk} {p : Path} {location : Location} {name : String}
    (h : disk.At p location name) {r : Location × Entry} (hstat : disk.stat p = .ok r) :
    disk.at? (location ++ [name]) ≠ none := by
  intro hnone
  have hlocation := h.location_of_stat hstat fun link hlink => by
    rw [hnone] at hlink
    cases hlink
  rw [← hlocation, stat_eq_ok hstat] at hnone
  cases hnone

theorem LeadsTo.of_join {disk : Disk} {p : Path} {name : String} {location : Location} (h : IsName name)
    (hjoin : disk.LeadsTo (p.join name) location) :
    ∃ around, disk.LeadsTo p around ∧ disk.at? (around ++ [name]) ≠ none := by
  obtain ⟨directory, hin, halike⟩ := p.exists_isIn_join h
  obtain ⟨hnul, links, hwalk⟩ := hjoin
  rw [hin.text, List.mem_append, not_or] at hnul
  rw [hin.parts_eq, origin, hin.isAbsolute_eq] at hwalk
  obtain ⟨⟨around, links'⟩, haround, hname⟩ := exists_walk_of_append hwalk
  have hleads : disk.LeadsTo directory around := ⟨hnul.1, links', haround⟩
  refine ⟨around, hleads.congr halike.symm, ?_⟩
  have hdot : name ≠ "." := fun hdot => h.not_dot (hdot ▸ rfl)
  have hdots : name ≠ ".." := fun hdots => h.not_dots (hdots ▸ rfl)
  obtain hentry | ⟨target, -, hentry, -⟩ := walk_name hdot hdots hname
  · rw [hentry]; exact Option.some_ne_none _
  · rw [hentry]; exact Option.some_ne_none _

theorem LeadsTo.unique {disk : Disk} {p : Path} {location location' : Location}
    (h : disk.LeadsTo p location) (h' : disk.LeadsTo p location') : location = location' := by
  obtain ⟨-, links, hwalk⟩ := h
  obtain ⟨-, links', hwalk'⟩ := h'
  exact (Prod.mk.inj (Except.ok.inj (hwalk.symm.trans hwalk'))).1

/-- A disk with less has all directories of the disk. -/
structure Keeps (less disk : Disk) : Prop where
  part : less.Extends disk
  directories : ∀ {location : Location}, disk.at? location = some .directory →
    less.at? location = some .directory

namespace Keeps

variable {less disk : Disk} {m : ArtifactMarkers} {target : Path} {root : Location}

/-- A directory that a walk enters is entered on the disk with less, if it can be reached there. -/
theorem visits (h : less.Keeps disk) (htree : disk.IsTree)
    (hroot : disk.stat target = .ok (root, .directory)) {p : Path} {location location' : Location}
    {around : List Location} (hvisits : disk.Visits target root p location around)
    (hleads : less.LeadsTo p location') :
    less.stat target = .ok (root, .directory) ∧ less.Visits target root p location around := by
  induction hvisits generalizing location' with
  | start =>
    have hentry := h.directories (stat_eq_ok hroot)
    exact ⟨h.part.leads.stat_of_leadsTo hroot hleads hentry, .start⟩
  | @enter p location below around name entry hvisits hentry hname hstat hentered ih =>
    have hproper := htree.isName (hentry.trans_ne (Option.some_ne_none _))
    obtain ⟨reached, hreached, hsome⟩ := hleads.of_join hproper
    obtain ⟨htarget, hless⟩ := ih hreached
    obtain rfl : reached = location :=
      (hreached.mono h.part.leads).unique (leadsTo_of_stat (hvisits.stat_eq hroot))
    refine ⟨htarget, .enter hless ?_ hname ?_ hentered⟩
    · obtain ⟨entry', hentry'⟩ := Option.ne_none_iff_exists'.1 hsome
      rwa [hentry', ← h.part.entries hentry']
    · exact h.part.leads.stat_of_leadsTo hstat hleads (h.directories (stat_eq_ok hstat))

/-- What a walk finds is found on the disk with less, if it is there. -/
theorem finds (h : less.Keeps disk) (htree : disk.IsTree)
    (hroot : disk.stat target = .ok (root, .directory)) {q : Path} {r : Location × Entry}
    (hfinds : disk.Finds m target root q) (hless : less.stat q = .ok r) :
    less.stat target = .ok (root, .directory) ∧ less.Finds m target root q := by
  cases hfinds with
  | @found p location around name r' hvisits hentry hname hstat hfile hmodule =>
    have hproper := htree.isName hentry
    have hat : disk.At (p.join name) location name :=
      (leadsTo_of_stat (hvisits.stat_eq hroot)).join hproper
    have hat' := hat.of_stat h.part.leads hless
    have hsome := hat'.ne_none_of_stat hless
    obtain ⟨directory, hin, hleads⟩ := hat'
    obtain ⟨directory', hin', halike⟩ := p.exists_isIn_join hproper
    obtain rfl := hin.unique hin'
    obtain ⟨htarget, hvisits'⟩ := h.visits htree hroot hvisits (hleads.congr halike.symm)
    obtain rfl : r' = r := Except.ok.inj (hstat.symm.trans (h.part.stat hless))
    exact ⟨htarget, .found hvisits' hsome hname hless hfile hmodule⟩

end Keeps

end Disk

end Abridge
