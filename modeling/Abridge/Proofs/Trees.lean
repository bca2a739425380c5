import Abridge.Proofs.Backups
import Abridge.Proofs.Siblings

/-!
# Disks are trees

A table of locations is a disk only if it is a tree: every location has one entry, lies in a directory and has
a proper name.  Nothing that is done to a disk breaks this (`Disk.IsTree.set`, `Disk.IsTree.unset`), since a
path leads through directories only and ends in a name.  So it may be assumed of every disk that a run
starts from, and holds of the one that it leaves (`Disk.IsTree.shorten`).

## What is here

* `Disk.IsTree`: a well-formed disk.
* `Disk.IsTree.walk`, `Disk.IsTree.aim`, `Disk.IsTree.follow`: ways lead to directories and names in them.
* `Disk.IsTree.shorten`: a run leaves a tree.
-/

set_option autoImplicit false

namespace Abridge

namespace Disk

/-- A disk is a tree: no location has two entries, everything has a proper name and lies in a directory,
and the working directory is one. -/
structure IsTree (disk : Disk) : Prop where
  distinct : Table.Distinct disk.entries
  isName : ∀ {location : Location} {name : String}, disk.at? (location ++ [name]) ≠ none → IsName name
  inside : ∀ {location : Location} {name : String},
    disk.at? (location ++ [name]) ≠ none → disk.at? location = some .directory
  home : disk.at? disk.workingDirectory = some .directory

/-! ## Ways on a tree -/

/-- The parts of a path are no names of directories, dots apart, unless they are proper ones. -/
theorem not_mem_of_mem_splitSlashes {cs part : List Char} (h : part ∈ Path.splitSlashes cs) :
    '/' ∉ part ∧ part ⊆ cs := by
  fun_induction Path.splitSlashes cs generalizing part with
  | case1 =>
    rw [List.mem_singleton.1 h]
    exact ⟨List.not_mem_nil, List.Subset.refl _⟩
  | case2 cs ih =>
    rcases List.mem_cons.1 h with rfl | h
    · exact ⟨List.not_mem_nil, List.nil_subset _⟩
    · obtain ⟨hslash, hsub⟩ := ih h
      exact ⟨hslash, fun c hc => List.mem_cons_of_mem _ (hsub hc)⟩
  | case3 c cs hslash hnil => exact absurd hnil (Path.splitSlashes_ne_nil cs)
  | case4 c cs hslash first rest hrest ih =>
    rw [hrest] at ih
    rcases List.mem_cons.1 h with rfl | h
    · obtain ⟨hfirst, hsub⟩ := ih List.mem_cons_self
      refine ⟨List.not_mem_cons_of_ne_of_not_mem (fun heq => hslash heq.symm) hfirst, ?_⟩
      exact List.cons_subset_cons _ hsub
    · obtain ⟨hslash, hsub⟩ := ih (List.mem_cons_of_mem _ h)
      exact ⟨hslash, fun c hc => List.mem_cons_of_mem _ (hsub hc)⟩

theorem isName_of_mem_parts {p : Path} {name : String} (h : name ∈ parts p)
    (hnul : '\x00' ∉ p.text.toList) (hdot : name ≠ ".") (hdots : name ≠ "..") : IsName name := by
  obtain ⟨part, hpart, hname⟩ := List.mem_filterMap.1 h
  obtain ⟨hslash, hsub⟩ := not_mem_of_mem_splitSlashes hpart
  split at hname
  · cases hname
  · rename_i hempty
    cases hname
    rw [List.isEmpty_iff] at hempty
    refine ⟨?_, ?_, ?_, fun h => hdot (String.toList_injective h),
      fun h => hdots (String.toList_injective h)⟩
    · rwa [String.toList_ofList]
    · rwa [String.toList_ofList]
    · rw [String.toList_ofList]
      exact fun hmem => hnul (hsub hmem)

namespace IsTree

variable {disk : Disk}

theorem parent (h : disk.IsTree) {location : Location} (hlocation : disk.at? location = some .directory) :
    disk.at? location.dropLast = some .directory := by
  rcases List.eq_nil_or_concat location with rfl | ⟨directory, name, rfl⟩
  · rfl
  · rw [List.concat_eq_append] at hlocation ⊢
    rw [List.dropLast_concat]
    exact h.inside (hlocation.trans_ne (Option.some_ne_none _))

/-- **A way leads from directories to directories.** -/
theorem walk (h : disk.IsTree) {links : Nat} {directory : Location} {parts : List String}
    {r : Location × Nat} (hdirectory : disk.at? directory = some .directory)
    (hr : disk.walk links directory parts = .ok r) : disk.at? r.1 = some .directory := by
  fun_induction Disk.walk disk links directory parts with
  | case1 => cases hr; exact hdirectory
  | case2 _ _ _ ih => exact ih hdirectory hr
  | case3 _ _ _ ih => exact ih (h.parent hdirectory) hr
  | case7 _ _ _ _ _ _ _ hentry ih => exact ih hentry hr
  | case9 _ _ _ _ _ _ target _ _ ih =>
    refine ih ?_ hr
    rw [origin]
    split
    · rfl
    · exact hdirectory
  | _ => cases hr

/-- What an operation is about is a proper name in a directory, or a directory. -/
theorem aimFrom (h : disk.IsTree) {links : Nat} {directory : Location} {p : Path} {r : Aim × Nat}
    (hdirectory : disk.at? directory = some .directory)
    (hr : disk.aimFrom links directory p = .ok r) :
    match r.1 with
    | .name parent name _ => disk.at? parent = some .directory ∧ IsName name
    | .directory location => disk.at? location = some .directory := by
  have horigin : disk.at? (origin p directory) = some .directory := by
    rw [origin]
    split
    · rfl
    · exact hdirectory
  obtain ⟨hnul, -, ⟨-, rfl⟩ | ⟨before, last, parent, links', hparts, hwalk, hlast⟩⟩ := aimFrom_eq_ok hr
  · rfl
  have hparent := h.walk horigin hwalk
  obtain ⟨-, rfl⟩ | ⟨-, rfl⟩ | ⟨hdot, hdots, -, rfl⟩ := hlast
  · exact hparent
  · exact h.parent hparent
  · have hmem : last ∈ parts p := by
      rw [hparts]
      exact List.mem_append_right _ (List.mem_singleton.2 rfl)
    exact ⟨hparent, isName_of_mem_parts hmem hnul hdot hdots⟩

theorem aim (h : disk.IsTree) {p : Path} {parent : Location} {name : String} {slash : Bool}
    (haim : disk.aim p = .ok (.name parent name slash)) :
    disk.at? parent = some .directory ∧ IsName name := by
  rw [Disk.aim] at haim
  cases hr : disk.aimFrom linkLimit disk.workingDirectory p with
  | error e => rw [hr] at haim; cases haim
  | ok r =>
    have hspec := h.aimFrom h.home hr
    obtain ⟨a, links⟩ := r
    rw [hr] at haim
    cases haim
    exact hspec

/-- What a path means is a directory, or it is a proper name in one and no link. -/
theorem followFrom (h : disk.IsTree) {fuel : Nat} : ∀ {links : Nat} {directory : Location} {p : Path}
    {r : Location × Bool}, disk.at? directory = some .directory →
      disk.followFrom links directory p fuel = .ok r →
      disk.at? r.1 = some .directory ∨
        ∃ parent name, r.1 = parent ++ [name] ∧ disk.at? parent = some .directory ∧ IsName name ∧
          ∀ target, disk.at? r.1 ≠ some (.link target) := by
  induction fuel with
  | zero => intro _ _ _ _ _ hr; cases hr
  | succ fuel ih =>
    intro links directory p r hdirectory hr
    cases haim : disk.aimFrom links directory p with
    | error e => rw [Disk.followFrom, haim] at hr; cases hr
    | ok a =>
      have hspec := h.aimFrom hdirectory haim
      obtain ⟨⟨parent, name, slash⟩ | location, links'⟩ := a
      · by_cases hlink : ∃ target, disk.at? (parent ++ [name]) = some (.link target)
        · obtain ⟨target, hlink⟩ := hlink
          rw [followFrom_link haim hlink] at hr
          split at hr
          · cases hr
          · cases hinner : disk.followFrom (links' - 1) parent target fuel with
            | error e => rw [hinner] at hr; cases hr
            | ok inner =>
              rw [hinner] at hr
              cases hr
              exact ih (r := inner) hspec.1 hinner
        · have hplain : ∀ target, disk.at? (parent ++ [name]) ≠ some (.link target) :=
            fun target hentry => hlink ⟨target, hentry⟩
          rw [followFrom_name haim hplain] at hr
          cases hr
          exact .inr ⟨parent, name, rfl, hspec.1, hspec.2, hplain⟩
      · rw [Disk.followFrom, haim] at hr
        cases hr
        exact .inl hspec

/-! ## What keeps a tree -/

/-- An entry is put into a directory, and none but a directory in place of a directory. -/
theorem set (h : disk.IsTree) {location : Location} {name : String} {entry : Entry}
    (hlocation : disk.at? location = some .directory) (hname : IsName name)
    (hentry : disk.at? (location ++ [name]) = some .directory → entry = .directory) :
    (disk.set (location ++ [name]) entry).IsTree := by
  have hne : location ++ [name] ≠ [] := List.append_ne_nil_of_right_ne_nil _ (List.cons_ne_nil _ _)
  refine ⟨h.distinct.put _ _, fun {l n} hl => ?_, fun {l n} hl => ?_, ?_⟩
  · rw [at?_set disk hne] at hl
    split at hl
    · rename_i heq
      obtain ⟨-, hlast⟩ := List.append_inj' heq rfl
      rw [← List.singleton_inj.1 hlast]
      exact hname
    · exact h.isName hl
  · -- A directory of the disk is one afterwards, and what is new lies in one.
    have hkept : ∀ {l : Location}, disk.at? l = some .directory →
        (disk.set (location ++ [name]) entry).at? l = some .directory := by
      intro l hl
      rw [at?_set disk hne]
      split
      · rename_i heq
        rw [hentry (heq ▸ hl)]
      · exact hl
    refine hkept ?_
    rw [at?_set disk hne] at hl
    split at hl
    · rename_i heq
      rw [← (List.append_inj' heq rfl).1]
      exact hlocation
    · exact h.inside hl
  · change (disk.set (location ++ [name]) entry).at? disk.workingDirectory = some .directory
    rw [at?_set disk hne]
    split
    · rename_i heq
      rw [hentry (heq ▸ h.home)]
    · exact h.home

/-- Something that is no directory is taken away. -/
theorem unset (h : disk.IsTree) {location : Location} (hne : location ≠ [])
    (hentry : disk.at? location ≠ some .directory) : (disk.unset location).IsTree := by
  have hkept : ∀ {l : Location}, disk.at? l = some .directory →
      (disk.unset location).at? l = some .directory := by
    intro l hl
    have hother : location ≠ l := by
      rintro rfl
      exact hentry hl
    rw [at?_unset disk hne, if_neg hother, hl]
  have hold : ∀ {l : Location}, (disk.unset location).at? l ≠ none → disk.at? l ≠ none := by
    intro l hl
    rw [at?_unset disk hne] at hl
    split at hl
    · exact absurd rfl hl
    · exact hl
  refine ⟨?_, fun hl => h.isName (hold hl), fun hl => hkept (h.inside (hold hl)), hkept h.home⟩
  exact h.distinct.sublist (List.Sublist.map _ List.filter_sublist)

/-! ## Operations on files -/

variable {disk' : Disk} {p : Path} {contents : ByteArray}

/-- A file is put where a path leads. -/
theorem setNamed (h : disk.IsTree) {location : Location} (hnames : disk.Names p location)
    (hentry : disk.at? location ≠ some .directory) : (disk.set location (.file contents)).IsTree := by
  obtain ⟨parent, name, haim, rfl⟩ := hnames
  obtain ⟨hparent, hname⟩ := h.aim haim
  exact h.set hparent hname fun hdirectory => absurd hdirectory hentry

theorem create (h : disk.IsTree) (hcreate : disk.create p contents = .ok disk') : disk'.IsTree := by
  obtain ⟨location, hnames, hfree, rfl⟩ := create_eq_ok hcreate
  exact h.setNamed hnames (hfree.trans_ne (Option.some_ne_none _).symm)

theorem replace (h : disk.IsTree) (hreplace : disk.replace p contents = .ok disk') : disk'.IsTree := by
  obtain ⟨location, hnames, hentry, rfl⟩ := replace_eq_ok hreplace
  exact h.setNamed hnames hentry

theorem remove (h : disk.IsTree) (hremove : disk.remove p = .ok disk') : disk'.IsTree := by
  obtain ⟨location, hnames, -, hentry, rfl⟩ := remove_eq_ok hremove
  exact h.unset hnames.ne_nil hentry

theorem write (h : disk.IsTree) (hwrite : disk.write p contents = .ok disk') : disk'.IsTree := by
  obtain ⟨location, hfollow, hentry, rfl⟩ := write_eq_ok hwrite
  rcases h.followFrom h.home hfollow with hdirectory | ⟨parent, name, rfl, hparent, hname, -⟩
  · exact absurd hdirectory hentry
  · exact h.set hparent hname fun hdirectory => absurd hdirectory hentry

/-- The names that were drawn are no part of the tree. -/
theorem withDrawn (h : disk.IsTree) (drawn : List DrawnName) : ({ disk with drawn } : Disk).IsTree :=
  ⟨h.distinct, h.isName, h.inside, h.home⟩

/-- A disk with entries in its root alone is a tree. -/
theorem of_flat {entries : Table Location Entry} (hdistinct : Table.Distinct entries)
    (hflat : ∀ e ∈ (entries : List (Location × Entry)), ∃ name, IsName name ∧ e.1 = [name]) :
    ({ entries } : Disk).IsTree := by
  have hroot : ∀ {location : Location} {name : String}, ({ entries } : Disk).at? (location ++ [name]) ≠ none →
      location = [] ∧ IsName name := by
    intro location name hentry
    obtain ⟨entry, hentry⟩ := Option.ne_none_iff_exists'.1 hentry
    have hget : entries.get? (location ++ [name]) = some entry := by
      rw [← hentry]
      cases location <;> rfl
    obtain ⟨other, hname, heq⟩ := hflat _ (Table.mem_of_get? hget)
    have heq : location ++ [name] = [] ++ [other] := heq
    obtain ⟨hlocation, hsame⟩ := List.append_inj' heq rfl
    exact ⟨hlocation, (List.singleton_inj.1 hsame).symm ▸ hname⟩
  refine ⟨hdistinct, fun {l n} hl => (hroot hl).2, fun {l n} hl => ?_, rfl⟩
  rw [(hroot hl).1]
  rfl

end IsTree

end Disk

/-! ## Runs -/

namespace Disk.IsTree

variable {disk disk' : Disk}

theorem backupCreate (h : disk.IsTree) {source : Path} {suffix : String} {b : Backup}
    (hcreate : Backup.create disk source suffix = .ok (b, disk')) : disk'.IsTree := by
  obtain ⟨contents, made, drawn, -, -, -, -, hmade, rfl⟩ := Backup.exists_of_create hcreate
  exact (h.create hmade).withDrawn drawn

theorem discard (h : disk.IsTree) (b : Backup) (keep restored : Bool) :
    (b.discard disk keep restored).1.IsTree := by
  rw [Backup.discard]
  split
  · exact h
  · split
    · rename_i hremove
      exact h.remove hremove
    · exact h

theorem settle (h : disk.IsTree) (b : Backup) (keep : Bool) : (b.settle disk keep).1.IsTree := by
  rw [Backup.settle]
  split
  · exact h.discard b keep false
  · split
    · exact h
    · rename_i restored hrestore
      rw [Backup.restore] at hrestore
      split at hrestore
      · cases hrestore
      · split at hrestore
        · rename_i hwrite
          cases hrestore
          exact (h.write hwrite).discard b keep true
        · cases hrestore

theorem settleAll (keep : Bool) (backups : List Backup) : ∀ {disk : Disk}, disk.IsTree →
    (Backup.settleAll disk keep backups).1.IsTree := by
  induction backups with
  | nil => exact id
  | cons b backups ih =>
    intro disk h
    have hrest := ih (h.settle b keep)
    rw [Backup.settleAll]
    dsimp only
    split <;> exact hrest

theorem loadModule (h : disk.IsTree) (suffix : String) (p : Path) :
    (disk.loadModule suffix p).1.IsTree := by
  cases hcreate : Backup.create disk p suffix with
  | error e =>
    rw [Disk.loadModule_of_create_eq_error hcreate]
    exact h
  | ok made =>
    obtain ⟨b, copied⟩ := made
    have hcopied := h.backupCreate hcreate
    rw [Disk.loadModule, loadModuleOn, Backup.createOn_of_create_eq_ok hcreate]
    dsimp only
    split
    · exact hcopied
    · exact hcopied.settle b false

theorem loadModules (h : disk.IsTree) (suffix : String) (goOn : Bool) (loaded : Loaded) (paths : List Path) :
    (disk.loadModules suffix goOn loaded paths).1.IsTree := by
  have hstep : ∀ {disk disk' : Disk} {p : Path} {result : Except Failure (Backup × SourceModule)},
      disk.IsTree → disk.loadModule suffix p = (disk', result) → disk'.IsTree := by
    intro disk disk' p result h hmodule
    have htree := h.loadModule suffix p
    rwa [hmodule] at htree
  rcases hload : disk.loadModules suffix goOn loaded paths with ⟨disk', loaded', failure⟩
  exact loadModulesOn_invariant (P := fun disk _ => disk.IsTree)
    (fun _ _ _ _ _ _ _ => hstep) (fun _ _ _ _ _ _ h hmodule _ => hstep h hmodule) h hload

theorem removeAll {paths : List Path} : ∀ {disk : Disk}, disk.IsTree → (disk.removeAll paths).IsTree := by
  induction paths with
  | nil => exact id
  | cons p paths ih =>
    intro disk h
    refine ih ?_
    change ((disk.remove p).toOption.getD disk).IsTree
    cases hremove : disk.remove p with
    | error e => exact h
    | ok disk' => exact h.remove hremove

theorem promote {staged : List Artifact} : ∀ {disk : Disk} {promoted : List Path}, disk.IsTree →
    (disk.promote promoted staged).1.IsTree := by
  induction staged with
  | nil => exact id
  | cons a staged ih =>
    intro disk promoted h
    rw [Disk.promote]
    split
    · rename_i hreplace
      exact ih (h.replace hreplace)
    · exact h.removeAll

theorem commit (h : disk.IsTree) (staged : List Artifact) : (disk.commit staged).1.IsTree := by
  rw [Disk.commit]
  split
  · exact h
  · exact h.promote

theorem commitOutcome (h : disk.IsTree) (o : Output) (runManifest : Option Path)
    (result : Except Failure Outcome) : (disk.commitOutcome o runManifest result).1.IsTree := by
  match result with
  | .error e => exact h
  | .ok (.rejected sources report) => exact h
  | .ok (.accepted modules manifest report) =>
    have hcommit := h.commit (artifacts o modules manifest runManifest)
    rw [Disk.commitOutcome]
    split
    all_goals
      rename_i heq
      rw [heq] at hcommit
      exact hcommit

theorem finish (h : disk.IsTree) (keep : Bool) (backups : List Backup)
    (result : Except Failure Outcome) : (disk.finish keep backups result).1.IsTree := by
  have hsettled := settleAll keep backups h
  rw [Disk.finish]
  dsimp only
  split <;> exact hsettled

/-- **A run leaves a tree**, whatever its end. -/
theorem shorten (h : disk.IsTree) (profile : Profile) (o : Output) (timestamp : String) (target : Path) :
    (disk.shorten profile o timestamp target).1.IsTree := by
  rw [Disk.shorten, shortenOn]
  split
  · exact h
  · split
    · exact h
    · rename_i paths _
      have hloaded := h.loadModules o.backupSuffix (disk.isDirectory target) {} paths
      dsimp only
      split
      · rename_i loading loaded failure hload
        rw [Disk.loadModules, hload] at hloaded
        have hsettled := settleAll o.keepBackup loaded.backups hloaded
        split
        all_goals
          rename_i heq
          rw [heq] at hsettled
          exact hsettled
      · rename_i loading loaded hload
        rw [Disk.loadModules, hload] at hloaded
        exact (hloaded.commitOutcome o _ _).finish o.keepBackup loaded.backups _

end Disk.IsTree

end Abridge
