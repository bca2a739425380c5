import Abridge.Proofs.Placement

/-!
# Files behind links

A path means a file by way of any number of links.  Whatever is done to the file by this path, is done at the
file itself or at one of these links: it is written over, or it goes.  No other path that means something leads
through these locations (`Disk.Means.not_walk`), so that it means what it meant (`Disk.Alters.stat`), and the path
itself ends at one of them (`Disk.Alters.follow_pair`).

## What is here

* `Disk.walk_unique`, `Disk.aimFrom_unique`: it does not matter how many links may still be followed.
* `Disk.Means`: the locations from which links lead to a file.
* `Disk.Alters`: a disk on which files and links to them were replaced or removed.
* `Disk.Alters.follow_pair`, `Disk.Alters.stat`: what paths mean on it.
-/

set_option autoImplicit false

namespace Abridge

namespace Disk

/-! ## The number of links does not matter -/

section

variable {disk : Disk}

theorem walk_add {links : Nat} {directory : Location} {parts : List String} {r : Location × Nat}
    (h : disk.walk links directory parts = .ok r) (more : Nat) :
    disk.walk (links + more) directory parts = .ok (r.1, r.2 + more) := by
  fun_induction Disk.walk disk links directory parts with
  | case1 => rw [walk]; cases h; rfl
  | case2 _ _ _ ih => rw [walk, ih h]
  | case3 _ _ _ ih => rw [walk, ih h]
  | case7 _ _ _ _ hdot hdots hshort hentry ih =>
    rw [walk.eq_4 _ _ _ _ _ hdot hdots, if_neg hshort, hentry]
    exact ih h
  | case9 _ _ _ hdot hdots hshort _ hentry links ih =>
    rw [walk.eq_4 _ _ _ _ _ hdot hdots, if_neg hshort, hentry, Nat.succ_add]
    exact ih h
  | _ => cases h

theorem walk_unique {links links' : Nat} {directory : Location} {parts : List String} {r r' : Location × Nat}
    (h : disk.walk links directory parts = .ok r) (h' : disk.walk links' directory parts = .ok r') :
    r.1 = r'.1 := by
  have hmore := walk_add h links'
  have hmore' := walk_add h' links
  rw [Nat.add_comm] at hmore'
  exact (Prod.mk.inj (Except.ok.inj (hmore.symm.trans hmore'))).1

theorem aimFrom_unique {links links' : Nat} {directory : Location} {p : Path} {r r' : Aim × Nat}
    (h : disk.aimFrom links directory p = .ok r) (h' : disk.aimFrom links' directory p = .ok r') :
    r.1 = r'.1 := by
  obtain ⟨-, -, ⟨hnil, rfl⟩ | ⟨before, last, parent, _, hparts, hwalk, hlast⟩⟩ := aimFrom_eq_ok h <;>
    obtain ⟨-, -, ⟨hnil', rfl⟩ | ⟨before', last', parent', _, hparts', hwalk', hlast'⟩⟩ := aimFrom_eq_ok h'
  · rfl
  · rw [hnil] at hparts'
    exact absurd hparts'.symm (List.append_ne_nil_of_right_ne_nil _ (List.cons_ne_nil _ _))
  · rw [hnil'] at hparts
    exact absurd hparts.symm (List.append_ne_nil_of_right_ne_nil _ (List.cons_ne_nil _ _))
  · obtain ⟨rfl, hsame⟩ := List.append_inj' (hparts.symm.trans hparts') rfl
    obtain rfl := List.singleton_inj.1 hsame
    obtain rfl : parent = parent' := walk_unique hwalk hwalk'
    obtain ⟨h1, rfl⟩ | ⟨h1, rfl⟩ | ⟨h1, h2, -, rfl⟩ := hlast <;>
      obtain ⟨h1', rfl⟩ | ⟨h1', rfl⟩ | ⟨h1', h2', -, rfl⟩ := hlast' <;> simp_all

end

/-! ## Locations that mean a file -/

/-- Links lead from a location to a file: the file is there, or a link is there whose target is a name for such
a location. -/
inductive Means (disk : Disk) (file : Location) : Location → Prop
  | here : Means disk file file
  | link {parent parent' : Location} {name name' : String} {target : Path} {links links' : Nat} :
    disk.at? (parent ++ [name]) = some (.link target) →
    disk.aimFrom links parent target = .ok (.name parent' name' false, links') →
    Means disk file (parent' ++ [name']) → Means disk file (parent ++ [name])

namespace Means

variable {disk : Disk} {file file' location : Location} {contents contents' : ByteArray}

/-- What is at a location that means a file. -/
theorem at?_eq (h : disk.Means file location) (hfile : disk.at? file = some (.file contents)) :
    (location = file ∧ disk.at? location = some (.file contents)) ∨
      ∃ target, disk.at? location = some (.link target) := by
  cases h with
  | here => exact .inl ⟨rfl, hfile⟩
  | link hlink => exact .inr ⟨_, hlink⟩

theorem ne_none (h : disk.Means file location) (hfile : disk.at? file = some (.file contents)) :
    disk.at? location ≠ none := by
  obtain ⟨-, hentry⟩ | ⟨_, hentry⟩ := h.at?_eq hfile <;> rw [hentry] <;> exact Option.some_ne_none _

theorem ne_directory (h : disk.Means file location) (hfile : disk.at? file = some (.file contents)) :
    disk.at? location ≠ some .directory := by
  obtain ⟨-, hentry⟩ | ⟨_, hentry⟩ := h.at?_eq hfile <;> simp [hentry]

theorem ne_nil (h : disk.Means file location) (hfile : disk.at? file = some (.file contents)) :
    location ≠ [] := by
  rintro rfl
  exact h.ne_directory hfile rfl

/-- A location means one file at most. -/
theorem unique (h : disk.Means file location) (h' : disk.Means file' location)
    (hfile : disk.at? file = some (.file contents)) (hfile' : disk.at? file' = some (.file contents')) :
    file = file' := by
  induction h with
  | here =>
    cases h' with
    | here => rfl
    | link hlink => rw [hlink] at hfile; cases hfile
  | @link parent parent' name name' target links links' hlink haim _ ih =>
    generalize hlocation : parent ++ [name] = location at h' hlink
    cases h' with
    | here => rw [hlink] at hfile'; cases hfile'
    | @link parent₂ parent₂' name₂ name₂' target₂ links₂ links₂' hlink₂ haim₂ hmeans =>
      obtain ⟨rfl, -⟩ := List.append_inj' hlocation rfl
      obtain rfl : target = target₂ := Entry.link.inj (Option.some_inj.1 (hlink.symm.trans hlink₂))
      obtain ⟨rfl, rfl, -⟩ := Aim.name.inj (aimFrom_unique haim haim₂)
      exact ih hmeans

/-- **No way leads through a location that means a file.** -/
theorem not_walk {parent : Location} {name : String} (h : disk.Means file (parent ++ [name]))
    (hfile : disk.at? file = some (.file contents)) (hdot : name ≠ ".") (hdots : name ≠ "..") {links : Nat}
    {r : Location × Nat} : disk.walk links parent [name] ≠ .ok r := by
  generalize hlocation : parent ++ [name] = location at h
  induction h generalizing parent name links r with
  | here =>
    intro hwalk
    rw [← hlocation] at hfile
    obtain hentry | ⟨target, -, hentry, -⟩ := walk_name hdot hdots hwalk
    · rw [hfile] at hentry; cases hentry
    · rw [hfile] at hentry; cases hentry
  | @link parent₁ parent' name₁ name' target links₁ links' hlink haim _ ih =>
    intro hwalk
    obtain ⟨rfl, hname⟩ := List.append_inj' hlocation rfl
    obtain rfl := List.singleton_inj.1 hname
    obtain hentry | ⟨target', links₂, hentry, -, hinner⟩ := walk_name hdot hdots hwalk
    · rw [hlink] at hentry; cases hentry
    · obtain rfl : target = target' := Entry.link.inj (Option.some_inj.1 (hlink.symm.trans hentry))
      obtain ⟨-, -, ⟨-, hnil⟩ | ⟨before, last, around, left, hparts, hbefore, hlast⟩⟩ := aimFrom_eq_ok haim
      · cases hnil
      obtain ⟨-, hlast⟩ | ⟨-, hlast⟩ | ⟨hdot', hdots', -, hlast⟩ := hlast
      · cases hlast
      · cases hlast
      · obtain ⟨rfl, rfl, -⟩ := Aim.name.inj (Prod.mk.inj hlast).1
        rw [hparts] at hinner
        obtain ⟨reached, hreached, hrest⟩ := exists_walk_of_append hinner
        rw [← walk_unique hbefore hreached] at hrest
        exact ih hdot' hdots' rfl hrest

/-- A link that means a file is followed to it. -/
theorem eq_of_followFrom {parent : Location} {name : String} {target : Path}
    (h : disk.Means file (parent ++ [name])) (hfile : disk.at? file = some (.file contents))
    (hlink : disk.at? (parent ++ [name]) = some (.link target)) {links fuel : Nat} {r : Location × Bool}
    (hr : disk.followFrom links parent target fuel = .ok r) : r.1 = file := by
  generalize hlocation : parent ++ [name] = location at h
  induction h generalizing parent name target links fuel r with
  | here =>
    rw [hlocation, hfile] at hlink
    cases hlink
  | @link parent₁ parent' name₁ name' target₁ links₁ links' hlink₁ haim₁ hmeans ih =>
    obtain ⟨rfl, -⟩ := List.append_inj' hlocation rfl
    rw [hlocation] at hlink
    obtain rfl : target = target₁ := Entry.link.inj (Option.some_inj.1 (hlink.symm.trans hlink₁))
    cases fuel with
    | zero => cases hr
    | succ fuel =>
      cases haim : disk.aimFrom links parent target with
      | error e => rw [followFrom, haim] at hr; cases hr
      | ok a =>
        obtain ⟨a, left⟩ := a
        obtain rfl : a = .name parent' name' false := aimFrom_unique haim haim₁
        by_cases hlink' : ∃ target', disk.at? (parent' ++ [name']) = some (.link target')
        · obtain ⟨target', hlink'⟩ := hlink'
          rw [followFrom_link haim hlink'] at hr
          split at hr
          · cases hr
          · cases hinner : disk.followFrom (left - 1) parent' target' fuel with
            | error e => rw [hinner] at hr; cases hr
            | ok inner =>
              rw [hinner] at hr
              rw [← Except.ok.inj hr]
              exact ih hlink' hinner rfl
        · rw [followFrom_name haim fun target' hentry => hlink' ⟨target', hentry⟩] at hr
          rw [← Except.ok.inj hr]
          obtain ⟨heq, -⟩ | hlinked := hmeans.at?_eq hfile
          · exact heq
          · exact absurd hlinked hlink'

end Means

/-- **A path means a file by way of locations that mean it.** -/
theorem IsTree.exists_aimFrom_of_followFrom {disk : Disk} (htree : disk.IsTree) {file : Location}
    {contents : ByteArray} (hfile : disk.at? file = some (.file contents)) {fuel : Nat} :
    ∀ {links : Nat} {directory : Location} {p : Path}, disk.at? directory = some .directory →
      disk.followFrom links directory p fuel = .ok (file, false) →
      ∃ parent name links', disk.aimFrom links directory p = .ok (.name parent name false, links') ∧
        disk.Means file (parent ++ [name]) := by
  induction fuel with
  | zero => intro _ _ _ _ h; cases h
  | succ fuel ih =>
    intro links directory p hdirectory h
    cases haim : disk.aimFrom links directory p with
    | error e => rw [Disk.followFrom, haim] at h; cases h
    | ok a =>
      have hspec := htree.aimFrom hdirectory haim
      obtain ⟨⟨parent, name, slash⟩ | location, links'⟩ := a
      · by_cases hlink : ∃ target, disk.at? (parent ++ [name]) = some (.link target)
        · obtain ⟨target, hlink⟩ := hlink
          rw [followFrom_link haim hlink] at h
          split at h
          · cases h
          · cases hinner : disk.followFrom (links' - 1) parent target fuel with
            | error e => rw [hinner] at h; cases h
            | ok inner =>
              rw [hinner] at h
              obtain ⟨rfl, hslash⟩ := Prod.mk.inj (Except.ok.inj h)
              obtain ⟨rfl, hinside⟩ := Bool.or_eq_false_iff.1 hslash
              obtain ⟨parent', name', links'', haim', hmeans⟩ :=
                ih hspec.1 (hinner.trans (congrArg Except.ok (Prod.ext rfl hinside)))
              exact ⟨parent, name, links', rfl, .link hlink haim' hmeans⟩
        · rw [followFrom_name haim fun target hentry => hlink ⟨target, hentry⟩] at h
          obtain ⟨rfl, rfl⟩ := Prod.mk.inj (Except.ok.inj h)
          exact ⟨parent, name, links', rfl, .here⟩
      · rw [Disk.followFrom, haim] at h
        obtain ⟨rfl, -⟩ := Prod.mk.inj (Except.ok.inj h)
        have hentry : disk.at? location = some .directory := hspec
        rw [hfile] at hentry
        cases hentry

/-- The path of a file names a location that means it. -/
theorem IsTree.exists_names {disk : Disk} (htree : disk.IsTree) {file : Location} {contents : ByteArray} {p : Path}
    (hstat : disk.stat p = .ok (file, .file contents)) :
    ∃ location, disk.Names p location ∧ disk.Means file location := by
  obtain ⟨parent, name, links, haim, hmeans⟩ := htree.exists_aimFrom_of_followFrom (stat_eq_ok hstat) htree.home
    (follow_of_stat_file hstat Entry.noConfusion)
  exact ⟨_, ⟨parent, name, by rw [Disk.aim, haim]; rfl, rfl⟩, hmeans⟩

/-! ## Disks on which files were replaced or removed -/

/-- The disk with a file at a location, or with nothing there. -/
def setContents (disk : Disk) (location : Location) : Option ByteArray → Disk
  | some contents => disk.set location (.file contents)
  | none => disk.unset location

theorem at?_setContents (disk : Disk) {location : Location} (hne : location ≠ []) (contents : Option ByteArray)
    (other : Location) : (disk.setContents location contents).at? other =
      if location = other then contents.map Entry.file else disk.at? other := by
  cases contents with
  | none => exact at?_unset disk hne other
  | some contents => exact at?_set disk hne (.file contents) other

/-- No way leads through there. -/
theorem plain_setContents (disk : Disk) {location : Location} (hne : location ≠ []) (contents : Option ByteArray) :
    (disk.setContents location contents).Plain location := by
  rw [Plain, at?_setContents disk hne, if_pos rfl]
  cases contents <;> simp

theorem Plain.setContents {disk : Disk} {location other : Location} (h : disk.Plain other) (hne : location ≠ [])
    (contents : Option ByteArray) : (disk.setContents location contents).Plain other := by
  cases contents with
  | none => exact h.unset hne
  | some contents => exact h.set hne contents

/-- A path that does not lead to a directory reads what is at its end. -/
theorem read_eq_ok_iff {disk : Disk} {p : Path} {location : Location} {contents : ByteArray}
    (h : disk.follow p = .ok (location, false)) :
    disk.read p = .ok contents ↔ disk.at? location = some (.file contents) := by
  rw [read, stat, h]
  dsimp only
  cases hentry : disk.at? location with
  | none => simp
  | some entry => cases entry <;> simp

/-- A disk that differs from another only where that one has nothing, or something that means one of some files;
and has nothing or a file there. -/
structure Alters (before after : Disk) (files : List Location) : Prop where
  workingDirectory : after.workingDirectory = before.workingDirectory
  entries : ∀ location, after.at? location = before.at? location ∨
    (after.Plain location ∧ (before.at? location = none ∨ ∃ file ∈ files, before.Means file location))

/-- Some locations of a disk have files. -/
def HasFiles (disk : Disk) (files : List Location) : Prop :=
  ∀ file ∈ files, ∃ contents, disk.at? file = some (.file contents)

namespace Alters

variable {before after after' : Disk} {files : List Location}

theorem refl (disk : Disk) (files : List Location) : disk.Alters disk files := ⟨rfl, fun _ => .inl rfl⟩

/-- Directories stay. -/
theorem directory (h : before.Alters after files) (hfiles : before.HasFiles files) {location : Location}
    (hentry : before.at? location = some .directory) : after.at? location = some .directory := by
  rcases h.entries location with hsame | ⟨-, hnone | ⟨file, hmem, hmeans⟩⟩
  · rw [hsame, hentry]
  · rw [hentry] at hnone; cases hnone
  · obtain ⟨contents, hfile⟩ := hfiles file hmem
    exact absurd hentry (hmeans.ne_directory hfile)

/-- **Ways stay**, since none led through the locations that differ. -/
theorem walks (h : before.Alters after files) (hfiles : before.HasFiles files) : before.Walks after := by
  refine ⟨h.workingDirectory, fun {links directory parts r} hr => ?_⟩
  fun_induction Disk.walk before links directory parts with
  | case1 => rwa [Disk.walk]
  | case2 _ _ _ ih => rw [Disk.walk, ih hr]
  | case3 _ _ _ ih => rw [Disk.walk, ih hr]
  | case7 _ _ _ _ hdot hdots hshort hentry ih =>
    rw [Disk.walk.eq_4 _ _ _ _ _ hdot hdots, if_neg hshort, h.directory hfiles hentry]
    exact ih hr
  | case9 directory name rest hdot hdots hshort target hentry links ih =>
    have hlink : after.at? (directory ++ [name]) = some (.link target) := by
      rcases h.entries (directory ++ [name]) with hsame | ⟨-, hnone | ⟨file, hmem, hmeans⟩⟩
      · rw [hsame, hentry]
      · rw [hentry] at hnone; cases hnone
      · obtain ⟨contents, hfile⟩ := hfiles file hmem
        rw [walk_append] at hr
        cases htarget : before.walk links (origin target directory) (Disk.parts target) with
        | error e => rw [htarget] at hr; cases hr
        | ok reached =>
          refine absurd (?_ : before.walk (links + 1) directory [name] = .ok reached)
            (hmeans.not_walk hfile hdot hdots)
          rw [Disk.walk.eq_4 _ _ _ _ _ hdot hdots, if_neg hshort, hentry]
          dsimp only
          rwa [List.append_nil]
    rw [Disk.walk.eq_4 _ _ _ _ _ hdot hdots, if_neg hshort, hlink]
    exact ih hr
  | _ => cases hr

/-- Where a file was, or a link that meant it, there is nothing, a file, or the same link. -/
theorem plain_or_link (h : before.Alters after files) {file : Location} {contents : ByteArray}
    (hfile : before.at? file = some (.file contents)) {location : Location}
    (hmeans : before.Means file location) :
    after.Plain location ∨
      ∃ target, before.at? location = some (.link target) ∧ after.at? location = some (.link target) := by
  rcases h.entries location with hsame | ⟨hplain, -⟩
  · obtain ⟨-, hentry⟩ | ⟨target, hentry⟩ := hmeans.at?_eq hfile
    · exact .inl (plain_of_eq_file (hsame.trans hentry))
    · exact .inr ⟨target, hentry, hsame.trans hentry⟩
  · exact .inl hplain

theorem followFrom_pair (h : before.Alters after files) (h' : before.Alters after' files)
    (htree : before.IsTree) (hfiles : before.HasFiles files) {file : Location} {contents : ByteArray}
    (hfile : before.at? file = some (.file contents))
    (hagree : ∀ location, before.Means file location → after'.at? location = after.at? location)
    {fuel : Nat} : ∀ {links : Nat} {directory : Location} {p : Path},
      before.at? directory = some .directory → before.followFrom links directory p fuel = .ok (file, false) →
      ∃ location, before.Means file location ∧ after.Plain location ∧
        after.followFrom links directory p fuel = .ok (location, false) ∧
        after'.followFrom links directory p fuel = .ok (location, false) := by
  induction fuel with
  | zero => intro _ _ _ _ hr; cases hr
  | succ fuel ih =>
    intro links directory p hdirectory hr
    obtain ⟨parent, name, links', haim, hmeans⟩ := htree.exists_aimFrom_of_followFrom hfile hdirectory hr
    have hafter := (h.walks hfiles).aimFrom haim
    have hafter' := (h'.walks hfiles).aimFrom haim
    rcases h.plain_or_link hfile hmeans with hplain | ⟨target, hlink, hstays⟩
    · have hplain' : after'.Plain (parent ++ [name]) := by rwa [Plain, hagree _ hmeans]
      exact ⟨_, hmeans, hplain, followFrom_name hafter hplain.2, followFrom_name hafter' hplain'.2⟩
    · rw [followFrom_link haim hlink] at hr
      rw [followFrom_link hafter hstays, followFrom_link hafter' ((hagree _ hmeans).trans hstays)]
      split at hr
      · cases hr
      · rename_i hlinks
        rw [if_neg hlinks, if_neg hlinks]
        cases hinner : before.followFrom (links' - 1) parent target fuel with
        | error e => rw [hinner] at hr; cases hr
        | ok inner =>
          rw [hinner] at hr
          obtain ⟨rfl, hinside⟩ := Prod.mk.inj (Except.ok.inj hr)
          obtain ⟨location, hlocation, hplain, hfollow, hfollow'⟩ := ih (htree.aimFrom hdirectory haim).1
            (hinner.trans (congrArg Except.ok (Prod.ext rfl hinside)))
          refine ⟨location, hlocation, hplain, ?_, ?_⟩
          · rw [hfollow]; rfl
          · rw [hfollow']; rfl

/-- **The path of a file ends at a location that meant the file.**  On two disks that have the same at all of
these it ends at the same. -/
theorem follow_pair (h : before.Alters after files) (h' : before.Alters after' files)
    (htree : before.IsTree) (hfiles : before.HasFiles files) {file : Location} {contents : ByteArray}
    (hagree : ∀ location, before.Means file location → after'.at? location = after.at? location) {p : Path}
    (hstat : before.stat p = .ok (file, .file contents)) :
    ∃ location, before.Means file location ∧ after.Plain location ∧
      after.follow p = .ok (location, false) ∧ after'.follow p = .ok (location, false) := by
  have hfollow := follow_of_stat_file hstat Entry.noConfusion
  rw [Disk.follow, Disk.follow, h.workingDirectory, h'.workingDirectory]
  exact followFrom_pair h h' htree hfiles (stat_eq_ok hstat) hagree htree.home hfollow

theorem follow (h : before.Alters after files) (htree : before.IsTree) (hfiles : before.HasFiles files)
    {file : Location} {contents : ByteArray} {p : Path} (hstat : before.stat p = .ok (file, .file contents)) :
    ∃ location, before.Means file location ∧ after.Plain location ∧ after.follow p = .ok (location, false) := by
  obtain ⟨location, hmeans, hplain, hfollow, -⟩ := h.follow_pair h htree hfiles (fun _ _ => rfl) hstat
  exact ⟨location, hmeans, hplain, hfollow⟩

theorem followFrom_other (h : before.Alters after files) (hfiles : before.HasFiles files) {fuel : Nat} :
    ∀ {links : Nat} {directory : Location} {p : Path} {r : Location × Bool},
      before.followFrom links directory p fuel = .ok r → r.1 ∉ files →
      (before.at? r.1 = none → after.at? r.1 = none) → after.followFrom links directory p fuel = .ok r := by
  induction fuel with
  | zero => intro _ _ _ _ hr; cases hr
  | succ fuel ih =>
    intro links directory p r hr hother hnone
    cases haim : before.aimFrom links directory p with
    | error e => rw [Disk.followFrom, haim] at hr; cases hr
    | ok a =>
      have hafter := (h.walks hfiles).aimFrom haim
      obtain ⟨⟨parent, name, slash⟩ | location, links'⟩ := a
      · by_cases hlink : ∃ target, before.at? (parent ++ [name]) = some (.link target)
        · obtain ⟨target, hlink⟩ := hlink
          rw [followFrom_link haim hlink] at hr
          split at hr
          · cases hr
          · rename_i hlinks
            cases hinner : before.followFrom (links' - 1) parent target fuel with
            | error e => rw [hinner] at hr; cases hr
            | ok inner =>
              rw [hinner] at hr
              obtain rfl := Except.ok.inj hr
              have hstays : after.at? (parent ++ [name]) = some (.link target) := by
                rcases h.entries (parent ++ [name]) with hsame | ⟨-, hfree | ⟨file, hmem, hmeans⟩⟩
                · rw [hsame, hlink]
                · rw [hlink] at hfree; cases hfree
                · obtain ⟨contents, hfile⟩ := hfiles file hmem
                  rw [← hmeans.eq_of_followFrom hfile hlink hinner] at hmem
                  exact absurd hmem hother
              rw [followFrom_link hafter hstays, if_neg hlinks, ih hinner hother hnone]
              rfl
        · have hplain : ∀ target, before.at? (parent ++ [name]) ≠ some (.link target) :=
            fun target hentry => hlink ⟨target, hentry⟩
          rw [followFrom_name haim hplain] at hr
          cases hr
          refine followFrom_name hafter fun target hentry => ?_
          rcases h.entries (parent ++ [name]) with hsame | ⟨hclear, -⟩
          · exact hplain target (hsame ▸ hentry)
          · exact hclear.2 target hentry
      · rw [Disk.followFrom, haim] at hr
        rw [Disk.followFrom, hafter]
        exact hr

/-- None of the ways is new. -/
theorem leads (h : before.Alters after files) : after.Leads before := by
  refine ⟨h.workingDirectory.symm, fun {location} hentry => ?_, fun {location target} hentry => ?_⟩
  · rcases h.entries location with hsame | ⟨hplain, -⟩
    · rw [← hsame, hentry]
    · exact absurd hentry hplain.1
  · rcases h.entries location with hsame | ⟨hplain, -⟩
    · rw [← hsame, hentry]
    · exact absurd hentry (hplain.2 target)

/-- **Other paths mean what they meant.** -/
theorem stat (h : before.Alters after files) (htree : before.IsTree) (hfiles : before.HasFiles files) {p : Path}
    {r : Location × Entry} (hstat : before.stat p = .ok r) (hother : r.1 ∉ files) : after.stat p = .ok r := by
  have hentry := stat_eq_ok hstat
  refine stat_of_follow hstat (fun slash hfollow => ?_) ?_
  · rw [Disk.follow] at hfollow ⊢
    rw [h.workingDirectory]
    exact h.followFrom_other hfiles hfollow hother fun hnone => by rw [hentry] at hnone; cases hnone
  · rcases h.entries r.1 with hsame | ⟨-, hnone | ⟨file, hmem, hmeans⟩⟩
    · exact hsame
    · rw [hentry] at hnone; cases hnone
    · obtain ⟨contents, hfile⟩ := hfiles file hmem
      obtain ⟨heq, -⟩ | ⟨target, hlink⟩ := hmeans.at?_eq hfile
      · exact absurd (heq ▸ hmem) hother
      -- A path is followed beyond a link.
      · obtain ⟨slash, hfollow⟩ := follow_of_stat hstat
        rcases htree.followFrom htree.home hfollow with hdirectory | ⟨-, -, -, -, -, hplain⟩
        · rw [hlink] at hdirectory; cases hdirectory
        · exact absurd hlink (hplain target)

/-- A path that means something meant it before, or what is at its end was not there. -/
theorem stat_or (h : before.Alters after files) {p : Path} {r : Location × Entry} (hstat : after.stat p = .ok r) :
    before.stat p = .ok r ∨ after.at? r.1 ≠ before.at? r.1 := by
  by_cases hsame : after.at? r.1 = before.at? r.1
  · exact .inl (stat_of_follow hstat (fun _ hfollow => h.leads.follow hfollow fun _ => hsame.trans) hsame.symm)
  · exact .inr hsame

/-- What is read by the path of a file depends on the locations that meant the file, and on nothing else. -/
theorem read_congr (h : before.Alters after files) (h' : before.Alters after' files) (htree : before.IsTree)
    (hfiles : before.HasFiles files) {file : Location} {contents : ByteArray}
    (hagree : ∀ location, before.Means file location → after'.at? location = after.at? location) {p : Path}
    (hstat : before.stat p = .ok (file, .file contents)) : after'.read p = after.read p := by
  obtain ⟨location, hmeans, -, hfollow, hfollow'⟩ := h.follow_pair h' htree hfiles hagree hstat
  rw [Disk.read, Disk.read, Disk.stat, Disk.stat, hfollow, hfollow']
  dsimp only
  rw [hagree _ hmeans]

/-- Where nothing that meant a file differs, all paths of the file mean it. -/
theorem stat_of_agree (h : before.Alters after files) (htree : before.IsTree) (hfiles : before.HasFiles files)
    {file : Location} {contents : ByteArray}
    (hagree : ∀ location, before.Means file location → after.at? location = before.at? location) {p : Path}
    (hstat : before.stat p = .ok (file, .file contents)) : after.stat p = .ok (file, .file contents) := by
  obtain ⟨_, -, -, hbefore, hafter⟩ := (refl before files).follow_pair h htree hfiles hagree hstat
  exact stat_of_follow hstat (fun slash hfollow => hafter.trans (hbefore.symm.trans hfollow)) (hagree file .here)

/-- A file takes the place of one that means one of the files, or it goes. -/
theorem setContents (h : before.Alters after files) {location : Location} (hne : location ≠ [])
    (hlocation : before.at? location = none ∨ ∃ file ∈ files, before.Means file location)
    (contents : Option ByteArray) : before.Alters (after.setContents location contents) files := by
  refine ⟨?_, fun other => ?_⟩
  · cases contents <;> exact h.workingDirectory
  · by_cases heq : location = other
    · exact .inr ⟨heq ▸ plain_setContents after hne contents, heq ▸ hlocation⟩
    · rw [at?_setContents after hne, if_neg heq]
      exact (h.entries other).imp_right fun hplain => ⟨hplain.1.setContents hne contents, hplain.2⟩

end Alters

end Disk

end Abridge
