import Abridge.Proofs.Backups
import Abridge.Proofs.Order
import Abridge.Proofs.Trees

/-!
# Walking down

The modules below a directory are found by walking down from it.  The walk enters a directory by its name, or
by a link to it unless it is inside of that directory already.  It comes to an end on every disk: an entry
goes down, and a link leads to a directory that was not entered yet, of which there are only so many.  So
the levels that `Disk.modulesBelow` may go down are never used up, and what it finds is what can be found
(`Disk.mem_modulesBelow_iff`), in whatever order the table of the disk has its entries.

## What is here

* `Disk.leadsTo_of_stat`: a path that means a directory leads to it.
* `Disk.Visits`, `Disk.Finds`: the directories that a walk enters, and what it finds in them.
* `Disk.mem_modulesBelow_iff`: the walk finds all that is to be found.
* `Disk.apart_modulesBelow`: it finds nothing twice.
-/

set_option autoImplicit false

namespace Abridge

/-- Paths that are equal to a comparison have the same components. -/
theorem Path.components_eq_of_compare {p q : Path} (h : p.compare q = .eq) :
    p.components = q.components := by
  have hstep : ∀ a b : Component, a.compare b = .eq → a = b := by
    intro a b hab
    unfold Component.compare at hab
    split at hab
    · split_ifs at hab with hlt heq
      rw [heq]
    · rename_i hnames
      have hrank := compare_eq_iff_eq.1 hab
      cases a <;> cases b <;> simp_all [Component.rank]
  have hsteps : ∀ as bs : List Component, Path.compareSteps as bs = .eq → as = bs := by
    intro as
    induction as with
    | nil => intro bs hbs; cases bs <;> [rfl; cases hbs]
    | cons a as ih =>
      intro bs hbs
      cases bs with
      | nil => cases hbs
      | cons b bs =>
        rw [Path.compareSteps, Ordering.then_eq_eq] at hbs
        rw [hstep a b hbs.1, ih bs hbs.2]
  exact hsteps _ _ h

namespace Disk

/-! ## Directories that paths mean -/

theorem isAbsolute_of_parts {p : Path} (hchars : p.text.toList ≠ []) (hparts : parts p = []) :
    p.isAbsolute = true := by
  obtain ⟨c, cs, htext⟩ := List.exists_cons_of_ne_nil hchars
  by_cases hslash : c = '/'
  · rw [Path.isAbsolute, htext, hslash]
    rfl
  · exfalso
    rw [parts, htext, Path.splitSlashes.eq_3 _ _ hslash] at hparts
    split at hparts <;> simp at hparts

/-- A path that means a directory leads to it, step by step. -/
theorem walk_of_followFrom {disk : Disk} {fuel : Nat} : ∀ {links : Nat} {directory : Location} {p : Path}
    {r : Location × Bool}, disk.followFrom links directory p fuel = .ok r →
      disk.at? r.1 = some .directory →
      ∃ links', disk.walk links (origin p directory) (parts p) = .ok (r.1, links') := by
  induction fuel with
  | zero => intro _ _ _ _ h; cases h
  | succ fuel ih =>
    intro links directory p r hfollow hentry
    cases haim : disk.aimFrom links directory p with
    | error e => rw [followFrom, haim] at hfollow; cases hfollow
    | ok a =>
      obtain ⟨-, hchars, ⟨hparts, rfl⟩ | ⟨before, last, parent, links', hparts, hwalk, hlast⟩⟩ :=
        aimFrom_eq_ok haim
      · rw [followFrom, haim] at hfollow
        cases hfollow
        refine ⟨links, ?_⟩
        rw [hparts, origin, if_pos (isAbsolute_of_parts hchars hparts), walk]
      rw [hparts, walk_append, hwalk]
      dsimp only
      obtain ⟨rfl, rfl⟩ | ⟨rfl, rfl⟩ | ⟨hdot, hdots, hshort, rfl⟩ := hlast
      · rw [followFrom, haim] at hfollow
        cases hfollow
        exact ⟨links', by rw [walk, walk]⟩
      · rw [followFrom, haim] at hfollow
        cases hfollow
        exact ⟨links', by rw [walk, walk]⟩
      rw [walk.eq_4 _ _ _ _ _ hdot hdots, if_neg (Nat.not_lt.2 hshort)]
      by_cases hlink : ∃ target, disk.at? (parent ++ [last]) = some (.link target)
      · obtain ⟨target, hlink⟩ := hlink
        rw [followFrom_link haim hlink] at hfollow
        rw [hlink]
        cases links' with
        | zero => cases hfollow
        | succ links' =>
          rw [if_neg (Nat.succ_ne_zero links'), Nat.succ_sub_one] at hfollow
          cases hinner : disk.followFrom links' parent target fuel with
          | error e => rw [hinner] at hfollow; cases hfollow
          | ok inner =>
            rw [hinner] at hfollow
            cases hfollow
            dsimp only
            rw [List.append_nil]
            exact ih hinner hentry
      · rw [followFrom_name haim fun target hentry => hlink ⟨target, hentry⟩] at hfollow
        cases hfollow
        rw [hentry]
        exact ⟨links', by rw [walk]⟩

theorem exists_aimFrom_of_stat {disk : Disk} {p : Path} {r : Location × Entry} (h : disk.stat p = .ok r) :
    ∃ a, disk.aimFrom linkLimit disk.workingDirectory p = .ok a := by
  obtain ⟨slash, hfollow⟩ := follow_of_stat h
  rw [follow, followFrom] at hfollow
  cases haim : disk.aimFrom linkLimit disk.workingDirectory p with
  | error e => rw [haim] at hfollow; cases hfollow
  | ok a => exact ⟨a, rfl⟩

/-- **A path that means a directory leads to it.** -/
theorem leadsTo_of_stat {disk : Disk} {p : Path} {location : Location}
    (h : disk.stat p = .ok (location, .directory)) : disk.LeadsTo p location := by
  have hentry := stat_eq_ok h
  obtain ⟨slash, hfollow⟩ := follow_of_stat h
  obtain ⟨a, ha⟩ := exists_aimFrom_of_stat h
  exact ⟨(aimFrom_eq_ok ha).1, walk_of_followFrom hfollow hentry⟩

/-! ## What names mean -/

/-- Something has the name, so it is not too long. -/
theorem At.short_of_stat {disk : Disk} {p : Path} {location : Location} {name : String}
    (h : disk.At p location name) {r : Location × Entry} (hstat : disk.stat p = .ok r) :
    name.utf8ByteSize ≤ nameLimit := by
  obtain ⟨a, ha⟩ := exists_aimFrom_of_stat hstat
  have haim := h.aim_eq
  rw [aim, ha] at haim
  by_contra hlong
  rw [if_pos (Nat.lt_of_not_le hlong)] at haim
  cases haim

/-- A name that is no link means what has the name. -/
theorem At.location_of_stat {disk : Disk} {p : Path} {location : Location} {name : String}
    (h : disk.At p location name) {r : Location × Entry} (hstat : disk.stat p = .ok r)
    (hplain : ∀ link, disk.at? (location ++ [name]) ≠ some (.link link)) : r.1 = location ++ [name] := by
  obtain ⟨⟨a, links⟩, ha⟩ := exists_aimFrom_of_stat hstat
  have haim := h.aim_eq
  rw [aim, ha, if_neg (Nat.not_lt.2 (h.short_of_stat hstat))] at haim
  cases haim
  obtain ⟨slash, hfollow⟩ := follow_of_stat hstat
  rw [follow, followFrom_name ha hplain] at hfollow
  exact (Prod.mk.inj (Except.ok.inj hfollow)).1.symm

/-! ## Entries of directories -/

/-- An entry is in a directory if its location is that of the directory and a name. -/
theorem child_eq_some {directory location : Location} {entry : Entry} {child : String × Entry} :
    (match location.getLast? with
      | some name => if location.dropLast = directory then some (name, entry) else none
      | none => none) = some child ↔ location = directory ++ [child.1] ∧ entry = child.2 := by
  constructor
  · intro h
    split at h
    · rename_i last hlast
      split at h
      · rename_i hdirectory
        cases h
        exact ⟨by rw [← hdirectory, List.dropLast_append_getLast? _ hlast], rfl⟩
      · cases h
    · cases h
  · rintro ⟨rfl, rfl⟩
    simp

theorem mem_children {disk : Disk} {directory : Location} {name : String} {entry : Entry} :
    (name, entry) ∈ disk.children directory ↔ (directory ++ [name], entry) ∈ disk.entries := by
  rw [children, List.mem_filterMap]
  constructor
  · rintro ⟨⟨location, entry'⟩, hmem, h⟩
    obtain ⟨rfl, rfl⟩ := child_eq_some.1 h
    exact hmem
  · exact fun hmem => ⟨_, hmem, child_eq_some.2 ⟨rfl, rfl⟩⟩

/-- On a tree the entries of a directory are what is at the locations in it. -/
theorem IsTree.mem_children_iff {disk : Disk} (h : disk.IsTree) {directory : Location} {name : String}
    {entry : Entry} :
    (name, entry) ∈ disk.children directory ↔ disk.at? (directory ++ [name]) = some entry := by
  have hat : disk.at? (directory ++ [name]) = disk.entries.get? (directory ++ [name]) := by
    cases directory <;> rfl
  rw [mem_children, hat, h.distinct.get?_eq_some_iff]

/-- No name is twice in a directory. -/
theorem IsTree.pairwise_children {disk : Disk} (h : disk.IsTree) (directory : Location) :
    (disk.children directory).Pairwise fun a b => a.1 ≠ b.1 := by
  have hdistinct : disk.entries.Pairwise fun a b => a.1 ≠ b.1 := List.pairwise_map.1 h.distinct
  refine List.Pairwise.filterMap _ ?_ hdistinct
  rintro ⟨location, entry⟩ ⟨location', entry'⟩ hne x hx y hy hsame
  obtain ⟨rfl, -⟩ := child_eq_some.1 hx
  obtain ⟨rfl, -⟩ := child_eq_some.1 hy
  exact hne (by rw [hsame])

/-! ## The walk -/

/-- A walk down from a target, which is the directory at a root, enters a directory: `p` is how it came
there, and `around` are the directories that it is inside of. -/
inductive Visits (disk : Disk) (target : Path) (root : Location) : Path → Location → List Location → Prop
  | start : Visits disk target root target root []
  | enter {p : Path} {location below : Location} {around : List Location} {name : String} {entry : Entry} :
    Visits disk target root p location around → disk.at? (location ++ [name]) = some entry →
    name ≠ dependencyDirectory → disk.stat (p.join name) = .ok (below, .directory) →
    (entry.isDirectory = true ∨ below ∉ location :: around) →
    Visits disk target root (p.join name) below (location :: around)

/-- A walk finds a module in a directory that it enters. -/
inductive Finds (disk : Disk) (m : ArtifactMarkers) (target : Path) (root : Location) : Path → Prop
  | found {p : Path} {location : Location} {around : List Location} {name : String}
    {r : Location × Entry} :
    disk.Visits target root p location around → disk.at? (location ++ [name]) ≠ none →
    name ≠ dependencyDirectory → disk.stat (p.join name) = .ok r → r.2 ≠ .directory →
    m.isModule name = true → Finds disk m target root (p.join name)

variable {disk : Disk} {m : ArtifactMarkers} {target : Path} {root : Location}

theorem Visits.stat_eq (hroot : disk.stat target = .ok (root, .directory)) {p : Path} {location : Location}
    {around : List Location} (h : disk.Visits target root p location around) :
    disk.stat p = .ok (location, .directory) := by
  cases h with
  | start => exact hroot
  | enter _ _ _ hstat _ => exact hstat

theorem finds_of_mem_modulesBelow (htree : disk.IsTree) {q : Path} {fuel : Nat} :
    ∀ {p : Path} {location : Location} {around : List Location}, disk.Visits target root p location around →
      q ∈ disk.modulesBelow m p (location :: around) fuel → disk.Finds m target root q := by
  induction fuel with
  | zero => intro _ _ _ _ h; exact absurd h List.not_mem_nil
  | succ fuel ih =>
    intro p location around hvisits h
    rw [modulesBelow] at h
    obtain ⟨⟨name, entry⟩, hchild, hq⟩ := List.mem_flatMap.1 h
    rw [List.headD_cons, htree.mem_children_iff] at hchild
    dsimp only at hq
    split at hq
    · exact absurd hq List.not_mem_nil
    rename_i hname
    split at hq
    · exact absurd hq List.not_mem_nil
    · rename_i below hstat
      split at hq
      · exact absurd hq List.not_mem_nil
      · rename_i hentered
        refine ih (.enter hvisits hchild hname hstat ?_) hq
        rw [Bool.and_eq_true, not_and_or, Bool.not_eq_true', Bool.not_eq_false,
          List.contains_iff_mem] at hentered
        exact hentered
    · rename_i r hnot hstat
      split at hq
      · rename_i hmodule
        rw [List.mem_singleton.1 hq]
        have hsome : disk.at? (location ++ [name]) ≠ none := hchild.trans_ne (Option.some_ne_none _)
        exact .found hvisits hsome hname hstat hnot hmodule
      · exact absurd hq List.not_mem_nil

/-- How a walk came to a directory: by names below the target, which are the names below the root as well
unless links were followed. -/
theorem Visits.exists_names (htree : disk.IsTree) (hroot : disk.stat target = .ok (root, .directory))
    {p : Path} {location : Location} {around : List Location}
    (h : disk.Visits target root p location around) :
    ∃ names : List String, p.components = target.components ++ names.map .name ∧
      ((∀ l link, disk.at? l ≠ some (.link link)) → location = root ++ names) := by
  induction h with
  | start => exact ⟨[], by simp, fun _ => by simp⟩
  | @enter p location below around name entry hvisits hentry hname hstat hentered ih =>
    obtain ⟨names, hcomponents, hlocation⟩ := ih
    have hproper := htree.isName (hentry.trans_ne (Option.some_ne_none _))
    obtain ⟨directory, hin, halike⟩ := p.exists_isIn_join hproper
    refine ⟨names ++ [name], ?_, fun hlinks => ?_⟩
    · rw [hin.components_eq, halike.components, hcomponents, List.map_append, List.append_assoc]
      rfl
    · have hat := (leadsTo_of_stat (hvisits.stat_eq hroot)).join hproper
      have hbelow := hat.location_of_stat hstat (hlinks _)
      rw [hlocation hlinks, List.append_assoc] at hbelow
      exact hbelow

/-- **What a walk finds is a module below the target.** -/
theorem Finds.exists_at (htree : disk.IsTree) (hroot : disk.stat target = .ok (root, .directory))
    {q : Path} (h : disk.Finds m target root q) :
    ∃ names location name, disk.At q location name ∧ m.isModule name = true ∧
      q.components = target.components ++ (names ++ [name]).map .name ∧
      ((∀ l link, disk.at? l ≠ some (.link link)) → location = root ++ names) := by
  cases h with
  | @found p location around name r hvisits hentry hname hstat hfile hmodule =>
    obtain ⟨names, hcomponents, hlocation⟩ := hvisits.exists_names htree hroot
    have hproper := htree.isName hentry
    obtain ⟨directory, hin, halike⟩ := p.exists_isIn_join hproper
    refine ⟨names, location, name, (leadsTo_of_stat (hvisits.stat_eq hroot)).join hproper, hmodule, ?_,
      hlocation⟩
    rw [hin.components_eq, halike.components, hcomponents, List.map_append, List.append_assoc]
    rfl

/-! ## The end of the walk -/

theorem countP_lt_countP {α : Type} {p q : α → Bool} {l : List α} (h : ∀ x ∈ l, p x = true → q x = true)
    {a : α} (ha : a ∈ l) (hq : q a = true) (hp : p a = false) : l.countP p < l.countP q := by
  induction l with
  | nil => exact absurd ha List.not_mem_nil
  | cons x l ih =>
    obtain ⟨hx, hl⟩ := List.forall_mem_cons.1 h
    have hle : l.countP p ≤ l.countP q := List.countP_mono_left hl
    rw [List.countP_cons, List.countP_cons]
    rcases List.mem_cons.1 ha with rfl | ha
    · rw [hp, hq, if_neg Bool.false_ne_true, if_pos rfl]
      omega
    · have hlt := ih hl ha
      by_cases hpx : p x = true
      · rw [if_pos hpx, if_pos (hx hpx)]
        omega
      · rw [if_neg hpx]
        split <;> omega

/-- How many directories the walk is not inside of. -/
def unentered (disk : Disk) (around : List Location) : Nat :=
  (([], .directory) :: disk.entries).countP fun e => e.2.isDirectory && !around.contains e.1

/-- How much is below a location. -/
def countBelow (disk : Disk) (location : Location) : Nat :=
  disk.entries.countP fun e => location.isPrefixOf e.1 && e.1 != location

theorem unentered_cons_le (disk : Disk) (location : Location) (around : List Location) :
    disk.unentered (location :: around) ≤ disk.unentered around := by
  refine List.countP_mono_left fun e _ he => ?_
  simp only [Bool.and_eq_true, Bool.not_eq_true', List.contains_cons, Bool.or_eq_false_iff] at he ⊢
  exact ⟨he.1, he.2.2⟩

/-- Entering a directory for the first time leaves fewer to be entered. -/
theorem unentered_cons_lt {location : Location} {around : List Location}
    (hentry : disk.at? location = some .directory) (hnew : location ∉ around) :
    disk.unentered (location :: around) < disk.unentered around := by
  have hmem : (location, Entry.directory) ∈ (([], .directory) :: disk.entries : List (Location × Entry)) := by
    cases location with
    | nil => exact List.mem_cons_self
    | cons name names => exact List.mem_cons_of_mem _ (Table.mem_of_get? hentry)
  refine countP_lt_countP (fun e _ he => ?_) hmem ?_ ?_
  · simp only [Bool.and_eq_true, Bool.not_eq_true', List.contains_cons, Bool.or_eq_false_iff] at he ⊢
    exact ⟨he.1, he.2.2⟩
  · simp [Entry.isDirectory, hnew]
  · simp

/-- Going down leaves less below. -/
theorem countBelow_lt {location : Location} {name : String} {entry : Entry}
    (hentry : disk.at? (location ++ [name]) = some entry) :
    disk.countBelow (location ++ [name]) < disk.countBelow location := by
  have hmem : (location ++ [name], entry) ∈ disk.entries := by
    refine Table.mem_of_get? ?_
    rw [← hentry]
    cases location <;> rfl
  refine countP_lt_countP (fun e _ he => ?_) hmem ?_ ?_
  · simp only [Bool.and_eq_true, List.isPrefixOf_iff_prefix, bne_iff_ne] at he ⊢
    refine ⟨(List.prefix_append location [name]).trans he.1, ?_⟩
    rintro rfl
    have hlength := he.1.length_le
    rw [List.length_append, List.length_singleton] at hlength
    omega
  · simp
  · simp

/-- Less of the first, or no more of it and less of the second. -/
theorem mul_add_lt {most first first' second second' : Nat}
    (h : (first' ≤ first ∧ second' < second) ∨ (first' < first ∧ second' ≤ most)) :
    first' * (most + 1) + second' < first * (most + 1) + second := by
  rcases h with ⟨hfirst, hsecond⟩ | ⟨hfirst, hsecond⟩
  · have hle := Nat.mul_le_mul_right (most + 1) hfirst
    omega
  · have hle := Nat.mul_le_mul_right (most + 1) (Nat.succ_le_of_lt hfirst)
    rw [Nat.succ_mul] at hle
    omega

/-- The walk may go down further wherever it is, and what it finds there it finds from the target. -/
theorem Visits.exists_fuel (htree : disk.IsTree) (hroot : disk.stat target = .ok (root, .directory))
    {p : Path} {location : Location} {around : List Location}
    (h : disk.Visits target root p location around) :
    ∃ fuel, disk.unentered (location :: around) * (disk.entries.length + 1) + disk.countBelow location <
        fuel ∧
      disk.modulesBelow m p (location :: around) fuel ⊆
        disk.modulesBelow m target [root] ((disk.entries.length + 1) * (disk.entries.length + 1)) := by
  have hbound : ∀ l, disk.countBelow l ≤ disk.entries.length := fun l => List.countP_le_length
  induction h with
  | start =>
    refine ⟨_, ?_, List.Subset.refl _⟩
    have hentry := stat_eq_ok hroot
    have hlt : disk.unentered [root] < disk.unentered [] := unentered_cons_lt hentry List.not_mem_nil
    have hle : disk.unentered [] ≤ disk.entries.length + 1 := List.countP_le_length
    have hless : disk.unentered [root] < disk.entries.length + 1 := by omega
    calc disk.unentered [root] * (disk.entries.length + 1) + disk.countBelow root
        < (disk.entries.length + 1) * (disk.entries.length + 1) + 0 :=
          mul_add_lt (.inr ⟨hless, hbound root⟩)
      _ = (disk.entries.length + 1) * (disk.entries.length + 1) := Nat.add_zero _
  | @enter p location below around name entry hvisits hentry hname hstat hentered ih =>
    obtain ⟨fuel, hfuel, hsub⟩ := ih
    obtain ⟨fuel, rfl⟩ : ∃ n, fuel = n + 1 := ⟨fuel - 1, by omega⟩
    refine ⟨fuel, ?_, fun q hq => hsub ?_⟩
    · have hproper := htree.isName (hentry.trans_ne (Option.some_ne_none _))
      have hle := disk.unentered_cons_le below (location :: around)
      by_cases hdirectory : entry = .directory
      · -- An entry that is a directory itself lies further down.
        subst hdirectory
        have hat := (leadsTo_of_stat (hvisits.stat_eq hroot)).join hproper
        have hbelow : below = location ++ [name] := hat.location_of_stat hstat fun link hlink => by
          rw [hentry] at hlink
          cases hlink
        have hlt := countBelow_lt hentry
        rw [← hbelow] at hlt
        exact Nat.lt_of_lt_of_le (mul_add_lt (.inl ⟨hle, hlt⟩)) (Nat.le_of_lt_succ hfuel)
      · -- A link has led to a directory that was not entered yet.
        have hnew : below ∉ location :: around := by
          refine hentered.resolve_left fun hdir => hdirectory ?_
          cases entry with
          | directory => rfl
          | file contents => cases hdir
          | link target => cases hdir
        have hlt := unentered_cons_lt (stat_eq_ok hstat) hnew
        exact Nat.lt_of_lt_of_le (mul_add_lt (.inr ⟨hlt, hbound below⟩)) (Nat.le_of_lt_succ hfuel)
    · rw [modulesBelow]
      refine List.mem_flatMap.2 ⟨(name, entry), htree.mem_children_iff.2 hentry, ?_⟩
      dsimp only
      rw [if_neg hname, hstat]
      dsimp only
      rw [if_neg]
      · exact hq
      · rw [Bool.and_eq_true, not_and_or, Bool.not_eq_true', Bool.not_eq_false, List.contains_iff_mem]
        exact hentered

/-- **A walk finds all that is to be found.** -/
theorem mem_modulesBelow_iff (htree : disk.IsTree) (hroot : disk.stat target = .ok (root, .directory))
    {q : Path} :
    q ∈ disk.modulesBelow m target [root] ((disk.entries.length + 1) * (disk.entries.length + 1)) ↔
      disk.Finds m target root q := by
  refine ⟨finds_of_mem_modulesBelow htree .start, ?_⟩
  rintro ⟨hvisits, hentry, hname, hstat, hfile, hmodule⟩
  rename_i p location around name r
  obtain ⟨fuel, hfuel, hsub⟩ := hvisits.exists_fuel htree hroot (m := m)
  obtain ⟨fuel, rfl⟩ : ∃ n, fuel = n + 1 := ⟨fuel - 1, by omega⟩
  obtain ⟨entry, hentry⟩ := Option.ne_none_iff_exists'.1 hentry
  refine hsub ?_
  rw [modulesBelow]
  refine List.mem_flatMap.2 ⟨(name, entry), htree.mem_children_iff.2 hentry, ?_⟩
  dsimp only
  rw [if_neg hname, hstat]
  obtain ⟨found, entry'⟩ := r
  cases entry' with
  | directory => exact absurd rfl hfile
  | file contents =>
    dsimp only
    rw [if_pos hmodule]
    exact List.mem_singleton.2 rfl
  | link link =>
    dsimp only
    rw [if_pos hmodule]
    exact List.mem_singleton.2 rfl

/-! ## Nothing is found twice -/

/-- Joining adds a step. -/
theorem components_join {p : Path} {name : String} (h : IsName name) :
    (p.join name).components = p.components ++ [.name name] := by
  obtain ⟨directory, hin, halike⟩ := p.exists_isIn_join h
  rw [hin.components_eq, halike.components]

/-- What is found by way of a name has the name as a step. -/
theorem exists_names_of_mem_child {fuel : Nat}
    (ih : ∀ {q p : Path} {around : List Location}, q ∈ disk.modulesBelow m p around fuel →
      ∃ names : List String, q.components = p.components ++ names.map .name)
    {p q : Path} {around : List Location} {name : String} {entry : Entry} (hproper : IsName name)
    (hq : q ∈ if name = dependencyDirectory then []
      else
        match disk.stat (p.join name) with
        | .error _ => []
        | .ok (location, .directory) =>
          if !entry.isDirectory && around.contains location then []
          else disk.modulesBelow m (p.join name) (location :: around) fuel
        | .ok (_, _) => if m.isModule name then [p.join name] else []) :
    ∃ names : List String, q.components = p.components ++ .name name :: names.map .name := by
  split at hq
  · exact absurd hq List.not_mem_nil
  split at hq
  · exact absurd hq List.not_mem_nil
  · split at hq
    · exact absurd hq List.not_mem_nil
    · obtain ⟨names, hnames⟩ := ih hq
      exact ⟨names, by rw [hnames, components_join hproper, List.append_assoc]; rfl⟩
  · split at hq
    · rw [List.mem_singleton.1 hq, components_join hproper]
      exact ⟨[], rfl⟩
    · exact absurd hq List.not_mem_nil

/-- What is found below a path has its steps and more. -/
theorem exists_names_of_mem_modulesBelow (htree : disk.IsTree) {fuel : Nat} :
    ∀ {q p : Path} {around : List Location}, q ∈ disk.modulesBelow m p around fuel →
      ∃ names : List String, q.components = p.components ++ names.map .name := by
  induction fuel with
  | zero => intro _ _ _ h; exact absurd h List.not_mem_nil
  | succ fuel ih =>
    intro q p around h
    rw [modulesBelow] at h
    obtain ⟨⟨name, entry⟩, hchild, hq⟩ := List.mem_flatMap.1 h
    have hproper := htree.isName ((htree.mem_children_iff.1 hchild).trans_ne (Option.some_ne_none _))
    obtain ⟨names, hnames⟩ := exists_names_of_mem_child ih hproper hq
    exact ⟨name :: names, hnames⟩

/-- **A walk finds nothing twice.** -/
theorem pairwise_modulesBelow (htree : disk.IsTree) {fuel : Nat} :
    ∀ {p : Path} {around : List Location},
      (disk.modulesBelow m p around fuel).Pairwise fun a b => a.components ≠ b.components := by
  induction fuel with
  | zero => intro _ _; exact List.Pairwise.nil
  | succ fuel ih =>
    intro p around
    have hproper : ∀ child ∈ disk.children (around.headD []), IsName child.1 := fun child hchild =>
      htree.isName ((htree.mem_children_iff.1 hchild).trans_ne (Option.some_ne_none _))
    rw [modulesBelow]
    refine List.pairwise_flatMap.2 ⟨?_, ?_⟩
    · rintro ⟨name, entry⟩ -
      dsimp only
      split
      · exact List.Pairwise.nil
      split
      · exact List.Pairwise.nil
      · split
        · exact List.Pairwise.nil
        · exact ih
      · split
        · exact List.pairwise_singleton _ _
        · exact List.Pairwise.nil
    · refine ((htree.pairwise_children _).imp_of_mem fun {a b} ha hb hne x hx y hy hsame => ?_)
      obtain ⟨names, hnames⟩ :=
        exists_names_of_mem_child (exists_names_of_mem_modulesBelow htree) (hproper a ha) hx
      obtain ⟨names', hnames'⟩ :=
        exists_names_of_mem_child (exists_names_of_mem_modulesBelow htree) (hproper b hb) hy
      rw [hnames, hnames'] at hsame
      obtain ⟨hname, -⟩ := List.cons.inj (List.append_cancel_left hsame)
      exact hne (Component.name.inj hname)

/-! ## Targets -/

/-- What a directory stands for is sorted, and nothing else is done to it. -/
theorem locate_eq (hroot : disk.stat target = .ok (root, .directory)) :
    disk.locate m target =
      if targetName target = dependencyDirectory then .error (.noModules target)
      else
        let found := Path.sortBy id (disk.modulesBelow m target [root]
          ((disk.entries.length + 1) * (disk.entries.length + 1)))
        if found.isEmpty then .error (.noModules target) else .ok found := by
  rw [locate, hroot]
  dsimp only
  split <;> rfl

/-- **The modules of a directory are those that the walk finds**, each of them once. -/
theorem mem_locate_iff (htree : disk.IsTree) (hroot : disk.stat target = .ok (root, .directory))
    {paths : List Path} (h : disk.locate m target = .ok paths) :
    (∀ q, q ∈ paths ↔ disk.Finds m target root q) ∧
      paths.Pairwise fun a b => a.components ≠ b.components := by
  rw [locate_eq hroot] at h
  split at h
  · cases h
  · dsimp only at h
    split at h
    · cases h
    · cases h
      refine ⟨fun q => ?_, ?_⟩
      · rw [← mem_modulesBelow_iff htree hroot]
        exact List.mem_mergeSort
      · exact (pairwise_modulesBelow htree).perm (List.mergeSort_perm _ _).symm Ne.symm

/-- Disks on which walks find the same modules have the same modules. -/
theorem locate_congr {disk' : Disk} (htree : disk.IsTree) (htree' : disk'.IsTree)
    (hroot : disk.stat target = .ok (root, .directory))
    (hroot' : disk'.stat target = .ok (root, .directory))
    (h : ∀ q, disk'.Finds m target root q ↔ disk.Finds m target root q) :
    disk'.locate m target = disk.locate m target := by
  have hnodup : ∀ {paths : List Path}, (paths.Pairwise fun a b => a.components ≠ b.components) →
      paths.Nodup :=
    List.Pairwise.imp fun {_ _} hne heq => hne (congrArg Path.components heq)
  have hperm : (disk'.modulesBelow m target [root]
        ((disk'.entries.length + 1) * (disk'.entries.length + 1))).Perm
      (disk.modulesBelow m target [root] ((disk.entries.length + 1) * (disk.entries.length + 1))) := by
    refine (List.perm_ext_iff_of_nodup (hnodup (pairwise_modulesBelow htree'))
      (hnodup (pairwise_modulesBelow htree))).2 fun q => ?_
    rw [mem_modulesBelow_iff htree' hroot', mem_modulesBelow_iff htree hroot, h]
  have hapart : Path.Apart id (disk'.modulesBelow m target [root]
      ((disk'.entries.length + 1) * (disk'.entries.length + 1))) :=
    (pairwise_modulesBelow htree').imp fun hne heq => hne (Path.components_eq_of_compare heq)
  rw [locate_eq hroot, locate_eq hroot', Path.sortBy_eq_of_perm hperm hapart]

end Disk

end Abridge
