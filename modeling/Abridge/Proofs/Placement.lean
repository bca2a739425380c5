import Abridge.Proofs.Artifacts
import Abridge.Proofs.Extension

/-!
# Where artifacts go

The path of an artifact names a location, and the artifact is put there in place of whatever has that name.
The paths of the artifacts of one run are different, step by step (`Disk.pairwise_artifacts`), and none of
them names a module that the run found (`Disk.not_names_of_mem_artifactsOf`).  Locations are another matter.
A link may lead from a module to the place of an artifact, and two paths may lead to one directory.
Without links neither can be (`Disk.clear_of_linkless`).

## What is here

* `Disk.places`: the locations that artifacts go to.
* `Disk.artifactsOf`: what a run writes, in parts.
* `Disk.pairwise_artifacts`: no artifact has the path of another.
* `Disk.kind_of_mem_places`: what is called an artifact is no module and no copy.
* `Disk.FoundWithout`, `Disk.Clear`: modules and artifacts are not in the way of artifacts.
-/

set_option autoImplicit false

namespace Abridge

namespace Disk

/-! ## Places -/

/-- The location that the path of an artifact names, if it names one. -/
def place? (disk : Disk) (a : Artifact) : Option Location :=
  match disk.aim a.path with
  | .ok (.name parent name false) => some (parent ++ [name])
  | _ => none

theorem place?_eq_some {disk : Disk} {a : Artifact} {location : Location} :
    disk.place? a = some location ↔ disk.Names a.path location := by
  rw [place?]
  constructor
  · intro h
    split at h
    · rename_i parent name haim
      cases h
      exact ⟨parent, name, haim, rfl⟩
    · cases h
  · rintro ⟨parent, name, haim, rfl⟩
    rw [haim]

/-- The locations that the paths of artifacts name. -/
def places (disk : Disk) (staged : List Artifact) : List Location := staged.filterMap disk.place?

theorem mem_places {disk : Disk} {staged : List Artifact} {location : Location} :
    location ∈ disk.places staged ↔ ∃ a ∈ staged, disk.Names a.path location := by
  simp only [places, List.mem_filterMap, place?_eq_some]

theorem root_not_mem_places (disk : Disk) (staged : List Artifact) : [] ∉ disk.places staged := by
  intro h
  obtain ⟨a, -, hnames⟩ := mem_places.1 h
  exact hnames.ne_nil rfl

/-- Artifacts that go to one place have one text. -/
def Agree (disk : Disk) (staged : List Artifact) : Prop :=
  ∀ a ∈ staged, ∀ b ∈ staged, ∀ location, disk.Names a.path location → disk.Names b.path location →
    a.text = b.text

section

variable {disk : Disk} {a b : Artifact} {place place' : Location}

theorem mem_places_pair {location : Location} (h : location ∈ disk.places [a, b])
    (ha : disk.Names a.path place) (hb : disk.Names b.path place') : location = place ∨ location = place' := by
  obtain ⟨c, hc, hnames⟩ := mem_places.1 h
  rcases List.mem_pair.1 hc with rfl | rfl
  · exact .inl (hnames.unique ha)
  · exact .inr (hnames.unique hb)

theorem agree_pair (ha : disk.Names a.path place) (hb : disk.Names b.path place') (hne : place ≠ place') :
    disk.Agree [a, b] := by
  intro c hc d hd location hnames hnames'
  rcases List.mem_pair.1 hc with rfl | rfl <;> rcases List.mem_pair.1 hd with rfl | rfl
  · rfl
  · exact absurd ((ha.unique hnames).trans (hnames'.unique hb)) hne
  · exact absurd ((ha.unique hnames').trans (hnames.unique hb)) hne
  · rfl

end

/-- Paths of artifacts name the same on disks with the same ways. -/
theorem SameWays.names_iff {disk disk' : Disk} (h : disk.SameWays disk') {p : Path}
    {location : Location} : disk'.Names p location ↔ disk.Names p location :=
  ⟨fun hn => hn.mono h.2, fun hn => hn.mono h.1⟩

theorem SameWays.place?_eq {disk disk' : Disk} (h : disk.SameWays disk') : disk'.place? = disk.place? := by
  funext a
  refine Option.ext fun location => ?_
  rw [place?_eq_some, place?_eq_some, h.names_iff]

theorem SameWays.places_eq {disk disk' : Disk} (h : disk.SameWays disk') (staged : List Artifact) :
    disk'.places staged = disk.places staged := by
  rw [places, places, h.place?_eq]

/-! ## Where modules are -/

/-- A path that means a file does not end in a slash, nor does a link on the way to it. -/
theorem follow_of_stat_file {disk : Disk} {p : Path} {r : Location × Entry} (h : disk.stat p = .ok r)
    (hfile : r.2 ≠ .directory) : disk.follow p = .ok (r.1, false) := by
  obtain ⟨slash, hfollow⟩ := follow_of_stat h
  have hentry := stat_eq_ok h
  cases slash with
  | false => exact hfollow
  | true =>
    exfalso
    rw [stat, hfollow] at h
    dsimp only at h
    split at h
    · cases h
    · exact hfile (congrArg Prod.snd (Except.ok.inj h)).symm
    · cases h

/-- A path that means a file is a name in a directory. -/
theorem IsTree.exists_at_of_stat {disk : Disk} (h : disk.IsTree) {p : Path} {r : Location × Entry}
    (hstat : disk.stat p = .ok r) (hfile : r.2 ≠ .directory) : ∃ location name, disk.At p location name := by
  obtain ⟨⟨a, links⟩, haim⟩ := exists_aimFrom_of_stat hstat
  have hfollow := follow_of_stat_file hstat hfile
  rw [follow] at hfollow
  cases a with
  | directory location =>
    rw [Disk.followFrom, haim] at hfollow
    obtain ⟨hlocation, -⟩ := Prod.mk.inj (Except.ok.inj hfollow)
    have hdirectory : disk.at? location = some .directory := h.aimFrom h.home haim
    rw [hlocation, stat_eq_ok hstat] at hdirectory
    exact absurd (Option.some_inj.1 hdirectory) hfile
  | name parent name slash =>
    have hslash : slash = false := by
      by_cases hlink : ∃ target, disk.at? (parent ++ [name]) = some (.link target)
      · obtain ⟨target, hlink⟩ := hlink
        rw [followFrom_link haim hlink] at hfollow
        split at hfollow
        · cases hfollow
        · cases hinner : disk.followFrom (links - 1) parent target linkLimit with
          | error e => rw [hinner] at hfollow; cases hfollow
          | ok inner =>
            rw [hinner] at hfollow
            exact (Bool.or_eq_false_iff.1 (Prod.mk.inj (Except.ok.inj hfollow)).2).1
      · rw [followFrom_name haim fun target hentry => hlink ⟨target, hentry⟩] at hfollow
        exact (Prod.mk.inj (Except.ok.inj hfollow)).2
    subst hslash
    have hnames : disk.Names p (parent ++ [name]) := ⟨parent, name, by rw [Disk.aim, haim]; rfl, rfl⟩
    obtain ⟨location, name, hat, -⟩ := exists_at_of_names hnames
    exact ⟨location, name, hat⟩

/-- What a run is about is found where its path leads; in a directory it is a module. -/
theorem IsTree.exists_at_of_mem_locate {disk : Disk} (htree : disk.IsTree) {m : ArtifactMarkers}
    {target p : Path} {paths : List Path} (h : disk.locate m target = .ok paths) (hp : p ∈ paths) :
    ∃ r location name, disk.stat p = .ok r ∧ disk.At p location name ∧
      (disk.isDirectory target = true → m.isModule name = true) := by
  cases hstat : disk.stat target with
  | error e => rw [locate, hstat] at h; cases h
  | ok r =>
    obtain ⟨root, entry⟩ := r
    by_cases hentry : entry = .directory
    · subst hentry
      obtain ⟨names, location, name, hat, hmodule, -⟩ :=
        (((mem_locate_iff htree hstat h).1 p).1 hp).exists_at htree hstat
      obtain ⟨r, hr⟩ := stat_of_mem_locate h hp
      exact ⟨r, location, name, hr, hat, fun _ => hmodule⟩
    · have hpaths : paths = [target] := by
        rw [locate, hstat] at h
        cases entry with
        | directory => exact absurd rfl hentry
        | _ => exact (Except.ok.inj h).symm
      rw [hpaths, List.mem_singleton] at hp
      subst hp
      obtain ⟨location, name, hat⟩ := htree.exists_at_of_stat hstat hentry
      refine ⟨_, location, name, hstat, hat, fun hdirectory => ?_⟩
      rw [isDirectory, hstat] at hdirectory
      cases entry with
      | directory => exact absurd rfl hentry
      | _ => cases hdirectory

end Disk

/-! ## Artifacts of modules -/

namespace Output

/-- What artifacts of a module are called, with the manifest of a single module or without. -/
def artifactNames (single : Bool) (name : String) : List String :=
  [optimizedName name, mapName name] ++ if single then [manifestName name] else []

theorem isModule_of_mem_kinds {name n : String} (h : ({} : ArtifactMarkers).isModule name = true)
    (hname : IsName name) (hn : n ∈ [optimizedName name, mapName name, "optimization.manifest.json"]) :
    ({} : ArtifactMarkers).isModule n = false := by
  simp only [List.mem_cons, List.not_mem_nil, or_false] at hn
  rcases hn with rfl | rfl | rfl
  · exact isModule_optimizedName h
  · exact isModule_mapName hname
  · exact isModule_runManifest

theorem isName_runManifest : IsName "optimization.manifest.json" :=
  ⟨by decide, by decide, by decide, by decide, by decide⟩

end Output

open Output (usual artifactNames)

namespace Disk

/-- What a run writes for one of its modules. -/
def artifactsFor (o : Output) (manifest : Manifest) (single : Bool) (m : ModuleOutput) : List Artifact :=
  [⟨o.optimizedPath m.path, m.after⟩] ++
    (m.positionMap.map fun map => (⟨o.positionMapPath m.path, map.text⟩ : Artifact)).toList ++
    if single then [⟨o.manifestPath m.path, manifest.text⟩] else []

theorem artifacts_eq (o : Output) (modules : List ModuleOutput) (manifest : Manifest)
    (runManifest : Option Path) :
    artifacts o modules manifest runManifest =
      modules.flatMap (artifactsFor o manifest runManifest.isNone) ++
        (runManifest.map fun p => (⟨p, manifest.text⟩ : Artifact)).toList := rfl

theorem path_of_mem_artifactsFor {o : Output} {manifest : Manifest} {single : Bool} {m : ModuleOutput}
    {a : Artifact} (h : a ∈ artifactsFor o manifest single m) :
    a.path = o.optimizedPath m.path ∨ a.path = o.positionMapPath m.path ∨
      (single = true ∧ a.path = o.manifestPath m.path) := by
  rw [artifactsFor, List.mem_append, List.mem_append, List.mem_singleton] at h
  rcases h with (rfl | h) | h
  · exact .inl rfl
  · obtain ⟨map, -, rfl⟩ := Option.map_eq_some_iff.1 (Option.mem_toList.1 h)
    exact .inr (.inl rfl)
  · split at h
    · rename_i hsingle
      rw [List.mem_singleton.1 h]
      exact .inr (.inr ⟨hsingle, rfl⟩)
    · exact absurd h List.not_mem_nil

/-- An artifact of a module goes where the module is, and is called after it. -/
theorem exists_at_of_mem_artifactsFor {disk : Disk} {emitMap : Bool} {manifest : Manifest} {single : Bool}
    {m : ModuleOutput} {a : Artifact} (h : a ∈ artifactsFor (usual emitMap) manifest single m)
    {location : Location} {name : String} (hat : disk.At m.path location name) :
    ∃ n ∈ artifactNames single name, disk.At a.path location n := by
  obtain ⟨hoptimized, hmap, hmanifest⟩ := Output.artifacts_at hat emitMap
  rcases path_of_mem_artifactsFor h with hpath | hpath | ⟨rfl, hpath⟩
  · exact ⟨_, by simp [artifactNames], hpath ▸ hoptimized⟩
  · exact ⟨_, by simp [artifactNames], hpath ▸ hmap⟩
  · exact ⟨_, by simp [artifactNames], hpath ▸ hmanifest⟩

/-- The same, step by step. -/
theorem exists_components_of_mem_artifactsFor {emitMap : Bool} {manifest : Manifest} {single : Bool}
    {m : ModuleOutput} {a : Artifact} (h : a ∈ artifactsFor (usual emitMap) manifest single m)
    {directory : Path} {name : String} (hin : m.path.IsIn directory name) :
    ∃ n ∈ artifactNames single name, a.path.components = directory.components ++ [.name n] := by
  obtain ⟨hoptimized, hmap, hmanifest⟩ := Output.components_artifacts hin emitMap
  rcases path_of_mem_artifactsFor h with hpath | hpath | ⟨rfl, hpath⟩
  · exact ⟨_, by simp [artifactNames], hpath ▸ hoptimized⟩
  · exact ⟨_, by simp [artifactNames], hpath ▸ hmap⟩
  · exact ⟨_, by simp [artifactNames], hpath ▸ hmanifest⟩

/-- An artifact belongs to a module, or is the manifest of a directory. -/
theorem mem_artifacts {o : Output} {modules : List ModuleOutput} {manifest : Manifest}
    {runManifest : Option Path} {a : Artifact} (h : a ∈ artifacts o modules manifest runManifest) :
    (∃ m ∈ modules, a ∈ artifactsFor o manifest runManifest.isNone m) ∨ runManifest = some a.path := by
  rw [artifacts_eq, List.mem_append] at h
  rcases h with h | h
  · exact .inl (List.mem_flatMap.1 h)
  · obtain ⟨p, hp, rfl⟩ := Option.map_eq_some_iff.1 (Option.mem_toList.1 h)
    exact .inr hp

theorem At.location_eq {disk : Disk} {p : Path} {location place : Location} {name : String}
    (h : disk.At p location name) (hnames : disk.Names p place) : place = location ++ [name] := by
  obtain ⟨parent, other, haim, rfl⟩ := hnames
  rw [h.aim_eq] at haim
  split at haim
  · cases haim
  · cases haim
    rfl

/-- What a file stands for is the file. -/
theorem locate_file {disk : Disk} {m : ArtifactMarkers} {target : Path} {paths : List Path}
    (h : disk.locate m target = .ok paths) (hfile : disk.isDirectory target = false) : paths = [target] := by
  rw [locate] at h
  rw [isDirectory] at hfile
  cases hstat : disk.stat target with
  | error e => rw [hstat] at h; cases h
  | ok r =>
    obtain ⟨root, entry⟩ := r
    rw [hstat] at h hfile
    cases entry with
    | directory => cases hfile
    | _ => exact (Except.ok.inj h).symm

theorem isDirectory_iff {disk : Disk} {p : Path} :
    disk.isDirectory p = true ↔ ∃ root, disk.stat p = .ok (root, .directory) := by
  rw [isDirectory]
  constructor
  · intro h
    split at h
    · exact ⟨_, by assumption⟩
    · cases h
  · rintro ⟨root, hstat⟩
    rw [hstat]

/-- A directory that is located has something in it. -/
theorem locate_ne_nil {disk : Disk} {m : ArtifactMarkers} {target : Path} {paths : List Path}
    (h : disk.locate m target = .ok paths) : paths ≠ [] := by
  rintro rfl
  cases hdirectory : disk.isDirectory target with
  | true =>
    obtain ⟨root, hroot⟩ := isDirectory_iff.1 hdirectory
    rw [locate_eq hroot] at h
    split at h
    · cases h
    · dsimp only at h
      split at h
      · cases h
      · rename_i hempty
        rw [Except.ok.inj h] at hempty
        exact hempty rfl
  | false => cases locate_file h hdirectory

/-- What an accepted run over a target writes. -/
def artifactsOf (disk : Disk) (o : Output) (target : Path) (modules : List ModuleOutput)
    (manifest : Manifest) : List Artifact :=
  artifacts o modules manifest
    (if disk.isDirectory target then some (target.join o.runManifestName) else none)


/-! ## No artifact in place of another -/

/-- What artifacts of a module of a directory are called. -/
theorem ne_of_artifactNames {name name' n n' : String} (h : ({} : ArtifactMarkers).isModule name = true)
    (hname : IsName name) (h' : ({} : ArtifactMarkers).isModule name' = true) (hname' : IsName name')
    (hne : name ≠ name') (hn : n ∈ artifactNames false name) (hn' : n' ∈ artifactNames false name') :
    n ≠ n' := by
  have hkinds := Output.nodup_kinds h hname'
  have hkinds' := Output.nodup_kinds h' hname
  simp only [List.nodup_cons, List.mem_cons, not_or] at hkinds hkinds'
  simp only [artifactNames, Bool.false_eq_true, if_false, List.append_nil, List.mem_cons, List.not_mem_nil,
    or_false] at hn hn'
  rintro rfl
  rcases hn with rfl | rfl <;> rcases hn' with heq | heq
  · exact hne (Output.optimizedName_injective h h' heq)
  · exact hkinds.1.1 heq
  · exact hkinds'.1.1 heq.symm
  · exact hne (Output.mapName_injective h h' heq)

theorem append_name_inj {d d' : List Component} {n n' : String}
    (h : d ++ [Component.name n] = d' ++ [Component.name n']) : d = d' ∧ n = n' := by
  obtain ⟨hd, hn⟩ := List.append_inj' h rfl
  exact ⟨hd, Component.name.inj (List.singleton_inj.1 hn)⟩

/-- The paths of the artifacts of one module are different. -/
theorem pairwise_artifactsFor {m : ModuleOutput} {directory : Path} {name : String}
    (h : m.path.IsIn directory name) (emitMap : Bool) (manifest : Manifest) (single : Bool) :
    (artifactsFor (usual emitMap) manifest single m).Pairwise
      fun a b => a.path.components ≠ b.path.components := by
  obtain ⟨hoptimized, hmap, hmanifest⟩ := Output.components_artifacts h emitMap
  have hnames := Output.nodup_names name
  simp only [List.nodup_cons, List.mem_cons, not_or] at hnames
  obtain ⟨-, ⟨hom, hof, -⟩, ⟨hmf, -⟩, -⟩ := hnames
  unfold artifactsFor
  cases m.positionMap <;> cases single <;> simp [hoptimized, hmap, hmanifest, hom, hof, hmf]

/-- **The paths of the artifacts of a run are different**, step by step. -/
theorem pairwise_artifacts {modules : List ModuleOutput}
    (hpaths : modules.Pairwise fun m m' => m.path.components ≠ m'.path.components)
    {runManifest : Option Path}
    (hin : ∀ m ∈ modules, ∃ directory name, m.path.IsIn directory name ∧
      (runManifest ≠ none → ({} : ArtifactMarkers).isModule name = true))
    (hsingle : runManifest = none → modules.length ≤ 1)
    (hrun : ∀ p, runManifest = some p → ∃ directory, p.IsIn directory "optimization.manifest.json")
    (emitMap : Bool) (manifest : Manifest) :
    (artifacts (usual emitMap) modules manifest runManifest).Pairwise
      fun a b => a.path.components ≠ b.path.components := by
  have hfalse : runManifest ≠ none → runManifest.isNone = false := fun h => by
    rwa [Option.isNone_eq_false_iff, Option.isSome_iff_ne_none]
  rw [artifacts_eq]
  refine List.pairwise_append.2 ⟨List.pairwise_flatMap.2 ⟨fun m hm => ?_, ?_⟩, ?_, ?_⟩
  · obtain ⟨directory, name, hname, -⟩ := hin m hm
    exact pairwise_artifactsFor hname emitMap manifest _
  · by_cases hnone : runManifest = none
    · match modules, hsingle hnone with
      | [], _ => exact List.Pairwise.nil
      | [_], _ => exact List.pairwise_singleton _ _
    · refine hpaths.imp_of_mem fun {m m'} hm hm' hne a ha b hb heq => ?_
      obtain ⟨directory, name, hname, hmodule⟩ := hin m hm
      obtain ⟨directory', name', hname', hmodule'⟩ := hin m' hm'
      rw [hfalse hnone] at ha hb
      obtain ⟨n, hn, hcomponents⟩ := exists_components_of_mem_artifactsFor ha hname
      obtain ⟨n', hn', hcomponents'⟩ := exists_components_of_mem_artifactsFor hb hname'
      obtain ⟨hd, hsame⟩ := append_name_inj (hcomponents.symm.trans (heq.trans hcomponents'))
      refine ne_of_artifactNames (hmodule hnone) hname.isName (hmodule' hnone) hname'.isName ?_ hn hn' hsame
      rintro rfl
      exact hne (by rw [hname.components_eq, hname'.components_eq, hd])
  · cases runManifest with
    | none => exact List.Pairwise.nil
    | some p => exact List.pairwise_singleton _ _
  · intro a ha b hb heq
    obtain ⟨m, hm, ha⟩ := List.mem_flatMap.1 ha
    obtain ⟨p, hp, rfl⟩ := Option.map_eq_some_iff.1 (Option.mem_toList.1 hb)
    have hnone : runManifest ≠ none := by rw [hp]; exact Option.some_ne_none p
    obtain ⟨directory, name, hname, hmodule⟩ := hin m hm
    obtain ⟨directory', hp'⟩ := hrun p hp
    rw [hfalse hnone] at ha
    obtain ⟨n, hn, hcomponents⟩ := exists_components_of_mem_artifactsFor ha hname
    obtain ⟨-, rfl⟩ := append_name_inj (hcomponents.symm.trans (heq.trans hp'.components_eq))
    have hkinds := Output.nodup_kinds (hmodule hnone) hname.isName
    simp only [artifactNames, Bool.false_eq_true, if_false, List.append_nil, List.mem_cons,
      List.not_mem_nil, or_false] at hn
    simp only [List.nodup_cons, List.mem_cons, not_or] at hkinds
    rcases hn with hn | hn
    · exact hkinds.1.2.1 hn.symm
    · exact hkinds.2.1.1 hn.symm

/-- What the places of a directory's artifacts are called. -/
theorem kind_of_mem_places {disk : Disk} (htree : disk.IsTree) {target : Path} {root : Location}
    (hroot : disk.stat target = .ok (root, .directory)) {paths : List Path}
    (hlocate : disk.locate {} target = .ok paths) {modules : List ModuleOutput}
    (hmodules : ∀ m ∈ modules, m.path ∈ paths) {emitMap : Bool} {manifest : Manifest} {place : Location}
    (h : place ∈ disk.places (disk.artifactsOf (usual emitMap) target modules manifest)) :
    ∃ location name n, ({} : ArtifactMarkers).isModule name = true ∧ IsName name ∧
      n ∈ [Output.optimizedName name, Output.mapName name, "optimization.manifest.json"] ∧
      place = location ++ [n] := by
  have hdirectory : disk.isDirectory target = true := isDirectory_iff.2 ⟨root, hroot⟩
  obtain ⟨a, ha, hnames⟩ := mem_places.1 h
  rw [artifactsOf, if_pos hdirectory] at ha
  rcases mem_artifacts ha with ⟨m, hm, ha⟩ | hrun
  · obtain ⟨-, location, name, -, hat, hmodule⟩ := htree.exists_at_of_mem_locate hlocate (hmodules m hm)
    obtain ⟨n, hn, hnat⟩ := exists_at_of_mem_artifactsFor ha hat
    have hn : n = Output.optimizedName name ∨ n = Output.mapName name := by
      simpa [artifactNames] using hn
    refine ⟨location, name, n, hmodule hdirectory, hat.isName, ?_, hnat.location_eq hnames⟩
    rcases hn with rfl | rfl <;> simp
  · obtain ⟨q, hq⟩ := List.exists_mem_of_ne_nil _ (locate_ne_nil hlocate)
    obtain ⟨-, _, name, -, hat, hmodule⟩ := htree.exists_at_of_mem_locate hlocate hq
    have hrunAt : disk.At a.path root "optimization.manifest.json" := by
      rw [← Option.some_inj.1 hrun]
      exact (leadsTo_of_stat hroot).join Output.isName_runManifest
    exact ⟨root, name, _, hmodule hdirectory, hat.isName, by simp, hrunAt.location_eq hnames⟩

/-- Modules can be found without anything that artifacts take the place of. -/
def FoundWithout (disk : Disk) (paths : List Path) (staged : List Artifact) : Prop :=
  ∀ p ∈ paths, ∃ r, (disk.without (disk.places staged)).stat p = .ok r

/-- The modules of a run can be found without its artifacts, and artifacts that go to one place have one
text. -/
structure Clear (disk : Disk) (paths : List Path) (staged : List Artifact) : Prop where
  found : disk.FoundWithout paths staged
  agree : disk.Agree staged

/-! ## Disks without links -/

/-- On a disk without links an artifact is as far below the target as its path says. -/
theorem exists_names_of_linkless {disk : Disk} (htree : disk.IsTree)
    (hlinks : ∀ location target, disk.at? location ≠ some (.link target)) {target : Path}
    {paths : List Path} (hlocate : disk.locate {} target = .ok paths) {modules : List ModuleOutput}
    (hmodules : ∀ m ∈ modules, m.path ∈ paths) (emitMap : Bool) (manifest : Manifest) :
    ∃ (base : List Component) (root : Location),
      ∀ a ∈ disk.artifactsOf (usual emitMap) target modules manifest, ∀ place, disk.Names a.path place →
        ∃ names : List String, a.path.components = base ++ names.map .name ∧ place = root ++ names := by
  -- An artifact of a module that lies so far below the target lies as far below it.
  have hbeside : ∀ {base : List Component} {root location : Location} {names : List String} {name : String}
      {single : Bool} {m : ModuleOutput} {a : Artifact} {place : Location},
      disk.At m.path location name → m.path.components = base ++ (names ++ [name]).map .name →
      location = root ++ names → a ∈ artifactsFor (usual emitMap) manifest single m →
      disk.Names a.path place →
      ∃ names : List String, a.path.components = base ++ names.map .name ∧ place = root ++ names := by
    intro base root location names name single m a place hat hcomponents hlocation ha hnames
    obtain ⟨n, -, hn⟩ := exists_at_of_mem_artifactsFor ha hat
    obtain ⟨directory, hin, -⟩ := hat
    obtain ⟨n', -, hbelow⟩ := exists_components_of_mem_artifactsFor ha hin
    have hplace := hn.location_eq hnames
    obtain ⟨directory', hin', -⟩ := hn
    obtain ⟨-, rfl⟩ := append_name_inj (hin'.components_eq.symm.trans hbelow)
    rw [hin.components_eq, List.map_append, ← List.append_assoc] at hcomponents
    obtain ⟨hdirectory, -⟩ := append_name_inj hcomponents
    refine ⟨names ++ [n], ?_, ?_⟩
    · rw [hbelow, hdirectory, List.map_append, ← List.append_assoc]
      rfl
    · rw [hplace, hlocation, List.append_assoc]
  cases hdirectory : disk.isDirectory target with
  | true =>
    obtain ⟨root, hroot⟩ := isDirectory_iff.1 hdirectory
    refine ⟨target.components, root, fun a ha place hnames => ?_⟩
    rw [artifactsOf, if_pos hdirectory] at ha
    rcases mem_artifacts ha with ⟨m, hm, ha⟩ | hrun
    · have hfinds := ((mem_locate_iff htree hroot hlocate).1 m.path).1 (hmodules m hm)
      obtain ⟨names, location, name, hat, -, hcomponents, hlocation⟩ := hfinds.exists_at htree hroot
      exact hbeside hat hcomponents (hlocation hlinks) ha hnames
    · have hrunAt : disk.At a.path root "optimization.manifest.json" := by
        rw [← Option.some_inj.1 hrun]
        exact (leadsTo_of_stat hroot).join Output.isName_runManifest
      refine ⟨["optimization.manifest.json"], ?_, hrunAt.location_eq hnames⟩
      rw [← Option.some_inj.1 hrun]
      exact components_join Output.isName_runManifest
  | false =>
    obtain rfl := locate_file hlocate hdirectory
    obtain ⟨-, location, name, -, hat, -⟩ :=
      htree.exists_at_of_mem_locate hlocate (List.mem_singleton.2 rfl)
    obtain ⟨directory, hin, hleads⟩ := hat
    refine ⟨directory.components, location, fun a ha place hnames => ?_⟩
    rw [artifactsOf, if_neg (by rw [hdirectory]; exact Bool.false_ne_true)] at ha
    rcases mem_artifacts ha with ⟨m, hm, ha⟩ | hrun
    · have hpath := List.mem_singleton.1 (hmodules m hm)
      have hat : disk.At m.path location name := hpath ▸ ⟨directory, hin, hleads⟩
      have hcomponents : m.path.components = directory.components ++ ([] ++ [name]).map .name :=
        hpath ▸ hin.components_eq
      exact hbeside hat hcomponents (List.append_nil location).symm ha hnames
    · cases hrun

/-- **The path of no artifact names a module** that is found. -/
theorem not_names_of_mem_artifactsOf {disk : Disk} (htree : disk.IsTree) {target p : Path}
    {paths : List Path} (hlocate : disk.locate {} target = .ok paths) (hp : p ∈ paths)
    {location : Location} {name : String} (hat : disk.At p location name) {modules : List ModuleOutput}
    (hmodules : ∀ m ∈ modules, m.path ∈ paths) {emitMap : Bool} {manifest : Manifest} {a : Artifact}
    (ha : a ∈ disk.artifactsOf (usual emitMap) target modules manifest) :
    ¬ disk.Names a.path (location ++ [name]) := by
  intro hnames
  have hlast : ∀ {location' : Location} {n : String}, disk.At a.path location' n → name = n := by
    intro location' n hn
    exact List.singleton_inj.1 (List.append_inj' (hn.location_eq hnames) rfl).2
  obtain ⟨-, location', name', -, hat', hmodule⟩ := htree.exists_at_of_mem_locate hlocate hp
  obtain rfl : name' = name := Option.some_inj.1 (hat'.fileName?_eq.symm.trans hat.fileName?_eq)
  cases hdirectory : disk.isDirectory target with
  | true =>
    obtain ⟨root, hroot⟩ := isDirectory_iff.1 hdirectory
    obtain ⟨location', other, n, hother, hname, hn, hplace⟩ :=
      kind_of_mem_places htree hroot hlocate hmodules (mem_places.2 ⟨a, ha, hnames⟩)
    obtain rfl := List.singleton_inj.1 (List.append_inj' hplace rfl).2
    have hmodule := hmodule hdirectory
    rw [Output.isModule_of_mem_kinds hother hname hn] at hmodule
    cases hmodule
  | false =>
    rw [artifactsOf, if_neg (by rw [hdirectory]; exact Bool.false_ne_true)] at ha
    obtain rfl := locate_file hlocate hdirectory
    rcases mem_artifacts ha with ⟨m, hm, ha⟩ | hrun
    · have hsame : m.path = p := (List.mem_singleton.1 (hmodules m hm)).trans (List.mem_singleton.1 hp).symm
      obtain ⟨n, hn, hnat⟩ := exists_at_of_mem_artifactsFor ha (hsame ▸ hat)
      have hnodup := Output.nodup_names name'
      rw [List.nodup_cons] at hnodup
      refine hnodup.1 ?_
      obtain rfl := hlast hnat
      simpa [artifactNames] using hn
    · cases hrun

/-- Without links no module is in the place of an artifact. -/
theorem foundWithout_of_linkless {disk : Disk} (htree : disk.IsTree)
    (hlinks : ∀ location target, disk.at? location ≠ some (.link target)) {target : Path}
    {paths : List Path} (hlocate : disk.locate {} target = .ok paths) {modules : List ModuleOutput}
    (hmodules : ∀ m ∈ modules, m.path ∈ paths) {emitMap : Bool} {manifest : Manifest}
    (hplain : ∀ place ∈ disk.places (disk.artifactsOf (usual emitMap) target modules manifest),
      disk.at? place ≠ some .directory) :
    disk.FoundWithout paths (disk.artifactsOf (usual emitMap) target modules manifest) := by
  intro p hp
  obtain ⟨r, location, name, hstat, hat, hmodule⟩ := htree.exists_at_of_mem_locate hlocate hp
  have hroot := disk.root_not_mem_places (disk.artifactsOf (usual emitMap) target modules manifest)
  have hsame : disk.SameWays
      (disk.without (disk.places (disk.artifactsOf (usual emitMap) target modules manifest))) := by
    refine ⟨⟨rfl, fun {l} hl => ?_, fun {l link} hl => absurd hl (hlinks l link)⟩,
      (without_extends hroot).leads⟩
    rw [at?_without disk hroot, if_neg fun hmem => hplain l hmem hl, hl]
  refine ⟨r, hsame.stat hstat ?_⟩
  rw [at?_without disk hroot, if_neg]
  rw [hat.location_of_stat hstat (hlinks _)]
  intro hmem
  obtain ⟨a, ha, hnames⟩ := mem_places.1 hmem
  exact not_names_of_mem_artifactsOf htree hlocate hp hat hmodules ha hnames

/-- **Without links nothing stands in the way**: no module is in the place of an artifact, and no two
artifacts go to one place. -/
theorem clear_of_linkless {disk : Disk} (htree : disk.IsTree)
    (hlinks : ∀ location target, disk.at? location ≠ some (.link target)) {target : Path}
    {paths : List Path} (hlocate : disk.locate {} target = .ok paths) {modules : List ModuleOutput}
    (hmodules : ∀ m ∈ modules, m.path ∈ paths) {emitMap : Bool} {manifest : Manifest}
    (hdistinct : (disk.artifactsOf (usual emitMap) target modules manifest).Pairwise
      fun a b => a.path.components ≠ b.path.components)
    (hplain : ∀ place ∈ disk.places (disk.artifactsOf (usual emitMap) target modules manifest),
      disk.at? place ≠ some .directory) :
    disk.Clear paths (disk.artifactsOf (usual emitMap) target modules manifest) := by
  refine ⟨foundWithout_of_linkless htree hlinks hlocate hmodules hplain, ?_⟩
  intro a ha b hb place hnames hnames'
  obtain ⟨base, root, hbelow⟩ := exists_names_of_linkless htree hlinks hlocate hmodules emitMap manifest
  obtain ⟨names, hcomponents, rfl⟩ := hbelow a ha place hnames
  obtain ⟨names', hcomponents', hplace⟩ := hbelow b hb _ hnames'
  obtain rfl := List.append_cancel_left hplace
  -- Two artifacts with one path, step by step, are one.
  have hnodup : ((disk.artifactsOf (usual emitMap) target modules manifest).map
      fun a => a.path.components).Nodup := List.pairwise_map.2 hdistinct
  rw [List.inj_on_of_nodup_map hnodup ha hb (hcomponents.trans hcomponents'.symm)]

end Disk

end Abridge
