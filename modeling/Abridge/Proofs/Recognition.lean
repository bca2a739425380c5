import Abridge.Proofs.Repetition

/-!
# Telling artifacts from modules

A walk takes files for modules by their names, and has two suffixes to tell what earlier runs left.  They are
enough for the copies of modules, for maps, and for the shortened text of a module that has an extension: the
extension stays last, and what stands before it ends in the suffix.  Nothing tells a manifest, or the shortened
text of a module without an extension, if the options give it a name like that of a module.

So it depends on these names alone whether artifacts are taken for modules (`Output.recognises_iff`).  With the
usual ones none is (`Output.recognises_usual`).  A manifest that is called like a module is one for the next walk
(`Disk.manifest_found`).

## What is here

* `Path.fileName?_join`, `Path.nameEndsIn_of_append`: the last names of paths that are made from others.
* `ArtifactMarkers.isCandidate`, `ArtifactMarkers.takes`: what a walk takes for a module, by its path and by its
  name in a directory.
* `Output.Derived`: the paths that options make from that of a module, with one lemma for each.
* `Output.recognises_iff`: the options with which none of them is taken for a module.
-/

set_option autoImplicit false

namespace Abridge

open Output (usual)

/-! ## Last names -/

theorem nameEndsIn_append (name suffix : String) : nameEndsIn (name ++ suffix) suffix = true :=
  List.isSuffixOf_iff_suffix.2 ⟨name.toList, String.toList_append.symm⟩

namespace Path

/-- The last part of a text is the last name of its path, unless it is two dots. -/
theorem fileName?_of_text {p directory : Path} {name : String}
    (htext : p.text.toList = directory.text.toList ++ name.toList)
    (hends : directory.text.toList = [] ∨ ∃ cs, directory.text.toList = cs ++ ['/'])
    (hslash : '/' ∉ name.toList) (hempty : name ≠ "") (hdot : name ≠ ".") :
    p.fileName? = if name = ".." then none else some name := by
  obtain ⟨parts, -, hparts⟩ := splitSlashes_of_text htext hends hslash
  have hstep : step? name.toList = some (if name = ".." then .up else .name name) := by
    unfold step?
    split
    · rename_i hnil
      exact absurd (String.toList_injective hnil) hempty
    · rename_i hone
      exact absurd (String.toList_injective hone) hdot
    · rename_i htwo
      rw [if_pos (show name = ".." from String.toList_injective htwo)]
    · rename_i htwo
      rw [if_neg fun heq => htwo (by rw [heq]; rfl), String.ofList_toList]
  rw [fileName?, components_eq_start_append, steps, hparts, List.filterMap_append, List.filterMap_cons,
    hstep, List.filterMap_nil, ← List.append_assoc, List.getLast?_concat]
  split_ifs <;> rfl

/-- A joined name is the last part of the text. -/
theorem exists_text_join (p : Path) {name : String} (hslash : '/' ∉ name.toList) :
    ∃ directory : Path, (p.join name).text.toList = directory.text.toList ++ name.toList ∧
      (directory.text.toList = [] ∨ ∃ cs, directory.text.toList = cs ++ ['/']) := by
  unfold join
  split
  · rename_i cs hcs
    exact absurd (hcs ▸ List.mem_cons_self) hslash
  split
  · rename_i hnil
    exact ⟨⟨""⟩, rfl, .inl rfl⟩
  · rename_i hlast
    obtain ⟨cs, hcs⟩ := List.getLast?_eq_some_iff.1 hlast
    exact ⟨p, String.toList_append, .inr ⟨cs, hcs⟩⟩
  · exact ⟨⟨p.text ++ "/"⟩, String.toList_append, .inr ⟨p.text.toList, String.toList_append⟩⟩

theorem fileName?_join (p : Path) {name : String} (hslash : '/' ∉ name.toList) (hempty : name ≠ "")
    (hdot : name ≠ ".") : (p.join name).fileName? = if name = ".." then none else some name := by
  obtain ⟨directory, htext, hends⟩ := p.exists_text_join hslash
  exact fileName?_of_text htext hends hslash hempty hdot

/-- A name that is no step changes nothing. -/
theorem fileName?_join_of_step? (p : Path) {name : String} (h : step? name.toList = none) :
    (p.join name).fileName? = p.fileName? := by
  have halike : ∀ cs part, step? part = none →
      fileName? ⟨String.ofList (cs ++ '/' :: part)⟩ = fileName? ⟨String.ofList (cs ++ ['/'])⟩ := by
    intro cs part hpart
    rw [fileName?, fileName?]
    by_cases hcs : cs = []
    · subst hcs
      rw [List.nil_append, List.nil_append, (alike_slash hpart).components]
    · rw [(alike_append_slash hcs hpart).components, (alike_append_slash hcs rfl).components]
  have hname : p.text ++ "/" ++ name = String.ofList (p.text.toList ++ '/' :: name.toList) := by
    refine String.toList_injective ?_
    rw [String.toList_ofList, String.toList_append, String.toList_append, List.append_assoc]
    rfl
  unfold join
  split
  · rename_i cs hcs
    rw [hcs] at h
    cases h
  split
  · rename_i hnil
    have hp : p = ⟨""⟩ := congrArg Path.mk (String.toList_injective (List.getLast?_eq_none_iff.1 hnil))
    subst hp
    rcases eq_of_step?_eq_none h with hnil | hdot
    · rw [show name = "" from String.toList_injective hnil]
    · rw [show name = "." from String.toList_injective hdot]
      rfl
  · rename_i hlast
    obtain ⟨cs, hcs⟩ := List.getLast?_eq_some_iff.1 hlast
    have hp : p = ⟨String.ofList (cs ++ ['/'])⟩ := congrArg Path.mk (by rw [← hcs, String.ofList_toList])
    have hjoined : p.text ++ name = String.ofList (cs ++ '/' :: name.toList) := by
      refine String.toList_injective ?_
      rw [String.toList_append, hcs, String.toList_ofList, List.append_assoc, List.singleton_append]
    rw [hjoined, halike cs _ h, ← hp]
  · rename_i hlast
    have hcs : p.text.toList ≠ [] := fun hnil => by
      rw [hnil] at hlast
      cases hlast
    rw [hname, fileName?, (alike_append_slash hcs h).components, String.ofList_toList, fileName?]

/-- Where a path ends in a name, another name goes into the same directory. -/
theorem withFileName_eq_join {p : Path} (h : p.fileName? ≠ none) (name : String) :
    p.withFileName name = (p.parent?.getD ⟨""⟩).join name := by
  obtain ⟨last, hlast⟩ := Option.ne_none_iff_exists'.1 h
  rw [withFileName, hlast]

/-- The last name of a path that a suffix was added to ends in the suffix.  A dot behind a slash is not
added to a name. -/
theorem nameEndsIn_of_append {p : Path} {suffix name : String} (hslash : '/' ∉ suffix.toList)
    (hempty : suffix ≠ "") (hdot : suffix = "." → Disk.endsInSlash p = false)
    (h : (p.append suffix).fileName? = some name) : nameEndsIn name suffix = true := by
  obtain ⟨directory, last, htext, hends, hlast⟩ := p.exists_directory
  have happend : (p.append suffix).text.toList = directory.text.toList ++ (last ++ suffix).toList := by
    rw [append, String.toList_append, htext, String.toList_append, List.append_assoc]
  have hslash' : '/' ∉ (last ++ suffix).toList := by
    rw [String.toList_append, List.mem_append, not_or]
    exact ⟨hlast, hslash⟩
  have hempty' : last ++ suffix ≠ "" := fun heq => hempty (String.append_eq_empty_iff.1 heq).2
  by_cases hdot' : last ++ suffix = "."
  · -- The suffix is the dot itself, and it is the whole text.
    exfalso
    obtain ⟨hlast, hsuffix⟩ : last = "" ∧ suffix = "." := by
      have hchars : last.toList ++ suffix.toList = ['.'] := by
        rw [← String.toList_append, hdot']
        rfl
      rcases List.append_eq_singleton_iff.1 hchars with ⟨hl, hs⟩ | ⟨-, hs⟩
      · exact ⟨String.toList_injective hl, String.toList_injective hs⟩
      · exact absurd (String.toList_injective hs) hempty
    subst hlast hsuffix
    have hopen := hdot rfl
    rcases hends with hnil | ⟨cs, hcs⟩
    · have hpath : p.append "." = ⟨"."⟩ := by
        have htext : p.text = "" := String.toList_injective (by rw [htext, hnil]; rfl)
        rw [append, htext]
        rfl
      rw [hpath] at h
      cases h
    · rw [Disk.endsInSlash, htext, hcs] at hopen
      simp at hopen
  · rw [fileName?_of_text happend hends hslash' hempty' hdot'] at h
    split at h
    · cases h
    · obtain rfl := Option.some_inj.1 h
      exact nameEndsIn_append _ _

/-- A last name is a part of its path, and neither a dot nor two. -/
theorem of_fileName? {p : Path} {name : String} (h : p.fileName? = some name) :
    name ≠ "" ∧ name ≠ "." ∧ name ≠ ".." ∧ '/' ∉ name.toList := by
  have hmem : Component.name name ∈ p.components := by
    rw [fileName?] at h
    split at h
    · rename_i last
      obtain rfl := Option.some_inj.1 h
      exact List.mem_of_getLast? last
    · cases h
  have hstep : Component.name name ∈ p.steps := by
    rw [steps_eq_filter]
    exact List.mem_filter.2 ⟨hmem, rfl⟩
  obtain ⟨part, hpart, hname⟩ := List.mem_filterMap.1 hstep
  obtain ⟨hslash, -⟩ := Disk.not_mem_of_mem_splitSlashes hpart
  unfold step? at hname
  split at hname
  · cases hname
  · cases hname
  · cases hname
  · rename_i hempty hdot hdots
    cases hname
    rw [String.toList_ofList]
    refine ⟨fun heq => hempty ?_, fun heq => hdot ?_, fun heq => hdots ?_, hslash⟩
    all_goals
      have hchars := congrArg String.toList heq
      rwa [String.toList_ofList] at hchars

end Path

/-! ## Candidates -/

namespace ArtifactMarkers

variable {m : ArtifactMarkers}

/-- Whether a walk takes a path for that of a module. -/
def isCandidate (m : ArtifactMarkers) (p : Path) : Bool := p.fileName?.any m.isModule

theorem isCandidate_eq_false_iff {p : Path} :
    m.isCandidate p = false ↔ ∀ name, p.fileName? = some name → m.isModule name = false := by
  rw [isCandidate]
  cases p.fileName? <;> simp

/-- Whether a walk takes a name below a directory for that of a module.  A name that is no step stands for the
directory itself. -/
def takes (m : ArtifactMarkers) (directory : Path) (name : String) : Bool :=
  if Path.step? name.toList = none then m.isCandidate directory else m.isModule name

/-- **How a module is called**: it has a stem and one of the extensions, and neither suffix tells it. -/
theorem exists_of_isModule {name : String} (h : m.isModule name = true) :
    ∃ stem extension, Path.splitName name = (stem, some extension) ∧
      extension.map Char.toLower ∈ moduleExtensions ∧ nameEndsIn name m.backupSuffix = false ∧
      nameEndsIn stem m.optimizedSuffix = false := by
  unfold isModule at h
  split at h
  · cases h
  · rename_i stem extension hsplit
    simp only [Bool.and_eq_true, Bool.not_eq_true'] at h
    exact ⟨stem, extension, hsplit, List.contains_iff_mem.1 h.1.1.1, h.1.2, h.2⟩

theorem isModule_of_backupSuffix {name : String} (h : nameEndsIn name m.backupSuffix = true) :
    m.isModule name = false := by
  by_contra hmodule
  obtain ⟨-, -, -, -, hbackup, -⟩ := exists_of_isModule (Bool.not_eq_false _ ▸ hmodule)
  rw [h] at hbackup
  cases hbackup

theorem isModule_of_optimizedSuffix {name stem : String} {extension : Option String}
    (hsplit : Path.splitName name = (stem, extension)) (h : nameEndsIn stem m.optimizedSuffix = true) :
    m.isModule name = false := by
  by_contra hmodule
  obtain ⟨stem', _, hsplit', -, -, hoptimized⟩ := exists_of_isModule (Bool.not_eq_false _ ▸ hmodule)
  rw [hsplit, Prod.mk.injEq] at hsplit'
  rw [← hsplit'.1, h] at hoptimized
  cases hoptimized

theorem isModule_of_extension {name stem extension : String}
    (hsplit : Path.splitName name = (stem, some extension))
    (h : extension.map Char.toLower ∉ moduleExtensions) : m.isModule name = false := by
  by_contra hmodule
  obtain ⟨_, extension', hsplit', hmem, -⟩ := exists_of_isModule (Bool.not_eq_false _ ▸ hmodule)
  rw [hsplit, Prod.mk.injEq, Option.some_inj] at hsplit'
  exact h (hsplit'.2 ▸ hmem)

/-- A suffix with an extension of its own makes no module of any name. -/
theorem isModule_append_of_extension {stem : String} (suffix extension : String) (hstem : stem ≠ "")
    (hdot : '.' ∉ extension.toList) (h : extension.map Char.toLower ∉ moduleExtensions) :
    m.isModule (stem ++ (suffix ++ "." ++ extension)) = false := by
  have hsplit : Path.splitName (stem ++ (suffix ++ "." ++ extension)) = (stem ++ suffix, some extension) := by
    rw [← String.append_assoc, ← String.append_assoc]
    refine Path.splitName_append ?_ hdot
    rw [String.toList_append]
    exact List.append_ne_nil_of_left_ne_nil (fun hnil => hstem (String.toList_injective hnil)) _
  exact isModule_of_extension hsplit h

theorem isModule_dots : m.isModule ".." = false := by
  have hsplit : Path.splitName ".." = (".", some "") := by decide +kernel
  exact isModule_of_extension hsplit (by decide +kernel)

theorem takes_of_ne {directory : Path} {name : String} (hempty : name ≠ "") (hdot : name ≠ ".") :
    m.takes directory name = m.isModule name := by
  refine if_neg fun hstep => ?_
  rcases Path.eq_of_step?_eq_none hstep with h | h
  · exact hempty (String.toList_injective h)
  · exact hdot (String.toList_injective h)

/-- A path below a directory is a candidate just if a walk takes its name. -/
theorem isCandidate_join (directory : Path) {name : String} (hslash : '/' ∉ name.toList) :
    m.isCandidate (directory.join name) = m.takes directory name := by
  by_cases hstep : Path.step? name.toList = none
  · rw [isCandidate, directory.fileName?_join_of_step? hstep, takes, if_pos hstep, isCandidate]
  · have hempty : name ≠ "" := by rintro rfl; exact hstep rfl
    have hdot : name ≠ "." := by rintro rfl; exact hstep rfl
    rw [isCandidate, directory.fileName?_join hslash hempty hdot, takes_of_ne hempty hdot]
    split
    · rename_i hdots
      rw [hdots, isModule_dots]
      rfl
    · rfl

/-- Where every name ends in the suffix of copies, nothing is a module. -/
theorem isModule_of_eq_empty (h : m.backupSuffix = "") (name : String) : m.isModule name = false :=
  isModule_of_backupSuffix (by simp [nameEndsIn, h])

end ArtifactMarkers

namespace Disk

variable {disk : Disk} {m : ArtifactMarkers} {target : Path} {root : Location}

/-- What a walk finds is located. -/
theorem Finds.exists_locate (htree : disk.IsTree) (hroot : disk.stat target = .ok (root, .directory))
    (htarget : targetName target ≠ dependencyDirectory) {q : Path} (h : disk.Finds m target root q) :
    ∃ paths, disk.locate m target = .ok paths ∧ q ∈ paths := by
  have hmem : q ∈ Path.sortBy id (disk.modulesBelow m target [root]
      ((disk.entries.length + 1) * (disk.entries.length + 1))) :=
    List.mem_mergeSort.2 ((mem_modulesBelow_iff htree hroot).2 h)
  rw [locate_eq hroot, if_neg htarget]
  refine ⟨_, if_neg fun hempty => ?_, hmem⟩
  rw [List.isEmpty_iff.1 hempty] at hmem
  exact absurd hmem List.not_mem_nil

end Disk

/-- A path ends in a name, as that of a module does. -/
def Path.EndsInName (p : Path) : Prop := p.fileName? ≠ none ∧ Disk.endsInSlash p = false

namespace Output

/-- How a run with some options tells what an earlier one left. -/
def markers (o : Output) : ArtifactMarkers := ⟨o.optimizedSuffix, o.backupSuffix⟩

/-- Options in which no text has a slash. -/
structure Slashless (o : Output) : Prop where
  optimizedSuffix : '/' ∉ o.optimizedSuffix.toList
  manifestSuffix : '/' ∉ o.manifestSuffix.toList
  runManifestName : '/' ∉ o.runManifestName.toList
  backupSuffix : '/' ∉ o.backupSuffix.toList

/-- The paths that the options make from that of a module: its artifacts, its copy, whatever is drawn for its
name, and the manifest of a directory. -/
inductive Derived (o : Output) (p : Path) : Path → Prop
  | optimized : Derived o p (o.optimizedPath p)
  | positionMap : Derived o p (o.positionMapPath p)
  | manifest : Derived o p (o.manifestPath p)
  | backup : Derived o p (backupPath p o.backupSuffix)
  | drawn (part : String) : '/' ∉ part.toList →
    Derived o p (p.directory.join (p.fileName?.getD "" ++ "." ++ part ++ o.backupSuffix))
  | runManifest (directory : Path) : Derived o p (directory.join o.runManifestName)

variable {o : Output} {p : Path} {m : ArtifactMarkers}

/-- What the last name of a module's path is made of. -/
theorem exists_splitName (hp : p.fileName? ≠ none) :
    ∃ name extension, p.fileName? = some name ∧ Path.splitName name = (p.stem, extension) ∧
      p.extension? = extension ∧ p.stem ≠ "" ∧ '/' ∉ name.toList ∧ '/' ∉ p.stem.toList := by
  obtain ⟨name, hname⟩ := Option.ne_none_iff_exists'.1 hp
  obtain ⟨hempty, -, -, hslash⟩ := Path.of_fileName? hname
  have hstem : p.stem = (Path.splitName name).1 := by rw [Path.stem, hname]; rfl
  have hextension : p.extension? = (Path.splitName name).2 := by rw [Path.extension?, hname]; rfl
  refine ⟨name, _, hname, by rw [hstem], hextension, ?_⟩
  rw [hstem]
  cases hsplit : Path.splitName name with
  | mk stem extension =>
    cases extension with
    | none =>
      obtain rfl := Path.splitName_eq_none hsplit
      exact ⟨hempty, hslash, hslash⟩
    | some extension =>
      obtain ⟨rfl, hne, -⟩ := Path.splitName_eq_some_iff.1 hsplit
      refine ⟨fun heq => hne (congrArg String.toList heq), hslash, fun hmem => hslash ?_⟩
      rw [String.toList_append, String.toList_append]
      exact List.mem_append_left _ (List.mem_append_left _ hmem)

/-- With another last name, a module's path is a candidate just if a walk takes that name. -/
theorem isCandidate_withFileName (hp : p.fileName? ≠ none) {name : String} (hslash : '/' ∉ name.toList) :
    m.isCandidate (p.withFileName name) = m.takes (p.parent?.getD ⟨""⟩) name := by
  rw [Path.withFileName_eq_join hp, ArtifactMarkers.isCandidate_join _ hslash]

/-- What is put behind the name of a module is put behind a name. -/
theorem append_ne {stem : String} (hstem : stem ≠ "") {suffix : String} (hsuffix : suffix ≠ "") :
    stem ++ suffix ≠ "" ∧ stem ++ suffix ≠ "." := by
  have hs : stem.toList ≠ [] := fun h => hstem (String.toList_injective h)
  have hx : suffix.toList ≠ [] := fun h => hsuffix (String.toList_injective h)
  refine ⟨fun h => hstem (String.append_eq_empty_iff.1 h).1, fun h => ?_⟩
  have hchars : stem.toList ++ suffix.toList = ['.'] := by
    rw [← String.toList_append, h]
    rfl
  rcases List.append_eq_singleton_iff.1 hchars with ⟨hnil, -⟩ | ⟨-, hnil⟩
  · exact hs hnil
  · exact hx hnil

/-! ## One path after the other -/

/-- The suffix tells the shortened text of a module that has an extension. -/
theorem isCandidate_optimizedPath (h : o.Slashless) (hp : p.fileName? ≠ none) (hextension : p.extension? ≠ none) :
    o.markers.isCandidate (o.optimizedPath p) = false := by
  obtain ⟨name, extension, -, hsplit, hext, hstem, hname, hstemslash⟩ := exists_splitName hp
  obtain ⟨extension, rfl⟩ := Option.ne_none_iff_exists'.1 (hext ▸ hextension)
  obtain ⟨rfl, -, hdot⟩ := Path.splitName_eq_some_iff.1 hsplit
  have hsplit' : Path.splitName (p.stem ++ o.optimizedSuffix ++ "." ++ extension) =
      (p.stem ++ o.optimizedSuffix, some extension) := by
    refine Path.splitName_append ?_ hdot
    rw [String.toList_append]
    exact List.append_ne_nil_of_left_ne_nil (fun hnil => hstem (String.toList_injective hnil)) _
  have hslash : '/' ∉ (p.stem ++ o.optimizedSuffix ++ "." ++ extension).toList := by
    rw [String.toList_append, List.mem_append, not_or] at hname
    rw [String.toList_append, String.toList_append, String.toList_append, List.mem_append, List.mem_append,
      List.mem_append]
    rintro (((hmem | hmem) | hmem) | hmem)
    · exact hstemslash hmem
    · exact h.optimizedSuffix hmem
    · exact absurd hmem (by decide)
    · exact hname.2 hmem
  rw [optimizedPath, hext]
  dsimp only
  rw [isCandidate_withFileName hp hslash, ArtifactMarkers.takes_of_ne]
  · exact ArtifactMarkers.isModule_of_optimizedSuffix hsplit' (nameEndsIn_append _ _)
  · exact fun hempty => absurd (String.append_eq_empty_iff.1 (String.append_eq_empty_iff.1 hempty).1).2 (by decide)
  · rintro hdot
    rw [hdot] at hsplit'
    exact absurd (Prod.mk.inj hsplit').2.symm (Option.some_ne_none _)

/-- A module without an extension gets a text without one, unless the suffix has it. -/
theorem isCandidate_optimizedPath_of_none (h : o.Slashless) (hp : p.fileName? ≠ none)
    (hextension : p.extension? = none) :
    o.markers.isCandidate (o.optimizedPath p) = o.markers.isModule (p.stem ++ o.optimizedSuffix) := by
  obtain ⟨name, extension, hname, hsplit, hext, hstem, -, hstemslash⟩ := exists_splitName hp
  have hslash : '/' ∉ (p.stem ++ o.optimizedSuffix).toList := by
    rw [String.toList_append, List.mem_append, not_or]
    exact ⟨hstemslash, h.optimizedSuffix⟩
  rw [optimizedPath, hextension]
  dsimp only
  rw [isCandidate_withFileName hp hslash]
  by_cases hsuffix : o.optimizedSuffix = ""
  · obtain rfl : extension = none := hext ▸ hextension
    obtain ⟨hempty, hdot, -⟩ := Path.of_fileName? hname
    rw [← Path.splitName_eq_none hsplit] at hempty hdot
    rw [hsuffix, String.append_empty, ArtifactMarkers.takes_of_ne hempty hdot]
  · obtain ⟨hempty, hdot⟩ := append_ne hstem hsuffix
    exact ArtifactMarkers.takes_of_ne hempty hdot

/-- A map has an extension of its own. -/
theorem isCandidate_positionMapPath : o.markers.isCandidate (o.positionMapPath p) = false := by
  rw [ArtifactMarkers.isCandidate_eq_false_iff]
  intro name hname
  have hends := Path.nameEndsIn_of_append (by decide) (by decide) (fun h => absurd h (by decide)) hname
  obtain ⟨stem, rfl⟩ : ∃ stem, name = stem ++ ".map" := by
    obtain ⟨cs, hcs⟩ := List.isSuffixOf_iff_suffix.1 hends
    exact ⟨String.ofList cs, String.toList_injective (by rw [String.toList_append, String.toList_ofList, hcs])⟩
  by_cases hstem : stem = ""
  · subst hstem
    have hsplit : Path.splitName ("" ++ ".map") = (".map", none) := by decide +kernel
    by_contra hmodule
    obtain ⟨_, _, hsplit', -⟩ := ArtifactMarkers.exists_of_isModule (Bool.not_eq_false _ ▸ hmodule)
    rw [hsplit] at hsplit'
    cases hsplit'
  · exact ArtifactMarkers.isModule_append_of_extension "" "map" hstem (by decide)
      (by decide +kernel)

/-- The suffix tells the copy of a module. -/
theorem isCandidate_backupPath (h : o.Slashless) (hp : p.EndsInName) :
    o.markers.isCandidate (backupPath p o.backupSuffix) = false := by
  rw [ArtifactMarkers.isCandidate_eq_false_iff]
  intro name hname
  by_cases hempty : o.backupSuffix = ""
  · exact ArtifactMarkers.isModule_of_eq_empty hempty name
  · exact ArtifactMarkers.isModule_of_backupSuffix
      (Path.nameEndsIn_of_append h.backupSuffix hempty (fun _ => hp.2) hname)

/-- The suffix tells a copy with a drawn name. -/
theorem isCandidate_drawn (h : o.Slashless) (hp : p.fileName? ≠ none) {part : String} (hpart : '/' ∉ part.toList) :
    o.markers.isCandidate (p.directory.join (p.fileName?.getD "" ++ "." ++ part ++ o.backupSuffix)) = false := by
  obtain ⟨name, -, hname, -, -, -, hnameslash, -⟩ := exists_splitName hp
  obtain ⟨hempty, -⟩ := Path.of_fileName? hname
  have hslash : '/' ∉ (name ++ "." ++ part ++ o.backupSuffix).toList := by
    rw [String.toList_append, String.toList_append, String.toList_append, List.mem_append, List.mem_append,
      List.mem_append]
    rintro (((hmem | hmem) | hmem) | hmem)
    · exact hnameslash hmem
    · exact absurd hmem (by decide)
    · exact hpart hmem
    · exact h.backupSuffix hmem
  have hne : name ++ ("." ++ part ++ o.backupSuffix) ≠ "" ∧ name ++ ("." ++ part ++ o.backupSuffix) ≠ "." :=
    append_ne hempty fun hnil =>
      absurd (String.append_eq_empty_iff.1 (String.append_eq_empty_iff.1 hnil).1).1 (by decide)
  rw [← String.append_assoc, ← String.append_assoc] at hne
  rw [hname, Option.getD_some, ArtifactMarkers.isCandidate_join _ hslash,
    ArtifactMarkers.takes_of_ne hne.1 hne.2]
  exact ArtifactMarkers.isModule_of_backupSuffix (nameEndsIn_append _ _)

/-- Nothing but its name tells the manifest of a module. -/
theorem isCandidate_manifestPath (h : o.Slashless) (hp : p.fileName? ≠ none) :
    o.markers.isCandidate (o.manifestPath p) =
      o.markers.takes (p.parent?.getD ⟨""⟩) (p.stem ++ o.manifestSuffix) := by
  obtain ⟨-, -, -, -, -, -, -, hstemslash⟩ := exists_splitName hp
  refine isCandidate_withFileName hp ?_
  rw [String.toList_append, List.mem_append, not_or]
  exact ⟨hstemslash, h.manifestSuffix⟩

/-! ## All of them -/

/-- **Which artifacts a walk takes for modules.**  Maps, copies and the shortened texts of modules with an
extension are told by the suffixes, whatever these are.  So no artifact of a module is taken for a module if and
only if the options give no module's name to the shortened text of a module without an extension, to the
manifest of a module, or to that of a directory. -/
theorem recognises_iff (h : o.Slashless) (hp : p.EndsInName) :
    (∀ q, o.Derived p q → o.markers.isCandidate q = false) ↔
      (p.extension? = none → o.markers.isModule (p.stem ++ o.optimizedSuffix) = false) ∧
        o.markers.takes (p.parent?.getD ⟨""⟩) (p.stem ++ o.manifestSuffix) = false ∧
        ∀ directory, o.markers.takes directory o.runManifestName = false := by
  constructor
  · intro hnone
    refine ⟨fun hextension => ?_, ?_, fun directory => ?_⟩
    · rw [← isCandidate_optimizedPath_of_none h hp.1 hextension]
      exact hnone _ .optimized
    · rw [← isCandidate_manifestPath h hp.1]
      exact hnone _ .manifest
    · rw [← ArtifactMarkers.isCandidate_join directory h.runManifestName]
      exact hnone _ (.runManifest directory)
  · rintro ⟨hoptimized, hmanifest, hrun⟩ q hq
    cases hq with
    | optimized =>
      by_cases hextension : p.extension? = none
      · rw [isCandidate_optimizedPath_of_none h hp.1 hextension, hoptimized hextension]
      · exact isCandidate_optimizedPath h hp.1 hextension
    | positionMap => exact isCandidate_positionMapPath
    | manifest => rw [isCandidate_manifestPath h hp.1, hmanifest]
    | backup => exact isCandidate_backupPath h hp
    | drawn part hpart => exact isCandidate_drawn h hp.1 hpart
    | runManifest directory => rw [ArtifactMarkers.isCandidate_join directory h.runManifestName, hrun]

theorem slashless_default : ({} : Output).Slashless :=
  ⟨by decide +kernel, by decide +kernel, by decide +kernel, by decide +kernel⟩

theorem recognises_default :
    ({} : Output).Slashless ∧ Path.EndsInName ⟨"lib/a.js"⟩ ∧
      ∀ q, ({} : Output).Derived ⟨"lib/a.js"⟩ q → ({} : Output).markers.isCandidate q = false := by
  have h := slashless_default
  have hp : Path.EndsInName ⟨"lib/a.js"⟩ := ⟨by decide +kernel, by decide +kernel⟩
  refine ⟨h, hp, (recognises_iff h hp).2 ⟨fun hnone => ?_, by decide +kernel, fun directory => ?_⟩⟩
  · exact absurd hnone (by decide +kernel)
  · rw [ArtifactMarkers.takes_of_ne (by decide +kernel) (by decide +kernel)]
    exact isModule_runManifest

/-- With the usual names of artifacts, none is taken for a module. -/
theorem recognises_usual {emitMap : Bool} (hp : p.EndsInName) {q : Path} (hq : (usual emitMap).Derived p q) :
    (usual emitMap).markers.isCandidate q = false := by
  have h : (usual emitMap).Slashless :=
    ⟨slashless_default.1, slashless_default.2, slashless_default.3, slashless_default.4⟩
  obtain ⟨-, -, -, -, -, hstem, -, -⟩ := exists_splitName hp.1
  cases hq with
  | optimized =>
    by_cases hextension : p.extension? = none
    · rw [isCandidate_optimizedPath_of_none h hp.1 hextension]
      exact ArtifactMarkers.isModule_append_of_extension "" "optimized" hstem (by decide)
        (by decide +kernel)
    · exact isCandidate_optimizedPath h hp.1 hextension
  | positionMap => exact isCandidate_positionMapPath
  | manifest =>
    obtain ⟨hempty, hdot⟩ := append_ne hstem (show ".manifest.json" ≠ "" by decide)
    refine (isCandidate_manifestPath h hp.1).trans ((ArtifactMarkers.takes_of_ne hempty hdot).trans ?_)
    exact ArtifactMarkers.isModule_append_of_extension ".manifest" "json" hstem (by decide)
      (by decide +kernel)
  | backup => exact isCandidate_backupPath h hp
  | drawn part hpart => exact isCandidate_drawn h hp.1 hpart
  | runManifest directory =>
    rw [ArtifactMarkers.isCandidate_join directory h.runManifestName]
    have hnamed : "optimization.manifest.json" ≠ "" ∧ "optimization.manifest.json" ≠ "." := by decide
    exact (ArtifactMarkers.takes_of_ne hnamed.1 hnamed.2).trans isModule_runManifest

end Output

namespace Disk

/-- What a run over a module leaves when it is to give the manifest an extension of modules. -/
def withManifest : Disk where
  entries := ([(["a.js"], .file "12345678; ".toUTF8), (["a.optimized.js"], .file "12345678;".toUTF8),
    (["a.manifest.js"], .file "{}".toUTF8)] : List (Location × Entry))

/-- **A manifest that is called like a module is found as one** by the next walk. -/
theorem manifest_found :
    ∃ o : Output, o = { manifestSuffix := ".manifest.js" } ∧ o.Slashless ∧ Path.EndsInName ⟨"./a.js"⟩ ∧
      o.Derived ⟨"./a.js"⟩ ⟨"./a.manifest.js"⟩ ∧ o.markers.isCandidate ⟨"./a.manifest.js"⟩ = true ∧
      ∃ paths, withManifest.locate o.markers ⟨"."⟩ = .ok paths ∧ ⟨"./a.manifest.js"⟩ ∈ paths := by
  have hname : IsName "a.manifest.js" := ⟨by decide, by decide, by decide, by decide, by decide⟩
  have htree : withManifest.IsTree :=
    .of_flat (by decide) (List.forall_mem_cons.2 ⟨⟨_, isName_here.1, rfl⟩,
      List.forall_mem_cons.2 ⟨⟨_, isName_here.2, rfl⟩, List.forall_mem_singleton.2 ⟨_, hname, rfl⟩⟩⟩)
  have hpath : Output.manifestPath { manifestSuffix := ".manifest.js" } ⟨"./a.js"⟩ = ⟨"./a.manifest.js"⟩ := by
    decide +kernel
  have hjoin : Path.join ⟨"."⟩ "a.manifest.js" = ⟨"./a.manifest.js"⟩ := by decide +kernel
  have hstat : withManifest.stat (Path.join ⟨"."⟩ "a.manifest.js") =
      .ok (["a.manifest.js"], .file "{}".toUTF8) :=
    ((at_here rfl hname).names (by decide)).stat_eq rfl
  have hfinds : withManifest.Finds (Output.markers { manifestSuffix := ".manifest.js" }) ⟨"."⟩ []
      (Path.join ⟨"."⟩ "a.manifest.js") :=
    .found .start (by rw [List.nil_append]; exact Option.some_ne_none _) (by decide) hstat
      (fun hentry => by cases hentry) (by decide +kernel)
  refine ⟨_, rfl, ⟨by decide +kernel, by decide +kernel, by decide +kernel, by decide +kernel⟩,
    ⟨by decide +kernel, by decide +kernel⟩, hpath ▸ .manifest, by decide +kernel, ?_⟩
  rw [← hjoin]
  exact hfinds.exists_locate htree (stat_here rfl) (by decide +kernel)

end Disk

end Abridge
