import Abridge.Disk.Discovery
import Abridge.Output
import Abridge.Proofs.Siblings
import Abridge.Proofs.Spans
import Mathlib.Data.List.Nodup

/-!
# Names of artifacts

The files of a run are told apart by how their names end.  A name is its stem and its extension, which is
what follows its last dot (`Path.splitName_eq_some_iff`).  A shortened module keeps the extension of the
module and has a stem of its own kind, a map and a manifest have extensions of theirs, and so has a copy.  So
no artifact is a module for a later run, none takes the place of another or of a copy, and different modules
of one directory have different artifacts.

## What is here

* `Output.optimizedName`, `Output.mapName`, `Output.manifestName`: the last names of artifacts.
* `IsCopyName`: the names of copies.
* `optimizedName_injective`, `isModule_optimizedName` and their like.
-/

set_option autoImplicit false

namespace Abridge

/-! ## Stems and extensions -/

namespace Path

theorem dropWhile_reverse {extension : List Char} (h : '.' ∉ extension) (stem : List Char) :
    (stem ++ '.' :: extension).reverse.dropWhile (· != '.') = '.' :: stem.reverse ∧
      (stem ++ '.' :: extension).reverse.takeWhile (· != '.') = extension.reverse := by
  have hreverse : (stem ++ '.' :: extension).reverse = extension.reverse ++ '.' :: stem.reverse := by simp
  rw [hreverse]
  exact (span_mark (fun hc => h (List.mem_reverse.1 hc)) stem.reverse).symm

theorem toList_append_dot (stem extension : String) :
    (stem ++ "." ++ extension).toList = stem.toList ++ '.' :: extension.toList := by
  rw [String.toList_append, String.toList_append, List.append_assoc]
  rfl

theorem splitName_append {stem extension : String} (hstem : stem.toList ≠ [])
    (hextension : '.' ∉ extension.toList) :
    splitName (stem ++ "." ++ extension) = (stem, some extension) := by
  obtain ⟨hdrop, htake⟩ := dropWhile_reverse hextension stem.toList
  obtain ⟨c, cs, hcs⟩ := List.exists_cons_of_ne_nil (List.reverse_ne_nil_iff.2 hstem)
  rw [splitName, toList_append_dot, hdrop, htake, hcs]
  dsimp only
  rw [← hcs, List.reverse_reverse, List.reverse_reverse, String.ofList_toList, String.ofList_toList]

/-- **The extension is what follows the last dot**, unless the name starts with that dot. -/
theorem splitName_eq_some_iff {name stem extension : String} :
    splitName name = (stem, some extension) ↔
      name = stem ++ "." ++ extension ∧ stem.toList ≠ [] ∧ '.' ∉ extension.toList := by
  refine ⟨fun h => ?_, ?_⟩
  · rcases exists_lastMark '.' name.toList with hnone | ⟨before, after, hname, hafter⟩
    · have hdrop : name.toList.reverse.dropWhile (· != '.') = [] := by
        rw [List.dropWhile_eq_nil_iff]
        exact bne_of_not_mem fun hc => hnone (List.mem_reverse.1 hc)
      rw [splitName, hdrop] at h
      cases h
    · have hname : name = String.ofList before ++ "." ++ String.ofList after := by
        rw [← String.toList_inj, toList_append_dot, String.toList_ofList, String.toList_ofList, hname]
      have hafter : '.' ∉ (String.ofList after).toList := by rwa [String.toList_ofList]
      by_cases hbefore : (String.ofList before).toList = []
      · obtain ⟨hdrop, -⟩ := dropWhile_reverse hafter (String.ofList before).toList
        rw [splitName, hname, toList_append_dot, hdrop, hbefore] at h
        cases h
      · rw [hname, splitName_append hbefore hafter] at h
        obtain ⟨rfl, hextension⟩ := Prod.mk.inj h
        obtain rfl := Option.some_inj.1 hextension
        exact ⟨hname, hbefore, hafter⟩
  · rintro ⟨rfl, hstem, hextension⟩
    exact splitName_append hstem hextension

theorem splitName_eq_none {name stem : String} (h : splitName name = (stem, none)) : stem = name := by
  unfold splitName at h
  dsimp only at h
  split at h <;> simp_all

end Path

/-! ## The names -/

theorem isName_append {stem suffix : String} (hstem : '/' ∉ stem.toList ∧ '\x00' ∉ stem.toList)
    (hsuffix : '/' ∉ suffix.toList ∧ '\x00' ∉ suffix.toList) (hlong : 2 < suffix.toList.length) :
    IsName (stem ++ suffix) := by
  have hlength : 2 < (stem ++ suffix).toList.length := by
    rw [String.toList_append, List.length_append]
    omega
  refine ⟨?_, ?_, ?_, ?_, ?_⟩
  · intro hnil; rw [hnil] at hlength; simp at hlength
  · rw [String.toList_append, List.mem_append, not_or]; exact ⟨hstem.1, hsuffix.1⟩
  · rw [String.toList_append, List.mem_append, not_or]; exact ⟨hstem.2, hsuffix.2⟩
  · intro hdot; rw [hdot] at hlength; simp at hlength
  · intro hdots; rw [hdots] at hlength; simp at hlength

namespace Output

/-- What the shortened text of a module is called. -/
def optimizedName (name : String) : String :=
  match Path.splitName name with
  | (stem, some extension) => stem ++ ".optimized" ++ "." ++ extension
  | (stem, none) => stem ++ ".optimized"

/-- What the map of a module is called. -/
def mapName (name : String) : String := optimizedName name ++ ".map"

/-- What the manifest of a single module is called. -/
def manifestName (name : String) : String := (Path.splitName name).1 ++ ".manifest.json"

/-- A name is a stem with or without an extension, and the artifacts are called after both. -/
structure Splits (name stem tail : String) : Prop where
  name_eq : name = stem ++ tail
  optimizedName_eq : optimizedName name = stem ++ (".optimized" ++ tail)
  manifestName_eq : manifestName name = stem ++ ".manifest.json"
  tail_eq : tail = "" ∨ ∃ extension : String, tail = "." ++ extension ∧ '.' ∉ extension.toList

theorem exists_splits (name : String) : ∃ stem tail, Splits name stem tail := by
  cases h : Path.splitName name with
  | mk stem extension =>
    cases extension with
    | none =>
      obtain rfl := Path.splitName_eq_none h
      refine ⟨stem, "", by simp, ?_, ?_, .inl rfl⟩
      · rw [optimizedName, h]; simp
      · rw [manifestName, h]
    | some extension =>
      obtain ⟨hname, -, hextension⟩ := Path.splitName_eq_some_iff.1 h
      refine ⟨stem, "." ++ extension, ?_, ?_, ?_, .inr ⟨extension, rfl, hextension⟩⟩
      · rw [hname, String.append_assoc]
      · rw [optimizedName, h]
        simp only [String.append_assoc]
      · rw [manifestName, h]

theorem Splits.mapName_eq {name stem tail : String} (h : Splits name stem tail) :
    mapName name = stem ++ (".optimized" ++ tail ++ ".map") := by
  rw [mapName, h.optimizedName_eq, String.append_assoc]

/-- What follows the stem of an artifact is a name's ending. -/
theorem Splits.isName {name stem tail : String} (h : Splits name stem tail) (hname : IsName name) :
    IsName (optimizedName name) ∧ IsName (mapName name) ∧ IsName (manifestName name) := by
  have hslash := hname.no_slash
  have hnul := hname.no_nul
  rw [h.name_eq, String.toList_append, List.mem_append, not_or] at hslash hnul
  have hstem := And.intro hslash.1 hnul.1
  rw [h.optimizedName_eq, h.mapName_eq, h.manifestName_eq]
  refine ⟨isName_append hstem ?_ ?_, isName_append hstem ?_ ?_, isName_append hstem ?_ ?_⟩
  all_goals simp [hslash.2, hnul.2]

theorem isName_optimizedName {name : String} (h : IsName name) : IsName (optimizedName name) := by
  obtain ⟨stem, tail, hsplits⟩ := exists_splits name
  exact (hsplits.isName h).1

theorem isName_mapName {name : String} (h : IsName name) : IsName (mapName name) := by
  obtain ⟨stem, tail, hsplits⟩ := exists_splits name
  exact (hsplits.isName h).2.1

theorem isName_manifestName {name : String} (h : IsName name) : IsName (manifestName name) := by
  obtain ⟨stem, tail, hsplits⟩ := exists_splits name
  exact (hsplits.isName h).2.2

theorem append_injective (stem : String) : Function.Injective (stem ++ ·) := by
  intro a b h
  have htext : (stem ++ a).toList = (stem ++ b).toList := congrArg String.toList h
  rw [String.toList_append, String.toList_append] at htext
  exact String.toList_injective (List.append_cancel_left htext)

/-- **The artifacts of one module differ from each other and from the module.** -/
theorem nodup_names (name : String) :
    [name, optimizedName name, mapName name, manifestName name].Nodup := by
  obtain ⟨stem, tail, h⟩ := exists_splits name
  have hmanifest : tail ≠ ".manifest.json" := by
    rcases h.tail_eq with rfl | ⟨extension, rfl, hextension⟩
    · decide
    · intro heq
      obtain rfl : extension = "manifest.json" := append_injective "." heq
      exact hextension (by decide)
  have hlonger : ∀ a b : String, a.toList.length < b.toList.length → a ≠ b := by
    rintro a _ hlt rfl
    exact Nat.lt_irrefl _ hlt
  have hsecond : ∀ a : String, ".optimized" ++ a ≠ ".manifest.json" := by
    intro a heq
    have hchar := congrArg (fun s : String => s.toList.take 2) heq
    rw [String.toList_append] at hchar
    revert hchar
    simp
  have hendings : [tail, ".optimized" ++ tail, ".optimized" ++ tail ++ ".map", ".manifest.json"].Nodup := by
    simp only [List.nodup_cons, List.mem_cons, List.not_mem_nil, or_false, not_or, not_false_eq_true,
      List.nodup_nil, and_true]
    refine ⟨⟨hlonger _ _ ?_, hlonger _ _ ?_, hmanifest⟩, ⟨hlonger _ _ ?_, hsecond _⟩, ?_⟩
    · simp; omega
    · simp; omega
    · simp
    · rw [String.append_assoc]
      exact hsecond _
  have hnames : [name, optimizedName name, mapName name, manifestName name] =
      [tail, ".optimized" ++ tail, ".optimized" ++ tail ++ ".map", ".manifest.json"].map (stem ++ ·) := by
    simp only [h.mapName_eq, h.optimizedName_eq, h.manifestName_eq, List.map_cons, List.map_nil]
    rw [← h.name_eq]
  rw [hnames]
  exact List.Nodup.map (append_injective stem) hendings

/-! ## Modules and their artifacts -/

/-- A module has an extension, and that of no artifact or copy. -/
theorem exists_extension_of_isModule {name : String} (h : ({} : ArtifactMarkers).isModule name = true) :
    ∃ stem extension, Path.splitName name = (stem, some extension) ∧
      extension ≠ "map" ∧ extension ≠ "json" ∧ extension ≠ "bak" := by
  unfold ArtifactMarkers.isModule at h
  split at h
  · cases h
  · rename_i stem extension hsplit
    simp only [Bool.and_eq_true] at h
    refine ⟨stem, extension, hsplit, ?_, ?_, ?_⟩
    all_goals
      rintro rfl
      exact absurd h.1.1.1 (by decide +kernel)

theorem splitName_optimizedName {name stem extension : String}
    (h : Path.splitName name = (stem, some extension)) :
    Path.splitName (optimizedName name) = (stem ++ ".optimized", some extension) := by
  obtain ⟨-, hstem, hextension⟩ := Path.splitName_eq_some_iff.1 h
  rw [optimizedName, h]
  refine Path.splitName_append ?_ hextension
  simp [hstem]

theorem splitName_mapName {name : String} (h : IsName name) :
    Path.splitName (mapName name) = (optimizedName name, some "map") := by
  have hname : mapName name = optimizedName name ++ "." ++ "map" := by
    rw [mapName, String.append_assoc]
    rfl
  rw [hname]
  exact Path.splitName_append (isName_optimizedName h).nonempty (by decide)

theorem splitName_manifestName (name : String) :
    Path.splitName (manifestName name) = ((Path.splitName name).1 ++ ".manifest", some "json") := by
  have hname : manifestName name = (Path.splitName name).1 ++ ".manifest" ++ "." ++ "json" := by
    rw [manifestName, String.append_assoc, String.append_assoc]
    rfl
  rw [hname]
  exact Path.splitName_append (by simp) (by decide)

theorem splitName_runManifest :
    Path.splitName "optimization.manifest.json" = ("optimization.manifest", some "json") := by
  decide +kernel

/-- **No artifact is a module.** -/
theorem isModule_optimizedName {name : String} (h : ({} : ArtifactMarkers).isModule name = true) :
    ({} : ArtifactMarkers).isModule (optimizedName name) = false := by
  obtain ⟨stem, extension, hsplit, -⟩ := exists_extension_of_isModule h
  have hsuffix : nameEndsIn (stem ++ ".optimized") ".optimized" = true := by
    simp [nameEndsIn]
  rw [ArtifactMarkers.isModule, splitName_optimizedName hsplit]
  dsimp only
  rw [hsuffix, Bool.not_true, Bool.and_false]

theorem isModule_mapName {name : String} (h : IsName name) :
    ({} : ArtifactMarkers).isModule (mapName name) = false := by
  have hextension : moduleExtensions.contains ("map".map Char.toLower) = false := by decide +kernel
  rw [ArtifactMarkers.isModule, splitName_mapName h]
  dsimp only
  rw [hextension]
  rfl

theorem isModule_runManifest :
    ({} : ArtifactMarkers).isModule "optimization.manifest.json" = false := by
  decide +kernel

/-- **Different modules have different artifacts.** -/
theorem optimizedName_injective {name name' : String}
    (h : ({} : ArtifactMarkers).isModule name = true) (h' : ({} : ArtifactMarkers).isModule name' = true)
    (heq : optimizedName name = optimizedName name') : name = name' := by
  obtain ⟨stem, extension, hsplit, -⟩ := exists_extension_of_isModule h
  obtain ⟨stem', extension', hsplit', -⟩ := exists_extension_of_isModule h'
  have hsame := splitName_optimizedName hsplit
  rw [heq, splitName_optimizedName hsplit'] at hsame
  obtain ⟨hstem, hextension⟩ := Prod.mk.inj hsame
  have hstem : stem' = stem := by
    have htext := congrArg String.toList hstem
    rw [String.toList_append, String.toList_append] at htext
    exact String.toList_injective (List.append_cancel_right htext)
  rw [(Path.splitName_eq_some_iff.1 hsplit).1, (Path.splitName_eq_some_iff.1 hsplit').1, hstem,
    Option.some_inj.1 hextension]

theorem mapName_injective {name name' : String} (h : ({} : ArtifactMarkers).isModule name = true)
    (h' : ({} : ArtifactMarkers).isModule name' = true) (heq : mapName name = mapName name') :
    name = name' := by
  refine optimizedName_injective h h' ?_
  have htext := congrArg String.toList heq
  rw [mapName, mapName, String.toList_append, String.toList_append] at htext
  exact String.toList_injective (List.append_cancel_right htext)

/-- Artifacts of different kinds have different extensions. -/
theorem nodup_kinds {name name' : String} (h : ({} : ArtifactMarkers).isModule name = true)
    (hname' : IsName name') :
    [optimizedName name, mapName name', "optimization.manifest.json"].Nodup := by
  obtain ⟨stem, extension, hsplit, hmap, hjson, -⟩ := exists_extension_of_isModule h
  have hextensions : ([optimizedName name, mapName name', "optimization.manifest.json"].map
      fun name => (Path.splitName name).2) = [some extension, some "map", some "json"] := by
    simp only [List.map_cons, List.map_nil, splitName_optimizedName hsplit, splitName_mapName hname',
      splitName_runManifest]
  have hnodup : [some extension, some "map", some "json"].Nodup := by simp [hmap, hjson]
  rw [← hextensions] at hnodup
  exact hnodup.of_map _

/-! ## Copies -/

/-- A name of a copy: the suffix follows the name of the file, or something drawn between dots does. -/
structure IsCopyName (name copy : String) : Prop where
  isName : IsName copy
  eq : ∃ middle, copy = name ++ middle ++ "." ++ "bak" ∧
    (middle = "" ∨ ∃ drawn, middle = "." ++ drawn)

theorem IsCopyName.splitName_eq {name copy : String} (h : IsCopyName name copy) (hname : IsName name) :
    ∃ stem, Path.splitName copy = (stem, some "bak") := by
  obtain ⟨middle, rfl, -⟩ := h.eq
  refine ⟨_, Path.splitName_append ?_ (by decide)⟩
  simp [hname.nonempty]

/-- No copy has the name of an artifact of a module with one of the extensions. -/
theorem not_mem_of_isCopyName {name name' copy : String}
    (h : ({} : ArtifactMarkers).isModule name = true) (hname : IsName name) (hname' : IsName name')
    (hcopy : IsCopyName name' copy) :
    copy ∉ [optimizedName name, mapName name, "optimization.manifest.json"] := by
  obtain ⟨stem, extension, hsplit, -, -, hbak⟩ := exists_extension_of_isModule h
  obtain ⟨stem', hsplit'⟩ := hcopy.splitName_eq hname'
  have hextensions : ([optimizedName name, mapName name, "optimization.manifest.json"].map
      fun name => (Path.splitName name).2) = [some extension, some "map", some "json"] := by
    simp only [List.map_cons, List.map_nil, splitName_optimizedName hsplit, splitName_mapName hname,
      splitName_runManifest]
  intro hmem
  have hmem := List.mem_map_of_mem (f := fun name => (Path.splitName name).2) hmem
  rw [hextensions, hsplit'] at hmem
  simp [Ne.symm hbak] at hmem

theorem optimizedName_ne_of_isCopyName {name copy : String} (hcopy : IsCopyName name copy) :
    optimizedName name ≠ copy := by
  intro heq
  obtain ⟨stem, tail, h⟩ := exists_splits name
  obtain ⟨middle, rfl, hmiddle⟩ := hcopy.eq
  have hlast : ∀ a b : String, a ++ "optimized" ≠ b ++ "." ++ "bak" := by
    intro a b heq
    have hchar := congrArg (fun s : String => s.toList.getLast?) heq
    simp [String.toList_append, List.getLast?_append] at hchar
  have hends : ".optimized" ++ tail = tail ++ middle ++ "." ++ "bak" := by
    rw [h.optimizedName_eq] at heq
    refine append_injective stem ?_
    dsimp only
    rw [heq, ← String.append_assoc, ← String.append_assoc, ← String.append_assoc, ← h.name_eq]
  rcases h.tail_eq with rfl | ⟨extension, rfl, hextension⟩
  · exact hlast "." middle (by simpa using hends)
  · -- What stands before the second dot is `optimized` on one side and the extension on the other.
    have hmore : ∃ rest, (middle ++ "." ++ "bak").toList = '.' :: rest := by
      rcases hmiddle with rfl | ⟨drawn, rfl⟩
      · exact ⟨_, rfl⟩
      · exact ⟨_, by rw [String.append_assoc, String.append_assoc, String.toList_append]; rfl⟩
    obtain ⟨rest, hrest⟩ := hmore
    have htext : "optimized".toList ++ '.' :: extension.toList = extension.toList ++ '.' :: rest := by
      have hcopy : "." ++ extension ++ middle ++ "." ++ "bak" =
          "." ++ (extension ++ (middle ++ "." ++ "bak")) := by
        simp only [String.append_assoc]
      have hdot : ".optimized" = "." ++ "optimized" := rfl
      have hoptimized : ".optimized" ++ ("." ++ extension) = "." ++ ("optimized" ++ ("." ++ extension)) := by
        rw [hdot, String.append_assoc]
      rw [hcopy, hoptimized] at hends
      have htext := congrArg String.toList (append_injective "." hends)
      rwa [String.toList_append, String.toList_append, String.toList_append, hrest] at htext
    have hsame := congrArg (List.takeWhile (· != '.')) htext
    rw [(span_mark (by decide) _).1, (span_mark hextension _).1] at hsame
    obtain rfl : extension = "optimized" := (String.toList_injective hsame).symm
    exact hlast ".optimized." ("." ++ "optimized" ++ middle) hends

/-- **No copy of a file has the name of an artifact of that file.** -/
theorem not_mem_artifacts_of_isCopyName {name copy : String} (hname : IsName name)
    (hcopy : IsCopyName name copy) :
    copy ∉ [optimizedName name, mapName name, manifestName name] := by
  obtain ⟨stem, hsplit⟩ := hcopy.splitName_eq hname
  have hmap : copy ≠ mapName name := by
    rintro rfl
    rw [splitName_mapName hname] at hsplit
    simp at hsplit
  have hmanifest : copy ≠ manifestName name := by
    rintro rfl
    rw [splitName_manifestName] at hsplit
    simp at hsplit
  simp [(optimizedName_ne_of_isCopyName hcopy).symm, hmap, hmanifest]

/-- The random part of a name is made of digits. -/
theorem isDigit_of_mem_drawnPart {n : Nat} {c : Char} (h : c ∈ (Disk.drawnPart n).toList) :
    c.isDigit = true := by
  rw [Disk.drawnPart, String.toList_append, String.toList_ofList, List.mem_append] at h
  rcases h with h | h
  · rw [List.eq_of_mem_replicate h]
    rfl
  · rw [Nat.toString_eq_ofList_toDigits, String.toList_ofList] at h
    exact Nat.isDigit_of_mem_toDigits (by decide) (by decide) h

/-- Different draws are different texts until they come round: leading zeros do not change a number. -/
theorem drawnPart_eq_iff {m n : Nat} :
    Disk.drawnPart m = Disk.drawnPart n ↔ m % Disk.drawnCount = n % Disk.drawnCount := by
  have hzeros : ∀ k, Nat.ofDigitChars 10 (List.replicate k '0') 0 = 0 := by
    intro k
    induction k with
    | zero => rfl
    | succ k ih => rw [List.replicate_succ]; exact ih
  have hvalue : ∀ k, Nat.ofDigitChars 10 (Disk.drawnPart k).toList 0 = k % Disk.drawnCount := by
    intro k
    rw [Disk.drawnPart, String.toList_append, String.toList_ofList, Nat.toString_eq_ofList_toDigits,
      String.toList_ofList, Nat.ofDigitChars_append, hzeros, Nat.ofDigitChars_ten_toDigits]
  refine ⟨fun h => ?_, fun h => by rw [Disk.drawnPart, Disk.drawnPart, h]⟩
  rw [← hvalue m, h, hvalue n]

/-- All draws are equally long. -/
theorem length_drawnPart (n : Nat) : (Disk.drawnPart n).length = Disk.drawnLength := by
  have hlt : n % Disk.drawnCount < 10 ^ Disk.drawnLength := Nat.mod_lt _ (by decide)
  have hle := (Nat.length_toDigits_le_iff (b := 10) (by decide) (by decide)).2 hlt
  rw [Disk.drawnPart, String.length_append, String.length_ofList, List.length_replicate,
    Nat.toString_eq_ofList_toDigits, String.length_ofList]
  omega

theorem isCopyName_append {name : String} (h : IsName name) : IsCopyName name (name ++ ".bak") := by
  refine ⟨isName_append ⟨h.no_slash, h.no_nul⟩ (by decide) (by decide), "", ?_, .inl rfl⟩
  rw [String.append_empty, String.append_assoc]
  rfl

theorem isCopyName_drawn {name : String} (h : IsName name) (n : Nat) :
    IsCopyName name (name ++ "." ++ Disk.drawnPart n ++ ".bak") := by
  have hdigits : ∀ c, c.isDigit = false → c ∉ (Disk.drawnPart n).toList := by
    intro c hc hmem
    rw [isDigit_of_mem_drawnPart hmem] at hc
    cases hc
  refine ⟨isName_append ?_ (by decide) (by decide), "." ++ Disk.drawnPart n, ?_, .inr ⟨_, rfl⟩⟩
  · simp [h.no_slash, h.no_nul, hdigits '/' (by decide), hdigits '\x00' (by decide)]
  · simp only [String.append_assoc]
    rfl

/-! ## Paths of artifacts -/

/-- The options that name artifacts as usual. -/
def usual (emitMap : Bool) : Output := { emitPositionMap := emitMap }

theorem artifact_paths_eq {p : Path} {name : String} (h : p.fileName? = some name) (emitMap : Bool) :
    (usual emitMap).optimizedPath p = p.withFileName (optimizedName name) ∧
      (usual emitMap).manifestPath p = p.withFileName (manifestName name) := by
  rw [optimizedPath, manifestPath, Path.extension?, Path.stem, h, optimizedName, manifestName]
  simp only [Option.bind_some, Option.map_some, Option.getD_some]
  refine ⟨?_, rfl⟩
  cases Path.splitName name with
  | mk stem extension => cases extension <;> rfl

/-- Where a module is, its artifacts go. -/
theorem artifacts_at {disk : Disk} {p : Path} {location : Location} {name : String}
    (h : disk.At p location name) (emitMap : Bool) :
    disk.At ((usual emitMap).optimizedPath p) location (optimizedName name) ∧
      disk.At ((usual emitMap).positionMapPath p) location (mapName name) ∧
      disk.At ((usual emitMap).manifestPath p) location (manifestName name) := by
  obtain ⟨hoptimized, hmanifest⟩ := artifact_paths_eq h.fileName?_eq emitMap
  rw [positionMapPath, hoptimized, hmanifest]
  have hat := h.sibling (isName_optimizedName h.isName)
  exact ⟨hat, hat.append (isName_mapName h.isName), h.sibling (isName_manifestName h.isName)⟩

/-- The artifacts of a module have its steps, up to the last. -/
theorem components_artifacts {p directory : Path} {name : String} (h : p.IsIn directory name)
    (emitMap : Bool) :
    ((usual emitMap).optimizedPath p).components = directory.components ++ [.name (optimizedName name)] ∧
      ((usual emitMap).positionMapPath p).components = directory.components ++ [.name (mapName name)] ∧
      ((usual emitMap).manifestPath p).components =
        directory.components ++ [.name (manifestName name)] := by
  obtain ⟨hoptimized, hmanifest⟩ := artifact_paths_eq h.fileName?_eq emitMap
  obtain ⟨directory', hin, halike⟩ := h.exists_withFileName (isName_optimizedName h.isName)
  rw [positionMapPath, hoptimized, hmanifest, hin.components_eq,
    (hin.append (isName_mapName h.isName)).components_eq, halike.components,
    h.components_withFileName (isName_manifestName h.isName)]
  exact ⟨rfl, rfl, rfl⟩

end Output

end Abridge
