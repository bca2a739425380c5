import Abridge.Proofs.Settling
import Mathlib.Data.Finset.Card
import Mathlib.Data.String.Basic

/-!
# Room for copies

A module is loaded only if there is room for its copy.  The copy takes a plain name if that is free.
Otherwise a random part is drawn, again and again until a name is free.  All of these names have one length,
and the drawing does not end before every part has been tried or there were more of them than entries on the
disk.  So whether there is a copy depends on the disk and not on the draws (`Backup.createUnique_cases`).

Two disks may have copies in different places and still have the same room for more of them.  They load the
same modules, and what cannot be loaded fails for the same reason (`Disk.loadModules_sameRoom`).

## What is here

* `Output.drawnCopy`: the name of a copy with a random part.
* `Disk.free`, `Backup.createUnique_cases`: what can be drawn.
* `Disk.SameRoom`: two disks with the same room for copies.
* `Disk.loadModules_sameRoom`: what is loaded from them.
-/

set_option autoImplicit false

namespace Abridge

/-! ## Names of copies -/

namespace Output

/-- What a copy is called for which the random part with a number was drawn. -/
def drawnCopy (name : String) (n : Nat) : String := name ++ "." ++ Disk.drawnPart n ++ ".bak"

theorem splitName_drawn {name : String} (h : IsName name) (n : Nat) :
    Path.splitName (name ++ "." ++ Disk.drawnPart n) = (name, some (Disk.drawnPart n)) := by
  refine Path.splitName_append h.nonempty fun hmem => ?_
  cases isDigit_of_mem_drawnPart hmem

theorem drawnCopy_eq_iff {name name' : String} (h : IsName name) (h' : IsName name') {m n : Nat} :
    drawnCopy name m = drawnCopy name' n ↔
      name = name' ∧ m % Disk.drawnCount = n % Disk.drawnCount := by
  constructor
  · intro heq
    have hparts := congrArg Path.splitName ((String.append_left_inj ".bak").1 heq)
    rw [splitName_drawn h, splitName_drawn h'] at hparts
    obtain ⟨rfl, hpart⟩ := Prod.mk.inj hparts
    exact ⟨rfl, drawnPart_eq_iff.1 (Option.some_inj.1 hpart)⟩
  · rintro ⟨rfl, hmod⟩
    rw [drawnCopy, drawnCopy, drawnPart_eq_iff.2 hmod]

/-- The plain name of a module's copy is never drawn: no module has the random part as its extension. -/
theorem drawnCopy_ne_append {name name' : String} (h : ({} : ArtifactMarkers).isModule name = true)
    (h' : IsName name') (n : Nat) : drawnCopy name' n ≠ name ++ ".bak" := by
  intro heq
  obtain rfl := (String.append_left_inj ".bak").1 heq
  rw [ArtifactMarkers.isModule, splitName_drawn h'] at h
  dsimp only at h
  have hextension : (Disk.drawnPart n).map Char.toLower ∈ moduleExtensions := by
    simp only [Bool.and_eq_true] at h
    exact List.contains_iff_mem.1 h.1.1.1
  have hlengths : ∀ extension ∈ moduleExtensions, extension.length ≤ 3 := by decide
  have hlength := hlengths _ hextension
  rw [String.length_map, length_drawnPart] at hlength
  exact absurd hlength (by decide)

/-- All names that can be drawn for a copy are equally long. -/
theorem utf8ByteSize_drawnCopy (name : String) (n : Nat) :
    (drawnCopy name n).utf8ByteSize = name.utf8ByteSize + 11 := by
  have hdigit : ∀ c : Char, c.isDigit = true → c.utf8Size = 1 := by
    intro c hc
    rw [Char.utf8Size_eq_one_iff]
    have hle : c.val ≤ 57 := by
      rw [Char.isDigit, Bool.and_eq_true, decide_eq_true_iff, decide_eq_true_iff] at hc
      exact hc.2
    exact UInt32.le_trans hle (by decide)
  have hdigits : ∀ cs : List Char, (∀ c ∈ cs, c.isDigit = true) → String.utf8Len cs = cs.length := by
    intro cs hcs
    induction cs with
    | nil => rfl
    | cons c cs ih =>
      obtain ⟨hc, hcs⟩ := List.forall_mem_cons.1 hcs
      rw [String.utf8Len_cons, ih hcs, hdigit c hc, List.length_cons]
  have hpart : (Disk.drawnPart n).utf8ByteSize = 6 := by
    rw [← String.ofList_toList (s := Disk.drawnPart n), String.utf8ByteSize_ofList,
      hdigits _ fun c => isDigit_of_mem_drawnPart, String.length_toList, length_drawnPart]
    rfl
  rw [drawnCopy, String.utf8ByteSize_append, String.utf8ByteSize_append, String.utf8ByteSize_append, hpart]
  rfl

end Output

open Output (drawnCopy)

namespace Disk

/-! ## Drawing -/

variable {disk disk' : Disk} {p : Path} {location : Location} {name : String} {contents : ByteArray}

/-- Nothing is created where something is. -/
theorem Names.create_eq_error (h : disk.Names p location) (htaken : disk.at? location ≠ none) :
    disk.create p contents = .error .alreadyExists := by
  obtain ⟨parent, name, haim, rfl⟩ := h
  obtain ⟨entry, hentry⟩ := Option.ne_none_iff_exists'.1 htaken
  rw [create, haim]
  dsimp only
  rw [hentry]

/-- Nothing is created under a name that is too long. -/
theorem At.create_eq_error (h : disk.At p location name) (hlong : nameLimit < name.utf8ByteSize) :
    disk.create p contents = .error .nameTooLong := by
  rw [create, h.aim_eq, if_pos hlong]

theorem At.drawnCopy (h : disk.At p location name) (n : Nat) :
    disk.At (p.directory.join (drawnCopy name n)) location (drawnCopy name n) :=
  h.beside (Output.isCopyName_drawn h.isName n).isName

/-- **Drawing ends with a name that is free**, or all names that it tries are taken. -/
theorem createDrawn_cases (h : disk.At p location name)
    (hshort : (drawnCopy name 0).utf8ByteSize ≤ nameLimit) {fuel : Nat} : ∀ {n : Nat},
      (∃ k copy made, disk.at? (location ++ [drawnCopy name k]) = none ∧
        disk.createDrawn p.directory (name ++ ".") ".bak" contents n fuel = .ok (copy, made) ∧
        (disk.set (location ++ [drawnCopy name k]) (.file contents)).Same made) ∨
      (∀ k, n ≤ k → k < n + fuel → disk.at? (location ++ [drawnCopy name k]) ≠ none) ∧
        disk.createDrawn p.directory (name ++ ".") ".bak" contents n fuel = .error .alreadyExists := by
  induction fuel with
  | zero => exact .inr ⟨fun k hk hk' => absurd hk' (Nat.not_lt.2 hk), rfl⟩
  | succ fuel ih =>
    intro n
    have hnames : disk.Names (p.directory.join (drawnCopy name n)) (location ++ [drawnCopy name n]) := by
      refine (h.drawnCopy n).names ?_
      rwa [Output.utf8ByteSize_drawnCopy, ← Output.utf8ByteSize_drawnCopy name 0]
    have hname : DrawnName.text ⟨name ++ ".", drawnPart n, ".bak"⟩ = drawnCopy name n := rfl
    rw [createDrawn, hname]
    by_cases hfree : disk.at? (location ++ [drawnCopy name n]) = none
    · rw [hnames.create_eq hfree]
      exact .inl ⟨n, _, _, hfree, rfl, ⟨rfl, fun _ => rfl⟩⟩
    · rw [hnames.create_eq_error hfree]
      rcases ih (n := n + 1) with hdrawn | ⟨htaken, heq⟩
      · exact .inl hdrawn
      · refine .inr ⟨fun k hk hk' => ?_, heq⟩
        rcases Nat.eq_or_lt_of_le hk with rfl | hlt
        · exact hfree
        · exact htaken k hlt (by omega)

/-- Nothing is drawn where names are too long. -/
theorem createDrawn_long (h : disk.At p location name)
    (hlong : nameLimit < (drawnCopy name 0).utf8ByteSize) (n fuel : Nat) :
    disk.createDrawn p.directory (name ++ ".") ".bak" contents n (fuel + 1) = .error .nameTooLong := by
  have hname : DrawnName.text ⟨name ++ ".", drawnPart n, ".bak"⟩ = drawnCopy name n := rfl
  rw [createDrawn, hname, (h.drawnCopy n).create_eq_error]
  rwa [Output.utf8ByteSize_drawnCopy, ← Output.utf8ByteSize_drawnCopy name 0]

/-- The random parts that are left for copies of a name at a location. -/
def free (disk : Disk) (location : Location) (name : String) : Finset Nat :=
  (Finset.range drawnCount).filter fun k => disk.at? (location ++ [drawnCopy name k]) = none

theorem mem_free {k : Nat} : k ∈ disk.free location name ↔
    k < drawnCount ∧ disk.at? (location ++ [drawnCopy name k]) = none := by
  rw [free, Finset.mem_filter, Finset.mem_range]

theorem Same.free_eq (h : disk.Same disk') (location : Location) (name : String) :
    disk'.free location name = disk.free location name := by
  ext k
  rw [mem_free, mem_free, h.entries]

/-- What is put under another name leaves all random parts. -/
theorem free_set_of_ne {copy : String} {place : Location} {other : String}
    (h : ∀ k, location ++ [copy] ≠ place ++ [drawnCopy other k]) (disk : Disk) (entry : Entry) :
    (disk.set (location ++ [copy]) entry).free place other = disk.free place other := by
  ext k
  rw [mem_free, mem_free,
    at?_set disk (List.append_ne_nil_of_right_ne_nil _ (List.cons_ne_nil _ _)), if_neg (h k)]

/-- What is put under a drawn name takes its random part away. -/
theorem free_set_drawnCopy (hname : IsName name) {n : Nat} (hn : n ∈ disk.free location name)
    (entry : Entry) :
    (disk.set (location ++ [drawnCopy name n]) entry).free location name =
      (disk.free location name).erase n := by
  have hsmall := (mem_free.1 hn).1
  ext k
  rw [Finset.mem_erase, mem_free, mem_free,
    at?_set disk (List.append_ne_nil_of_right_ne_nil _ (List.cons_ne_nil _ _))]
  by_cases heq : k = n
  · subst heq
    simp
  · have hne : k < drawnCount → location ++ [drawnCopy name n] ≠ location ++ [drawnCopy name k] := by
      intro hk hsame
      have hcopy := List.singleton_inj.1 (List.append_cancel_left hsame)
      obtain ⟨-, hmod⟩ := (Output.drawnCopy_eq_iff hname hname).1 hcopy
      rw [Nat.mod_eq_of_lt hsmall, Nat.mod_eq_of_lt hk] at hmod
      exact heq hmod.symm
    constructor
    · rintro ⟨hk, hfree⟩
      rw [if_neg (hne hk)] at hfree
      exact ⟨heq, hk, hfree⟩
    · rintro ⟨-, hk, hfree⟩
      rw [if_neg (hne hk)]
      exact ⟨hk, hfree⟩

/-- **No part is left when so many in a row are taken.**  There are not as many entries on the disk as that, so
the parts have come round. -/
theorem free_eq_empty (hname : IsName name) {n : Nat} (htaken : ∀ k, n ≤ k →
    k < n + (disk.entries.length + 1) → disk.at? (location ++ [drawnCopy name k]) ≠ none) :
    disk.free location name = ∅ := by
  have hcount : drawnCount = 1000000 := rfl
  refine Finset.eq_empty_of_forall_notMem fun j hj => ?_
  obtain ⟨hlt, hfree⟩ := mem_free.1 hj
  rcases Nat.lt_or_ge (disk.entries.length) (drawnCount) with hfew | hmany
  · -- The names are different, and each of them is on the disk.
    have hnodup : ((List.range' n (disk.entries.length + 1)).map
        fun k => location ++ [drawnCopy name k]).Nodup := by
      refine (List.nodup_range' 1).map_on fun k hk k' hk' heq => ?_
      rw [List.mem_range'_1] at hk hk'
      have heq := List.singleton_inj.1 (List.append_cancel_left heq)
      obtain ⟨-, hmod⟩ := (Output.drawnCopy_eq_iff hname hname).1 heq
      rw [hcount] at hmod hfew
      omega
    have hsub : ((List.range' n (disk.entries.length + 1)).map
        fun k => location ++ [drawnCopy name k]) ⊆ disk.entries.map Prod.fst := by
      intro l hl
      obtain ⟨k, hk, rfl⟩ := List.mem_map.1 hl
      rw [List.mem_range'_1] at hk
      obtain ⟨entry, hentry⟩ := Option.ne_none_iff_exists'.1 (htaken k hk.1 hk.2)
      have hget : disk.entries.get? (location ++ [drawnCopy name k]) = some entry := by
        cases location <;> exact hentry
      exact List.mem_map_of_mem (Table.mem_of_get? hget)
    have hle := hnodup.length_le_of_subset hsub
    rw [List.length_map, List.length_map, List.length_range'] at hle
    omega
  · obtain ⟨k, hk, hk', hmod⟩ : ∃ k, n ≤ k ∧ k < n + drawnCount ∧ k % drawnCount = j := by
      rw [hcount] at hlt ⊢
      exact ⟨n + (j + (1000000 - n % 1000000)) % 1000000, by omega, by omega, by omega⟩
    refine htaken k hk (by omega) ?_
    have hmod : k % drawnCount = j % drawnCount := hmod.trans (Nat.mod_eq_of_lt hlt).symm
    rwa [(Output.drawnCopy_eq_iff hname hname).2 ⟨rfl, hmod⟩]

end Disk

namespace Backup

open Disk

variable {disk : Disk} {p : Path} {location : Location} {name : String}

/-- A unique name is a drawn one. -/
theorem createUnique_eq (h : disk.At p location name) (contents : ByteArray) :
    createUnique disk p ".bak" contents =
      (disk.createDrawn p.directory (name ++ ".") ".bak" contents disk.drawn.length
        (disk.entries.length + 1)).mapError fun e => .disk p.directory e := by
  unfold createUnique Disk.createUnique
  rw [h.fileName?_eq, Option.getD_some]
  generalize p.directory = directory
  cases disk.createDrawn directory (name ++ ".") ".bak" contents disk.drawn.length
    (disk.entries.length + 1) <;> rfl

/-- **A name is drawn for a copy if one is left and is not too long.**  What number the drawing starts with
does not matter. -/
theorem createUnique_cases (h : disk.At p location name) (contents : ByteArray) :
    (nameLimit < (drawnCopy name 0).utf8ByteSize ∧
      createUnique disk p ".bak" contents = .error (.disk p.directory .nameTooLong)) ∨
    (drawnCopy name 0).utf8ByteSize ≤ nameLimit ∧
      (disk.free location name = ∅ ∧
        createUnique disk p ".bak" contents = .error (.disk p.directory .alreadyExists) ∨
      ∃ k ∈ disk.free location name, ∃ copy made, createUnique disk p ".bak" contents = .ok (copy, made) ∧
        (disk.set (location ++ [drawnCopy name k]) (.file contents)).Same made) := by
  rw [createUnique_eq h]
  rcases Nat.lt_or_ge nameLimit (drawnCopy name 0).utf8ByteSize with hlong | hshort
  · exact .inl ⟨hlong, by rw [createDrawn_long h hlong]; rfl⟩
  refine .inr ⟨hshort, ?_⟩
  rcases createDrawn_cases h hshort with ⟨k, copy, made, hfree, heq, hsame⟩ | ⟨htaken, heq⟩
  · -- The number comes round to a part that is left.
    have hpart : drawnCopy name (k % drawnCount) = drawnCopy name k :=
      (Output.drawnCopy_eq_iff h.isName h.isName).2 ⟨rfl, Nat.mod_mod _ _⟩
    have hmem : k % drawnCount ∈ disk.free location name :=
      mem_free.2 ⟨Nat.mod_lt _ (by decide), by rwa [hpart]⟩
    exact .inr ⟨_, hmem, copy, made, by rw [heq]; rfl, by rwa [hpart]⟩
  · exact .inl ⟨free_eq_empty h.isName htaken, by rw [heq]; rfl⟩

end Backup

namespace Disk

/-! ## Disks with the same room -/

variable {disk disk' : Disk}

/-- Two disks have the same room for copies of modules: the same plain names are free, and as many random
parts are left. -/
structure SameRoom (disk disk' : Disk) : Prop where
  plain : ∀ {location : Location} {name : String}, ({} : ArtifactMarkers).isModule name = true →
    IsName name → (disk'.at? (location ++ [name ++ ".bak"]) = none ↔
      disk.at? (location ++ [name ++ ".bak"]) = none)
  drawn : ∀ {location : Location} {name : String}, ({} : ArtifactMarkers).isModule name = true →
    IsName name → (disk'.free location name).card = (disk.free location name).card

namespace SameRoom

theorem congr (h : disk.SameRoom disk') {next next' : Disk} (hsame : disk.Same next)
    (hsame' : disk'.Same next') : next.SameRoom next' := by
  refine ⟨fun hmodule hname => ?_, fun hmodule hname => ?_⟩
  · rw [hsame.entries, hsame'.entries]
    exact h.plain hmodule hname
  · rw [hsame.free_eq, hsame'.free_eq]
    exact h.drawn hmodule hname

/-- Disks have the same room when they have the same where copies may go. -/
theorem of_copies (h : ∀ location name copy, ({} : ArtifactMarkers).isModule name = true → IsName name →
    Output.IsCopyName name copy → disk'.at? (location ++ [copy]) = disk.at? (location ++ [copy])) :
    disk.SameRoom disk' := by
  refine ⟨fun {location name} hmodule hname => ?_, fun {location name} hmodule hname => ?_⟩
  · rw [h _ _ _ hmodule hname (Output.isCopyName_append hname)]
  · have hfree : disk'.free location name = disk.free location name := by
      ext k
      rw [mem_free, mem_free, drawnCopy, h _ _ _ hmodule hname (Output.isCopyName_drawn hname k)]
    rw [hfree]

variable {location : Location} {name : String}

/-- A copy under its plain name takes the same room on both. -/
theorem setPlain (h : disk.SameRoom disk') (hmodule : ({} : ArtifactMarkers).isModule name = true)
    (entry : Entry) : (disk.set (location ++ [name ++ ".bak"]) entry).SameRoom
      (disk'.set (location ++ [name ++ ".bak"]) entry) := by
  have hne : location ++ [name ++ ".bak"] ≠ [] := List.append_ne_nil_of_right_ne_nil _ (List.cons_ne_nil _ _)
  have hother : ∀ {place : Location} {other : String}, IsName other →
      ∀ k, location ++ [name ++ ".bak"] ≠ place ++ [drawnCopy other k] := fun hother k heq =>
    Output.drawnCopy_ne_append hmodule hother k (List.singleton_inj.1 (List.append_inj' heq rfl).2).symm
  refine ⟨fun hmodule' hname' => ?_, fun hmodule' hname' => ?_⟩
  · rw [at?_set disk hne, at?_set disk' hne]
    split
    · exact Iff.rfl
    · exact h.plain hmodule' hname'
  · rw [free_set_of_ne (hother hname'), free_set_of_ne (hother hname')]
    exact h.drawn hmodule' hname'

/-- A copy under a drawn name takes the same room on both, whatever was drawn. -/
theorem setDrawn (h : disk.SameRoom disk') (hmodule : ({} : ArtifactMarkers).isModule name = true)
    (hname : IsName name) {k k' : Nat} (hk : k ∈ disk.free location name)
    (hk' : k' ∈ disk'.free location name) (entry : Entry) :
    (disk.set (location ++ [drawnCopy name k]) entry).SameRoom
      (disk'.set (location ++ [drawnCopy name k']) entry) := by
  have hplain : ∀ (disk : Disk) (n : Nat) {place : Location} {other : String},
      ({} : ArtifactMarkers).isModule other = true →
      (disk.set (location ++ [drawnCopy name n]) entry).at? (place ++ [other ++ ".bak"]) =
        disk.at? (place ++ [other ++ ".bak"]) := by
    intro disk n place other hother
    rw [at?_set disk (List.append_ne_nil_of_right_ne_nil _ (List.cons_ne_nil _ _)), if_neg]
    intro heq
    exact Output.drawnCopy_ne_append hother hname n (List.singleton_inj.1 (List.append_inj' heq rfl).2)
  refine ⟨fun {place other} hmodule' hname' => ?_, fun {place other} hmodule' hname' => ?_⟩
  · rw [hplain _ _ hmodule', hplain _ _ hmodule']
    exact h.plain hmodule' hname'
  · by_cases hsame : location = place ∧ name = other
    · obtain ⟨rfl, rfl⟩ := hsame
      rw [free_set_drawnCopy hname hk, free_set_drawnCopy hname hk', Finset.card_erase_of_mem hk,
        Finset.card_erase_of_mem hk', h.drawn hmodule hname]
    · have hother : ∀ n m, location ++ [drawnCopy name n] ≠ place ++ [drawnCopy other m] := by
        intro n m heq
        obtain ⟨hplace, hcopy⟩ := List.append_inj' heq rfl
        obtain ⟨hnames, -⟩ := (Output.drawnCopy_eq_iff hname hname').1 (List.singleton_inj.1 hcopy)
        exact hsame ⟨hplace, hnames⟩
      rw [free_set_of_ne (hother k), free_set_of_ne (hother k')]
      exact h.drawn hmodule' hname'

end SameRoom

end Disk

/-! ## Loading -/

namespace Backup

open Disk

variable {disk disk' : Disk} {p : Path} {location : Location} {name : String} {contents : ByteArray}

/-- **How a file is copied aside**: under the plain name if that is free, and under a unique one otherwise. -/
theorem create_eq (h : disk.At p location name) (hread : disk.read p = .ok contents) :
    create disk p ".bak" =
      if nameLimit < (name ++ ".bak").utf8ByteSize then .error (.disk (p.append ".bak") .nameTooLong)
      else if disk.at? (location ++ [name ++ ".bak"]) = none then
        .ok (⟨p, p.append ".bak", Abridge.fingerprint contents⟩,
          disk.set (location ++ [name ++ ".bak"]) (.file contents))
      else (createUnique disk p ".bak" contents).map fun made =>
        (⟨p, made.1, Abridge.fingerprint contents⟩, made.2) := by
  have hat : disk.At (p.append ".bak") location (name ++ ".bak") :=
    h.append (Output.isCopyName_append h.isName).isName
  rw [create, createOn, hread]
  dsimp only
  rw [taken_sound, Output.backupPath, Medium.sound]
  by_cases hlong : nameLimit < (name ++ ".bak").utf8ByteSize
  · rw [if_pos hlong, hat.create_eq_error hlong]
  have hnames := hat.names (Nat.le_of_not_lt hlong)
  rw [if_neg hlong]
  by_cases hfree : disk.at? (location ++ [name ++ ".bak"]) = none
  · rw [if_pos hfree, hnames.create_eq hfree]
  · rw [if_neg hfree, hnames.create_eq_error hfree]
    generalize createUnique disk p ".bak" contents = made
    cases made <;> rfl

/-- **A module is copied aside on both of two disks with the same room, or on neither**, and then for the same
reason. -/
theorem create_sameRoom (h : disk.SameRoom disk') (hmodule : ({} : ArtifactMarkers).isModule name = true)
    (hat : disk.At p location name) (hat' : disk'.At p location name)
    (hread : disk'.read p = disk.read p) :
    (∃ e, create disk p ".bak" = .error e ∧ create disk' p ".bak" = .error e) ∨
      ∃ b b' next next', create disk p ".bak" = .ok (b, next) ∧
        create disk' p ".bak" = .ok (b', next') ∧ next.SameRoom next' := by
  cases hcontents : disk.read p with
  | error e =>
    rw [hcontents] at hread
    exact .inl ⟨.disk p e, by rw [create, createOn, hcontents], by rw [create, createOn, hread]⟩
  | ok contents =>
    rw [hcontents] at hread
    rw [create_eq hat hcontents, create_eq hat' hread]
    have hplain := @h.plain location name hmodule hat.isName
    split
    · exact .inl ⟨_, rfl, rfl⟩
    by_cases hfree : disk.at? (location ++ [name ++ ".bak"]) = none
    · rw [if_pos hfree, if_pos (hplain.2 hfree)]
      exact .inr ⟨_, _, _, _, rfl, rfl, h.setPlain hmodule _⟩
    rw [if_neg hfree, if_neg (mt hplain.1 hfree)]
    have hcard := @h.drawn location name hmodule hat.isName
    rcases createUnique_cases hat contents with
        ⟨hlong, heq⟩ | ⟨hshort, ⟨hnone, heq⟩ | ⟨k, hk, copy, made, heq, hsame⟩⟩ <;>
      rcases createUnique_cases hat' contents with
        ⟨hlong', heq'⟩ | ⟨hshort', ⟨hnone', heq'⟩ | ⟨k', hk', copy', made', heq', hsame'⟩⟩ <;>
      rw [heq, heq']
    · exact .inl ⟨_, rfl, rfl⟩
    · omega
    · omega
    · omega
    · exact .inl ⟨_, rfl, rfl⟩
    · rw [hnone, Finset.card_empty, Finset.card_eq_zero] at hcard
      exact absurd hk' (hcard ▸ Finset.notMem_empty k')
    · omega
    · rw [hnone', Finset.card_empty, eq_comm, Finset.card_eq_zero] at hcard
      exact absurd hk (hcard ▸ Finset.notMem_empty k)
    · exact .inr ⟨_, _, _, _, rfl, rfl, (h.setDrawn hmodule hat.isName hk hk' _).congr hsame hsame'⟩

end Backup

namespace Disk

variable {disk disk' : Disk} {p : Path}

/-- **A module is loaded from both of two disks with the same room, or from neither.** -/
theorem loadModule_sameRoom (h : disk.SameRoom disk') {location : Location} {name : String}
    (hmodule : ({} : ArtifactMarkers).isModule name = true) (hat : disk.At p location name)
    (hat' : disk'.At p location name) (hread : disk'.read p = disk.read p) :
    (∃ e next next', disk.loadModule ".bak" p = (next, .error e) ∧
      disk'.loadModule ".bak" p = (next', .error e) ∧ next.SameRoom next') ∨
    ∃ b b' m next next', disk.loadModule ".bak" p = (next, .ok (b, m)) ∧
      disk'.loadModule ".bak" p = (next', .ok (b', m)) ∧ next.SameRoom next' := by
  have htext : disk'.readText p = disk.readText p := by rw [readText, readText, hread]
  rcases Backup.create_sameRoom h hmodule hat hat' hread with
    ⟨e, heq, heq'⟩ | ⟨b, b', made, made', heq, heq', hroom⟩
  · exact .inl ⟨e, disk, disk', loadModule_of_create_eq_error heq, loadModule_of_create_eq_error heq', h⟩
  rcases loadModule_of_create heq with ⟨text, hok, hload⟩ | ⟨e, settled, herror, hload, hsame⟩ <;>
    rcases loadModule_of_create heq' with ⟨text', hok', hload'⟩ | ⟨e', settled', herror', hload', hsame'⟩
  · obtain rfl := Except.ok.inj (hok.symm.trans (htext.symm.trans hok'))
    exact .inr ⟨b, b', _, made, made', hload, hload', hroom⟩
  · cases hok.symm.trans (htext.symm.trans herror')
  · cases herror.symm.trans (htext.symm.trans hok')
  · obtain rfl := Except.error.inj (herror.symm.trans (htext.symm.trans herror'))
    exact .inl ⟨_, settled, settled', hload, hload', h.congr hsame hsame'⟩

/-- **The same modules are loaded from disks with the same room.**  `before` and `before'` are the disks
without the copies that were made so far. -/
theorem loadModules_sameRoom {before before' : Disk} {goOn : Bool} {paths : List Path} :
    ∀ {disk disk' copied : Disk} {loaded loaded' result : Loaded} {locations locations' : List Location}
      {failure : Option Failure}, (∀ p ∈ paths, ∃ r location name, before.stat p = .ok r ∧
        before'.stat p = .ok r ∧ before'.read p = before.read p ∧
        ({} : ArtifactMarkers).isModule name = true ∧ before.At p location name ∧
        before'.At p location name) →
      disk.loadModules ".bak" goOn loaded paths = (copied, result, failure) →
      before.Holds disk loaded.backups locations → before'.Holds disk' loaded'.backups locations' →
      disk.SameRoom disk' → loaded'.modules = loaded.modules → loaded'.failed = loaded.failed →
      ∃ copied' result', disk'.loadModules ".bak" goOn loaded' paths = (copied', result', failure) ∧
        result'.modules = result.modules ∧ result'.failed = result.failed := by
  induction paths with
  | nil =>
    intro disk disk' copied loaded loaded' result locations locations' failure _ hload _ _ _ hmodules hfailed
    cases hload
    exact ⟨disk', loaded', rfl, hmodules, hfailed⟩
  | cons p paths ih =>
    intro disk disk' copied loaded loaded' result locations locations' failure hpaths hload hholds hholds'
      hroom hmodules hfailed
    obtain ⟨⟨r, location, name, hstat, hstat', hread, hmodule, hat, hat'⟩, hpaths⟩ :=
      List.forall_mem_cons.1 hpaths
    have hread' : disk'.read p = disk.read p := by
      rw [hholds'.read_eq hstat', hholds.read_eq hstat, hread]
    rcases loadModule_sameRoom hroom hmodule (hat.mono hholds.sameWays.1) (hat'.mono hholds'.sameWays.1)
      hread' with ⟨e, next, next', heq, heq', hnext⟩ | ⟨b, b', m, next, next', heq, heq', hnext⟩
    · have hkeeps := hholds.congr (same_of_loadModule heq)
      have hkeeps' := hholds'.congr (same_of_loadModule heq')
      rw [loadModules_cons_error heq] at hload
      rw [loadModules_cons_error heq']
      cases goOn with
      | true =>
        rw [if_pos rfl] at hload ⊢
        exact ih hpaths hload hkeeps hkeeps' hnext hmodules (congrArg (· ++ _) hfailed)
      | false =>
        rw [if_neg Bool.false_ne_true] at hload ⊢
        cases hload
        exact ⟨next', loaded', rfl, hmodules, hfailed⟩
    · obtain ⟨_, hkeeps⟩ := hholds.create hstat (loadModule_eq_ok heq).2.2
      obtain ⟨_, hkeeps'⟩ := hholds'.create hstat' (loadModule_eq_ok heq').2.2
      rw [loadModules_cons_ok heq] at hload
      rw [loadModules_cons_ok heq']
      exact ih hpaths hload hkeeps hkeeps' hnext (congrArg (· ++ _) hmodules) hfailed

end Disk

end Abridge
