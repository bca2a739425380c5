import Abridge.Proofs.Paths
import Abridge.Proofs.Spans
import Abridge.Proofs.Ways
import Mathlib.Data.List.Basic

/-!
# Paths side by side

What a run writes for a module stands beside it: the path of an artifact or of a copy is made from the path of
the module by giving it another last name.  Paths are texts, and the making goes by text: dots and empty
parts before the name are taken off and slashes are put in.  None of that matters to where the path leads
(`Disk.At.sibling`, `Disk.At.beside`), nor to its steps (`Path.components_withFileName`), so proofs about runs
need no text of a path.

## What is here

* `IsName`: the texts that files can have as names.
* `Path.IsIn`: a path that is a name in a directory.
* `Path.parent?_isIn`: its parent is that directory, whatever is taken off.
* `Disk.At`: a path that leads to a name in the directory at a location.
-/

set_option autoImplicit false

namespace Abridge

/-- A text that files can have as a name. -/
structure IsName (name : String) : Prop where
  nonempty : name.toList ≠ []
  no_slash : '/' ∉ name.toList
  no_nul : '\x00' ∉ name.toList
  not_dot : name.toList ≠ ['.']
  not_dots : name.toList ≠ ['.', '.']

/-- Whether a step leads on from where a path starts. -/
def Component.moves : Component → Bool
  | root | here => false
  | up | name _ => true

/-- A step that leads on, as it is written. -/
def Component.spelling : Component → String
  | up => ".."
  | c => c.text

namespace Path

/-! ## Parts and steps -/

theorem splitSlashes_ne_nil (cs : List Char) : splitSlashes cs ≠ [] := by
  fun_cases splitSlashes cs <;> simp_all

theorem splitSlashes_append (before after : List Char) :
    splitSlashes (before ++ '/' :: after) = splitSlashes before ++ splitSlashes after := by
  fun_induction splitSlashes before with
  | case1 => rfl
  | case2 cs ih => rw [List.cons_append, splitSlashes, ih, List.cons_append]
  | case3 c cs hslash hnil ih => exact absurd hnil (splitSlashes_ne_nil cs)
  | case4 c cs hslash part parts hparts ih =>
    rw [List.cons_append, splitSlashes.eq_3 _ _ hslash, ih, hparts]
    rfl

theorem splitSlashes_of_not_mem {cs : List Char} (h : '/' ∉ cs) : splitSlashes cs = [cs] := by
  induction cs with
  | nil => rfl
  | cons c cs ih =>
    rw [List.mem_cons, not_or] at h
    rw [splitSlashes.eq_3 _ _ (fun heq => h.1 heq.symm), ih h.2]

/-- The steps of a path from where it starts. -/
def steps (p : Path) : List Component := (splitSlashes p.text.toList).filterMap step?

/-- Where a path starts: at the root, here, or nowhere in particular. -/
def start (p : Path) : List Component :=
  if (splitSlashes p.text.toList).head? = some ['.'] then [.here]
  else if p.isAbsolute then [.root] else []

theorem components_eq_start_append (p : Path) : p.components = p.start ++ p.steps := by
  unfold components start steps
  by_cases hhead : (splitSlashes p.text.toList).head? = some ['.']
  · obtain ⟨rest, hrest⟩ := List.head?_eq_some_iff.1 hhead
    rw [hrest]
    rfl
  · rw [if_neg hhead]
    split
    · rename_i parts hparts
      exact absurd (congrArg List.head? hparts) hhead
    · rfl

theorem moves_of_mem_steps {p : Path} {c : Component} (h : c ∈ p.steps) : c.moves = true := by
  obtain ⟨part, -, hc⟩ := List.mem_filterMap.1 h
  unfold step? at hc
  split at hc <;> cases hc <;> rfl

theorem moves_of_mem_start {p : Path} {c : Component} (h : c ∈ p.start) : c.moves = false := by
  unfold start at h
  split_ifs at h
  · rw [List.mem_singleton.1 h]; rfl
  · rw [List.mem_singleton.1 h]; rfl
  · exact absurd h List.not_mem_nil

/-- Where a path starts and how it goes on can be told from its components. -/
theorem steps_eq_filter (p : Path) : p.steps = p.components.filter Component.moves := by
  rw [components_eq_start_append, List.filter_append,
    List.filter_eq_nil_iff.2 fun c hc => by rw [moves_of_mem_start hc]; exact Bool.false_ne_true,
    List.nil_append, List.filter_eq_self.2 fun c hc => moves_of_mem_steps hc]

theorem isAbsolute_iff (p : Path) : p.isAbsolute = true ↔ .root ∈ p.components := by
  have hsteps : Component.root ∉ p.steps := fun h => Bool.false_ne_true (moves_of_mem_steps h)
  rw [components_eq_start_append, List.mem_append, or_iff_left hsteps]
  unfold start
  constructor
  · intro habsolute
    have hhead : (splitSlashes p.text.toList).head? ≠ some ['.'] := by
      obtain ⟨rest, hrest⟩ := List.head?_eq_some_iff.1 (eq_of_beq habsolute)
      rw [hrest, splitSlashes]
      exact fun h => List.cons_ne_nil _ _ (Option.some_inj.1 h).symm
    rw [if_neg hhead, if_pos habsolute]
    exact List.mem_singleton.2 rfl
  · intro hroot
    split_ifs at hroot with hdot habsolute
    · exact absurd (List.mem_singleton.1 hroot) Component.noConfusion
    · exact habsolute
    · exact absurd hroot List.not_mem_nil

end Path

namespace Disk

/-! ## Where steps lead -/

theorem walk_append (disk : Disk) (links : Nat) (directory : Location) (before after : List String) :
    disk.walk links directory (before ++ after) =
      match disk.walk links directory before with
      | .error e => .error e
      | .ok (reached, links) => disk.walk links reached after := by
  fun_induction Disk.walk disk links directory before with
  | case1 => rfl
  | case2 _ _ _ ih => rw [List.cons_append, walk, ih]
  | case3 _ _ _ ih => rw [List.cons_append, walk, ih]
  | case4 _ _ _ _ hdot hdots hlong =>
    rw [List.cons_append, walk.eq_4 _ _ _ _ _ hdot hdots, if_pos hlong]
  | case5 _ _ _ _ hdot hdots hshort hentry =>
    rw [List.cons_append, walk.eq_4 _ _ _ _ _ hdot hdots, if_neg hshort, hentry]
  | case6 _ _ _ _ hdot hdots hshort _ hentry =>
    rw [List.cons_append, walk.eq_4 _ _ _ _ _ hdot hdots, if_neg hshort, hentry]
  | case7 _ _ _ _ hdot hdots hshort hentry ih =>
    rw [List.cons_append, walk.eq_4 _ _ _ _ _ hdot hdots, if_neg hshort, hentry]
    exact ih
  | case8 _ _ _ hdot hdots hshort _ hentry =>
    rw [List.cons_append, walk.eq_4 _ _ _ _ _ hdot hdots, if_neg hshort, hentry]
  | case9 _ _ _ hdot hdots hshort _ hentry _ ih =>
    rw [List.cons_append, walk.eq_4 _ _ _ _ _ hdot hdots, if_neg hshort, hentry]
    dsimp only
    rw [← ih, List.append_assoc]

/-- Dots lead nowhere. -/
theorem walk_filter (disk : Disk) (parts : List String) : ∀ (links : Nat) (directory : Location),
    disk.walk links directory (parts.filter (· != ".")) = disk.walk links directory parts := by
  induction parts with
  | nil => intro links directory; rfl
  | cons part parts ih =>
    intro links directory
    by_cases hdot : part = "."
    · subst hdot
      rw [walk]
      exact ih links directory
    · have hcons := walk_append disk links directory [part]
      rw [List.filter_cons, if_pos (bne_iff_ne.2 hdot)]
      exact (hcons _).trans (by simp only [ih, ← hcons, List.singleton_append])

theorem filter_parts (p : Path) : (parts p).filter (· != ".") = p.steps.map Component.spelling := by
  unfold parts Path.steps
  induction Path.splitSlashes p.text.toList with
  | nil => rfl
  | cons part rest ih =>
    rw [List.filterMap_cons, List.filterMap_cons]
    fun_cases Path.step? part with
    | case1 => exact ih
    | case2 => exact ih
    | case3 =>
      dsimp only
      rw [List.map_cons, ← ih]
      rfl
    | case4 _ hnil hdot =>
      have hne : String.ofList part ≠ "." := fun h => hdot (String.ofList_injective h)
      rw [if_neg (by rwa [List.isEmpty_iff])]
      dsimp only
      rw [List.map_cons, ← ih, List.filter_cons, if_pos (bne_iff_ne.2 hne)]
      rfl

/-- Paths with the same components lead to the same place. -/
theorem walk_eq_of_components {p q : Path} (h : p.components = q.components) (disk : Disk) (links : Nat)
    (directory : Location) :
    disk.walk links (origin p directory) (parts p) = disk.walk links (origin q directory) (parts q) := by
  have habsolute : p.isAbsolute = q.isAbsolute := by
    rw [Bool.eq_iff_iff, p.isAbsolute_iff, q.isAbsolute_iff, h]
  have hparts : (parts p).filter (· != ".") = (parts q).filter (· != ".") := by
    rw [filter_parts, filter_parts, p.steps_eq_filter, q.steps_eq_filter, h]
  rw [← walk_filter, hparts, walk_filter, origin, habsolute]
  rfl

end Disk

namespace Path

/-! ## Slashes and dots at the end -/

/-- Two paths have the same steps, and a NUL character in both or in neither. -/
structure Alike (p q : Path) : Prop where
  components : p.components = q.components
  nul : '\x00' ∈ p.text.toList ↔ '\x00' ∈ q.text.toList

theorem Alike.refl (p : Path) : p.Alike p := ⟨rfl, Iff.rfl⟩

theorem Alike.symm {p q : Path} (h : p.Alike q) : q.Alike p := ⟨h.components.symm, h.nul.symm⟩

theorem Alike.trans {p q r : Path} (h : p.Alike q) (h' : q.Alike r) : p.Alike r :=
  ⟨h.components.trans h'.components, h.nul.trans h'.nul⟩

theorem eq_of_step?_eq_none {part : List Char} (h : step? part = none) : part = [] ∨ part = ['.'] := by
  unfold step? at h
  split at h
  · exact .inl rfl
  · exact .inr rfl
  · cases h
  · cases h

/-- A part that is no step can be taken off with its slash. -/
theorem alike_append_slash {cs part : List Char} (hcs : cs ≠ []) (hpart : step? part = none) :
    Alike ⟨String.ofList (cs ++ '/' :: part)⟩ ⟨String.ofList cs⟩ := by
  have hslash : '/' ∉ part ∧ '\x00' ∉ part := by
    rcases eq_of_step?_eq_none hpart with rfl | rfl <;> decide
  have hsplit : splitSlashes (cs ++ '/' :: part) = splitSlashes cs ++ [part] := by
    rw [splitSlashes_append, splitSlashes_of_not_mem hslash.1]
  have hsteps : steps ⟨String.ofList (cs ++ '/' :: part)⟩ = steps ⟨String.ofList cs⟩ := by
    rw [steps, steps, String.toList_ofList, String.toList_ofList, hsplit, List.filterMap_append,
      List.filterMap_cons, hpart, List.filterMap_nil, List.append_nil]
  have hstart : start ⟨String.ofList (cs ++ '/' :: part)⟩ = start ⟨String.ofList cs⟩ := by
    rw [start, start, isAbsolute, isAbsolute, String.toList_ofList, String.toList_ofList, hsplit,
      List.head?_append_of_ne_nil _ hcs, List.head?_append_of_ne_nil _ (splitSlashes_ne_nil cs)]
  constructor
  · rw [components_eq_start_append, components_eq_start_append, hstart, hsteps]
  · have hnul : '\x00' ∉ '/' :: part := List.not_mem_cons_of_ne_of_not_mem (by decide) hslash.2
    rw [String.toList_ofList, String.toList_ofList, List.mem_append, or_iff_left hnul]

theorem alike_slash {part : List Char} (hpart : step? part = none) :
    Alike ⟨String.ofList ('/' :: part)⟩ ⟨String.ofList ['/']⟩ := by
  rcases eq_of_step?_eq_none hpart with rfl | rfl
  · exact .refl _
  · exact ⟨by decide +kernel, by decide +kernel⟩

theorem fixedLength_append_slash {cs : List Char} (hcs : cs ≠ []) (after : List Char) :
    fixedLength (cs ++ '/' :: after) = fixedLength cs := by
  fun_cases fixedLength cs with
  | case1 => rfl
  | case2 => rfl
  | case3 => rfl
  | case4 hroot hdot hhere =>
    obtain ⟨c, cs, rfl⟩ := List.exists_cons_of_ne_nil hcs
    cases cs with
    | nil => simp_all [fixedLength]
    | cons c' cs => simp_all [fixedLength]

theorem fixedLength_le_one (cs : List Char) : fixedLength cs ≤ 1 := by
  fun_cases fixedLength cs <;> decide

/-- The last part of a text, and what is left without it. -/
theorem takeOff_only (fixed : List Char) {last : List Char} (hlast : '/' ∉ last) :
    let r := (fixed ++ last).reverse
    let body := r.take (r.length - fixed.length)
    let part := body.takeWhile (· != '/')
    part.reverse = last ∧
      r.drop (part.length + (if part.length < body.length then 1 else 0)) = fixed.reverse := by
  have hbody : (fixed ++ last).reverse.take ((fixed ++ last).reverse.length - fixed.length) =
      last.reverse := by
    simp
  have hpart : last.reverse.takeWhile (· != '/') = last.reverse :=
    List.takeWhile_eq_self_iff.2 (bne_of_not_mem fun hc => hlast (List.mem_reverse.1 hc))
  dsimp only
  rw [hbody, hpart]
  simp

theorem takeOff_slash (fixed before : List Char) {last : List Char} (hlast : '/' ∉ last) :
    let r := (fixed ++ (before ++ '/' :: last)).reverse
    let body := r.take (r.length - fixed.length)
    let part := body.takeWhile (· != '/')
    part.reverse = last ∧
      r.drop (part.length + (if part.length < body.length then 1 else 0)) =
        (fixed ++ before).reverse := by
  have hbody : (fixed ++ (before ++ '/' :: last)).reverse.take
      ((fixed ++ (before ++ '/' :: last)).reverse.length - fixed.length) =
      last.reverse ++ '/' :: before.reverse := by
    have hr : (fixed ++ (before ++ '/' :: last)).reverse =
        (last.reverse ++ '/' :: before.reverse) ++ fixed.reverse := by simp
    rw [hr, List.length_append, List.length_reverse, Nat.add_sub_cancel, List.take_left]
  have hpart : (last.reverse ++ '/' :: before.reverse).takeWhile (· != '/') = last.reverse :=
    (span_mark (fun hc => hlast (List.mem_reverse.1 hc)) _).1
  have hr : (fixed ++ (before ++ '/' :: last)).reverse =
      (last.reverse ++ ['/']) ++ (fixed ++ before).reverse := by simp
  dsimp only
  rw [hbody, hpart, List.reverse_reverse, if_pos (by simp), hr]
  exact ⟨rfl, List.drop_left' (by simp)⟩

/-- Taking parts off the end that are no steps changes neither the steps nor where the path starts. -/
theorem alike_trimEnd (fuel : Nat) : ∀ cs : List Char,
    Alike ⟨String.ofList (trimEnd (fixedLength cs) fuel cs.reverse).reverse⟩ ⟨String.ofList cs⟩ := by
  induction fuel with
  | zero => intro cs; rw [trimEnd, List.reverse_reverse]; exact .refl _
  | succ fuel ih =>
    intro cs
    rw [trimEnd]
    split
    · rw [List.reverse_reverse]; exact .refl _
    rename_i hlong
    rw [List.length_reverse, Nat.not_le] at hlong
    dsimp only
    split
    · rw [List.reverse_reverse]; exact .refl _
    rename_i hstep
    obtain ⟨fixed, rest, rfl, hfixed⟩ : ∃ fixed rest, cs = fixed ++ rest ∧
        fixedLength cs = fixed.length :=
      ⟨cs.take (fixedLength cs), cs.drop (fixedLength cs), (List.take_append_drop _ _).symm,
        (List.length_take_of_le (Nat.le_of_lt hlong)).symm⟩
    rcases exists_lastMark '/' rest with hrest | ⟨before, last, rfl, hlast⟩
    · -- One part is left, and no dot: it would not be taken off at the start.
      obtain ⟨hpart, hdrop⟩ := takeOff_only fixed hrest
      rw [← hfixed] at hpart hdrop
      rw [hpart, Option.not_isSome_iff_eq_none] at hstep
      obtain rfl : rest = ['.'] := by
        refine (eq_of_step?_eq_none hstep).resolve_left ?_
        rintro rfl
        rw [List.append_nil] at hlong hfixed
        omega
      obtain rfl : fixed = ['/'] := by
        match fixed, fixedLength_le_one (fixed ++ ['.']) with
        | [], _ => cases hfixed
        | [c], _ =>
          by_contra hroot
          have hzero : fixedLength [c, '.'] = 0 := by
            unfold fixedLength
            split <;> simp_all
          rw [List.singleton_append, hzero] at hfixed
          cases hfixed
        | c :: c' :: cs, hle =>
          rw [hfixed] at hle
          simp at hle
      rw [hdrop]
      exact (ih ['/']).trans (alike_slash hstep).symm
    · -- The last part goes with its slash.
      obtain ⟨hpart, hdrop⟩ := takeOff_slash fixed before hlast
      rw [← hfixed] at hpart hdrop
      rw [hpart, Option.not_isSome_iff_eq_none] at hstep
      have hne : fixed ++ before ≠ [] := by
        intro hnil
        obtain ⟨rfl, rfl⟩ := List.append_eq_nil_iff.1 hnil
        cases hfixed
      have hlength : fixedLength (fixed ++ (before ++ '/' :: last)) = fixedLength (fixed ++ before) := by
        rw [← List.append_assoc]
        exact fixedLength_append_slash hne last
      rw [hdrop, hlength]
      refine (ih _).trans ?_
      rw [← List.append_assoc]
      exact (alike_append_slash hne hstep).symm

/-! ## Names in directories -/

/-- A path is a name in a directory: its text is that of the directory, which is empty or ends in a slash,
and then the name. -/
structure IsIn (p directory : Path) (name : String) : Prop where
  text : p.text.toList = directory.text.toList ++ name.toList
  ends : directory.text.toList = [] ∨ ∃ cs, directory.text.toList = cs ++ ['/']
  isName : IsName name

theorem step?_of_isName {name : String} (h : IsName name) : step? name.toList = some (.name name) := by
  unfold step?
  split
  · rename_i hnil; exact absurd hnil h.nonempty
  · rename_i hdot; exact absurd hdot h.not_dot
  · rename_i hdots; exact absurd hdots h.not_dots
  · rw [String.ofList_toList]

section

variable {p directory : Path} {name : String}

/-- A last part without a slash is a part of its own. -/
theorem splitSlashes_of_text (htext : p.text.toList = directory.text.toList ++ name.toList)
    (hends : directory.text.toList = [] ∨ ∃ cs, directory.text.toList = cs ++ ['/'])
    (hslash : '/' ∉ name.toList) :
    ∃ parts, splitSlashes directory.text.toList = parts ++ [[]] ∧
      splitSlashes p.text.toList = parts ++ [name.toList] := by
  rcases hends with hnil | ⟨cs, hcs⟩
  · refine ⟨[], ?_, ?_⟩
    · rw [hnil]; rfl
    · rw [htext, hnil, List.nil_append, splitSlashes_of_not_mem hslash]; rfl
  · refine ⟨splitSlashes cs, ?_, ?_⟩
    · rw [hcs, splitSlashes_append]; rfl
    · rw [htext, hcs, List.append_assoc, List.singleton_append, splitSlashes_append,
        splitSlashes_of_not_mem hslash]

theorem parts_of_text (htext : p.text.toList = directory.text.toList ++ name.toList)
    (hends : directory.text.toList = [] ∨ ∃ cs, directory.text.toList = cs ++ ['/'])
    (hslash : '/' ∉ name.toList) (hnonempty : name.toList ≠ []) :
    Disk.parts p = Disk.parts directory ++ [name] := by
  obtain ⟨parts, hdirectory, hp⟩ := splitSlashes_of_text htext hends hslash
  have hempty : ¬ name.toList.isEmpty = true := by rwa [List.isEmpty_iff]
  rw [Disk.parts, Disk.parts, hdirectory, hp, List.filterMap_append, List.filterMap_append]
  simp only [List.filterMap_cons, List.filterMap_nil, if_neg hempty, String.ofList_toList,
    List.isEmpty_nil, if_true, List.append_nil]

/-- A text is a directory, which is empty or ends in a slash, and a last part, which may be empty. -/
theorem exists_directory (p : Path) : ∃ (directory : Path) (last : String),
    p.text.toList = directory.text.toList ++ last.toList ∧
      (directory.text.toList = [] ∨ ∃ cs, directory.text.toList = cs ++ ['/']) ∧ '/' ∉ last.toList := by
  rcases exists_lastMark '/' p.text.toList with hnone | ⟨before, last, htext, hlast⟩
  · exact ⟨⟨""⟩, p.text, rfl, .inl rfl, hnone⟩
  · refine ⟨⟨String.ofList (before ++ ['/'])⟩, String.ofList last, ?_, .inr ⟨before, String.toList_ofList⟩, ?_⟩
    · rw [String.toList_ofList, String.toList_ofList, htext, List.append_assoc, List.singleton_append]
    · rwa [String.toList_ofList]

/-- A text that does not end in a slash has a last part. -/
theorem exists_text (p : Path) (hempty : p.text.toList ≠ []) (hslash : Disk.endsInSlash p = false) :
    ∃ (directory : Path) (name : String), p.text.toList = directory.text.toList ++ name.toList ∧
      (directory.text.toList = [] ∨ ∃ cs, directory.text.toList = cs ++ ['/']) ∧
      '/' ∉ name.toList ∧ name.toList ≠ [] := by
  obtain ⟨directory, name, htext, hends, hname⟩ := p.exists_directory
  refine ⟨directory, name, htext, hends, hname, fun hnil => ?_⟩
  rw [hnil, List.append_nil] at htext
  rcases hends with hdirectory | ⟨cs, hdirectory⟩
  · exact hempty (htext.trans hdirectory)
  · rw [Disk.endsInSlash, htext, hdirectory, List.getLast?_concat] at hslash
    cases hslash

end

namespace IsIn

variable {p directory : Path} {name : String}

theorem splitSlashes_eq (h : p.IsIn directory name) :
    ∃ parts, splitSlashes directory.text.toList = parts ++ [[]] ∧
      splitSlashes p.text.toList = parts ++ [name.toList] :=
  splitSlashes_of_text h.text h.ends h.isName.no_slash

theorem isAbsolute_eq (h : p.IsIn directory name) : p.isAbsolute = directory.isAbsolute := by
  rw [isAbsolute, isAbsolute, h.text]
  rcases h.ends with hnil | ⟨cs, hcs⟩
  · rw [hnil, List.nil_append]
    have hhead : name.toList.head? ≠ some '/' := fun hhead =>
      h.isName.no_slash (List.mem_of_mem_head? hhead)
    rw [beq_eq_false_iff_ne.2 hhead]
    rfl
  · rw [hcs, List.head?_append_of_ne_nil _ (List.append_ne_nil_of_right_ne_nil _ (List.cons_ne_nil _ _))]

/-- **The last component is the name.** -/
theorem components_eq (h : p.IsIn directory name) :
    p.components = directory.components ++ [.name name] := by
  obtain ⟨parts, hdirectory, hp⟩ := h.splitSlashes_eq
  have hsteps : p.steps = directory.steps ++ [.name name] := by
    rw [steps, steps, hdirectory, hp, List.filterMap_append, List.filterMap_append, List.filterMap_cons,
      step?_of_isName h.isName]
    simp [step?]
  have hstart : p.start = directory.start := by
    rw [start, start, hdirectory, hp, h.isAbsolute_eq]
    cases parts with
    | nil =>
      have hdot : some name.toList ≠ some ['.'] := fun heq => h.isName.not_dot (Option.some_inj.1 heq)
      have hnil : some ([] : List Char) ≠ some ['.'] := by decide
      rw [List.nil_append, List.nil_append, List.head?_cons, List.head?_cons, if_neg hdot, if_neg hnil]
    | cons part parts => rfl
  rw [components_eq_start_append, components_eq_start_append, hsteps, hstart, List.append_assoc]

theorem fileName?_eq (h : p.IsIn directory name) : p.fileName? = some name := by
  rw [fileName?, h.components_eq, List.getLast?_append]
  rfl

theorem parts_eq (h : p.IsIn directory name) : Disk.parts p = Disk.parts directory ++ [name] :=
  parts_of_text h.text h.ends h.isName.no_slash h.isName.nonempty

/-- A text behind the name makes it another name in the same directory. -/
theorem append (h : p.IsIn directory name) {suffix : String} (hname : IsName (name ++ suffix)) :
    (p.append suffix).IsIn directory (name ++ suffix) := by
  refine ⟨?_, h.ends, hname⟩
  rw [Path.append, String.toList_append, String.toList_append, h.text, List.append_assoc]

end IsIn

/-- **Joining puts a name into a directory.** -/
theorem exists_isIn_join (p : Path) {name : String} (h : IsName name) :
    ∃ directory, (p.join name).IsIn directory name ∧ directory.Alike p := by
  unfold join
  split
  · rename_i cs hcs
    exact absurd (hcs ▸ List.mem_cons_self) h.no_slash
  split
  · rename_i hnil
    have hnil := List.getLast?_eq_none_iff.1 hnil
    exact ⟨p, ⟨by rw [hnil]; rfl, .inl hnil, h⟩, .refl p⟩
  · rename_i hslash
    obtain ⟨cs, hcs⟩ := List.getLast?_eq_some_iff.1 hslash
    exact ⟨p, ⟨String.toList_append, .inr ⟨cs, hcs⟩, h⟩, .refl p⟩
  · rename_i c _ hlast
    have hne : p.text.toList ≠ [] := by
      intro hnil
      rw [hnil] at hlast
      cases hlast
    have halike : Alike ⟨String.ofList (p.text.toList ++ '/' :: [])⟩ ⟨String.ofList p.text.toList⟩ :=
      alike_append_slash hne rfl
    have htext : String.ofList (p.text.toList ++ '/' :: []) = p.text ++ "/" := by
      rw [String.ofList_append, String.ofList_toList]
    rw [htext, String.ofList_toList] at halike
    refine ⟨⟨p.text ++ "/"⟩, ⟨String.toList_append, .inr ⟨p.text.toList, ?_⟩, h⟩, halike⟩
    exact String.toList_append

theorem fixedLength_of_isName {name : String} (h : IsName name) : fixedLength name.toList = 0 := by
  unfold fixedLength
  split
  · rename_i cs hcs; exact absurd (hcs ▸ List.mem_cons_self) h.no_slash
  · rename_i hdot; exact absurd hdot h.not_dot
  · rename_i cs hcs; exact absurd (hcs ▸ List.mem_cons_of_mem _ List.mem_cons_self) h.no_slash
  · rfl

/-- The last part of a name in a directory is the name, and the directory is left without it. -/
theorem IsIn.takeOff {p directory : Path} {name : String} (h : p.IsIn directory name) :
    ∃ kept,
      (let r := p.text.toList.reverse
       let body := r.take (r.length - fixedLength p.text.toList)
       let part := body.takeWhile (· != '/')
       part.reverse = name.toList ∧
         r.drop (part.length + (if part.length < body.length then 1 else 0)) = kept.reverse) ∧
      fixedLength kept = fixedLength p.text.toList ∧ Alike ⟨String.ofList kept⟩ directory := by
  have hslash := h.isName.no_slash
  have hself : ∀ q : Path, (⟨String.ofList q.text.toList⟩ : Path) = q := fun q => by
    rw [String.ofList_toList]
  rw [h.text]
  rcases h.ends with hnil | ⟨cs, hcs⟩
  · have hfixed : fixedLength name.toList = ([] : List Char).length := fixedLength_of_isName h.isName
    refine ⟨[], ?_, ?_, ?_⟩
    · rw [hnil, List.nil_append, hfixed]
      exact takeOff_only [] hslash
    · rw [hnil, List.nil_append, hfixed]
      rfl
    · rw [← hnil, hself]
      exact .refl _
  · have htext : directory.text.toList ++ name.toList = cs ++ '/' :: name.toList := by
      rw [hcs, List.append_assoc, List.singleton_append]
    rw [htext]
    by_cases hroot : cs = []
    · subst hroot
      refine ⟨['/'], takeOff_only ['/'] hslash, rfl, ?_⟩
      rw [← List.nil_append ['/'], ← hcs, hself]
      exact .refl _
    · have hfixed := fixedLength_append_slash hroot name.toList
      have hdirectory : Alike ⟨String.ofList (cs ++ '/' :: [])⟩ ⟨String.ofList cs⟩ :=
        alike_append_slash hroot rfl
      refine ⟨cs, ?_, hfixed.symm, ?_⟩
      · have hle : fixedLength cs ≤ cs.length :=
          Nat.le_trans (fixedLength_le_one cs) (List.length_pos_iff.2 hroot)
        have htake : (cs.take (fixedLength cs)).length = fixedLength cs := List.length_take_of_le hle
        have hoff := takeOff_slash (cs.take (fixedLength cs)) (cs.drop (fixedLength cs)) hslash
        rwa [← List.append_assoc, List.take_append_drop, htake, ← hfixed] at hoff
      · rw [← hcs, hself] at hdirectory
        exact hdirectory.symm

/-- **The parent of a name in a directory is the directory.** -/
theorem IsIn.exists_parent? {p directory : Path} {name : String} (h : p.IsIn directory name) :
    ∃ parent, p.parent? = some parent ∧ parent.Alike directory := by
  obtain ⟨kept, ⟨hpart, hdrop⟩, hfixed, halike⟩ := h.takeOff
  have hstep : (step? name.toList).isSome = true := by rw [step?_of_isName h.isName]; rfl
  have hlong : fixedLength p.text.toList < p.text.toList.reverse.length := by
    by_contra hshort
    rw [Nat.sub_eq_zero_of_le (Nat.not_lt.1 hshort), List.take_zero] at hpart
    exact h.isName.nonempty hpart.symm
  have htrimmed : ∀ fuel, trimEnd (fixedLength p.text.toList) fuel p.text.toList.reverse =
      p.text.toList.reverse := by
    intro fuel
    cases fuel with
    | zero => rfl
    | succ fuel =>
      rw [trimEnd, if_neg (Nat.not_le.2 hlong)]
      dsimp only
      rw [hpart, if_pos hstep]
  refine ⟨_, ?_, (alike_trimEnd p.text.toList.length kept).trans halike⟩
  rw [parent?]
  dsimp only
  rw [htrimmed, if_pos hlong, hdrop, hfixed]

theorem IsIn.exists_withFileName {p directory : Path} {name : String} (h : p.IsIn directory name)
    {other : String} (hother : IsName other) :
    ∃ directory', (p.withFileName other).IsIn directory' other ∧ directory'.Alike directory := by
  obtain ⟨parent, hparent, halike⟩ := h.exists_parent?
  rw [withFileName, h.fileName?_eq, hparent, Option.getD_some]
  obtain ⟨directory', hin, halike'⟩ := parent.exists_isIn_join hother
  exact ⟨directory', hin, halike'.trans halike⟩

/-- **Another last name changes the last component and nothing before it.** -/
theorem IsIn.components_withFileName {p directory : Path} {name : String} (h : p.IsIn directory name)
    {other : String} (hother : IsName other) :
    (p.withFileName other).components = directory.components ++ [.name other] := by
  obtain ⟨directory', hin, halike⟩ := h.exists_withFileName hother
  rw [hin.components_eq, halike.components]

end Path

namespace Disk

/-! ## What operations are about -/

/-- What an operation on a path is about, case by case: the root, a directory that the last part does not
name, or a name in the directory that the parts before it lead to. -/
theorem aimFrom_eq_ok {disk : Disk} {links : Nat} {directory : Location} {p : Path} {r : Aim × Nat}
    (h : disk.aimFrom links directory p = .ok r) :
    '\x00' ∉ p.text.toList ∧ p.text.toList ≠ [] ∧
      ((parts p = [] ∧ r = (.directory [], links)) ∨
        ∃ before last parent links', parts p = before ++ [last] ∧
          disk.walk links (origin p directory) before = .ok (parent, links') ∧
          ((last = "." ∧ r = (.directory parent, links')) ∨
            (last = ".." ∧ r = (.directory parent.dropLast, links')) ∨
            (last ≠ "." ∧ last ≠ ".." ∧ last.utf8ByteSize ≤ nameLimit ∧
              r = (.name parent last (endsInSlash p), links')))) := by
  rw [aimFrom] at h
  split_ifs at h with hnul hempty
  rw [List.contains_iff_mem] at hnul
  refine ⟨hnul, fun hnil => hempty (String.isEmpty_iff.2 (String.toList_eq_nil_iff.1 hnil)), ?_⟩
  split at h
  · rename_i hparts
    cases h
    exact .inl ⟨List.reverse_eq_nil_iff.1 hparts, rfl⟩
  · rename_i last before hparts
    have hparts : parts p = before.reverse ++ [last] := by
      rw [← List.reverse_reverse (parts p), hparts, List.reverse_cons]
    split at h
    · cases h
    · rename_i parent links' hwalk
      refine .inr ⟨before.reverse, last, parent, links', hparts, hwalk, ?_⟩
      split_ifs at h with hdot hdots hlong
      · cases h
        exact .inl ⟨hdot, rfl⟩
      · cases h
        exact .inr (.inl ⟨hdots, rfl⟩)
      · cases h
        exact .inr (.inr ⟨hdot, hdots, Nat.not_lt.1 hlong, rfl⟩)

/-! ## Where names are -/

/-- The steps of a path lead to the directory at a location. -/
def LeadsTo (disk : Disk) (directory : Path) (location : Location) : Prop :=
  '\x00' ∉ directory.text.toList ∧
    ∃ links, disk.walk linkLimit (origin directory disk.workingDirectory) (parts directory) =
      .ok (location, links)

theorem LeadsTo.congr {disk : Disk} {directory directory' : Path} {location : Location}
    (h : disk.LeadsTo directory location) (halike : directory'.Alike directory) :
    disk.LeadsTo directory' location := by
  obtain ⟨hnul, links, hwalk⟩ := h
  exact ⟨fun h => hnul (halike.nul.1 h), links,
    (walk_eq_of_components halike.components disk _ _).trans hwalk⟩

theorem LeadsTo.mono {disk disk' : Disk} {directory : Path} {location : Location}
    (h : disk.LeadsTo directory location) (hleads : disk.Leads disk') :
    disk'.LeadsTo directory location := by
  obtain ⟨hnul, links, hwalk⟩ := h
  rw [← hleads.workingDirectory] at hwalk
  exact ⟨hnul, links, hleads.walk hwalk⟩

/-- A path leads to a name in the directory at a location. -/
def At (disk : Disk) (p : Path) (location : Location) (name : String) : Prop :=
  ∃ directory, p.IsIn directory name ∧ disk.LeadsTo directory location

theorem LeadsTo.join {disk : Disk} {p : Path} {location : Location} (h : disk.LeadsTo p location)
    {name : String} (hname : IsName name) : disk.At (p.join name) location name := by
  obtain ⟨directory, hin, halike⟩ := p.exists_isIn_join hname
  exact ⟨directory, hin, h.congr halike⟩

namespace At

variable {disk disk' : Disk} {p : Path} {location : Location} {name : String}

theorem isName (h : disk.At p location name) : IsName name := by
  obtain ⟨directory, hin, -⟩ := h
  exact hin.isName

theorem fileName?_eq (h : disk.At p location name) : p.fileName? = some name := by
  obtain ⟨directory, hin, -⟩ := h
  exact hin.fileName?_eq

theorem mono (h : disk.At p location name) (hleads : disk.Leads disk') : disk'.At p location name := by
  obtain ⟨directory, hin, hdirectory⟩ := h
  exact ⟨directory, hin, hdirectory.mono hleads⟩

/-- What an operation on the path is about, or why there is none. -/
theorem aim_eq (h : disk.At p location name) :
    disk.aim p =
      if nameLimit < name.utf8ByteSize then .error .nameTooLong
      else .ok (.name location name false) := by
  obtain ⟨directory, hin, hnul, links, hwalk⟩ := h
  have hnul' : p.text.toList.contains '\x00' = false := by
    rw [Bool.eq_false_iff, ne_eq, List.contains_iff_mem, hin.text, List.mem_append, not_or]
    exact ⟨hnul, hin.isName.no_nul⟩
  have hempty : p.text.isEmpty = false := by
    rw [Bool.eq_false_iff, ne_eq, String.isEmpty_iff]
    rintro htext
    have hnil : directory.text.toList ++ name.toList = [] := by rw [← hin.text, htext]; rfl
    exact hin.isName.nonempty (List.append_eq_nil_iff.1 hnil).2
  have hslash : endsInSlash p = false := by
    rw [endsInSlash, hin.text, List.getLast?_append_of_ne_nil _ hin.isName.nonempty,
      beq_eq_false_iff_ne]
    exact fun hlast => hin.isName.no_slash (List.mem_of_getLast? hlast)
  have hdot : name ≠ "." := fun hdot => hin.isName.not_dot (hdot ▸ rfl)
  have hdots : name ≠ ".." := fun hdots => hin.isName.not_dots (hdots ▸ rfl)
  have horigin : origin p disk.workingDirectory = origin directory disk.workingDirectory := by
    rw [origin, origin, hin.isAbsolute_eq]
  rw [aim, aimFrom, hnul', hempty, hin.parts_eq, List.reverse_append, List.reverse_singleton,
    List.singleton_append]
  dsimp only
  rw [List.reverse_reverse, horigin, hwalk]
  dsimp only
  rw [if_neg hdot, if_neg hdots, hslash, if_neg Bool.false_ne_true, if_neg Bool.false_ne_true]
  split <;> rfl

/-- The path names the location below, if the name is not too long. -/
theorem names (h : disk.At p location name) (hshort : name.utf8ByteSize ≤ nameLimit) :
    disk.Names p (location ++ [name]) :=
  ⟨location, name, by rw [h.aim_eq, if_neg (Nat.not_lt.2 hshort)], rfl⟩

/-- Another name in the same directory. -/
theorem sibling (h : disk.At p location name) {other : String} (hother : IsName other) :
    disk.At (p.withFileName other) location other := by
  obtain ⟨directory, hin, hdirectory⟩ := h
  obtain ⟨directory', hin', halike⟩ := hin.exists_withFileName hother
  exact ⟨directory', hin', hdirectory.congr halike⟩

/-- A longer name in the same directory. -/
theorem append (h : disk.At p location name) {suffix : String} (hname : IsName (name ++ suffix)) :
    disk.At (p.append suffix) location (name ++ suffix) := by
  obtain ⟨directory, hin, hdirectory⟩ := h
  exact ⟨directory, hin.append hname, hdirectory⟩

/-- A name in the directory around a path. -/
theorem beside (h : disk.At p location name) {other : String} (hother : IsName other) :
    disk.At (p.directory.join other) location other := by
  obtain ⟨directory, hin, hdirectory⟩ := h
  obtain ⟨parent, hparent, halike⟩ := hin.exists_parent?
  have hat : disk.LeadsTo p.directory location := by
    rw [Path.directory, hparent]
    dsimp only
    split
    · -- The text of the directory is empty, so it is the working directory like a dot.
      rename_i hempty
      have hnil : parts parent = [] ∧ parent.isAbsolute = false := by
        rw [parts, Path.isAbsolute, String.isEmpty_iff.1 hempty]
        exact ⟨rfl, rfl⟩
      obtain ⟨-, links, hwalk⟩ := hdirectory.congr halike
      rw [origin, hnil.1, hnil.2, walk] at hwalk
      refine ⟨by decide +kernel, links, ?_⟩
      have hparts : parts ⟨"."⟩ = ["."] := by decide +kernel
      have hrelative : Path.isAbsolute ⟨"."⟩ = false := by decide +kernel
      rwa [origin, hparts, hrelative, walk, walk]
    · exact hdirectory.congr halike
  exact hat.join hother

end At

/-- What a path names is a name in some directory. -/
theorem exists_at_of_names {disk : Disk} {p : Path} {place : Location} (h : disk.Names p place) :
    ∃ location name, disk.At p location name ∧ name.utf8ByteSize ≤ nameLimit ∧
      place = location ++ [name] := by
  obtain ⟨parent, name, haim, rfl⟩ := h
  rw [aim] at haim
  cases hfrom : disk.aimFrom linkLimit disk.workingDirectory p with
  | error e => rw [hfrom] at haim; cases haim
  | ok r =>
    obtain ⟨a, links⟩ := r
    rw [hfrom] at haim
    obtain rfl : a = .name parent name false := Except.ok.inj haim
    obtain ⟨hnul, hchars, ⟨-, h⟩ | ⟨before, last, reached, links', hparts, hwalk, hlast⟩⟩ :=
      aimFrom_eq_ok hfrom
    · cases h
    obtain ⟨-, h⟩ | ⟨-, h⟩ | ⟨hdot, hdots, hshort, h⟩ := hlast
    · cases h
    · cases h
    obtain ⟨haim, rfl⟩ := Prod.mk.inj h
    obtain ⟨rfl, rfl, hslash⟩ := Aim.name.inj haim
    obtain ⟨directory, name, htext, hends, hnone, hnonempty⟩ := p.exists_text hchars hslash.symm
    have hp := Path.parts_of_text htext hends hnone hnonempty
    obtain ⟨rfl, hsame⟩ := List.append_inj' (hp.symm.trans hparts) rfl
    obtain rfl := List.singleton_inj.1 hsame
    rw [htext, List.mem_append, not_or] at hnul
    have hin : p.IsIn directory name :=
      ⟨htext, hends, hnonempty, hnone, hnul.2, fun h => hdot (String.toList_injective h),
        fun h => hdots (String.toList_injective h)⟩
    rw [origin, hin.isAbsolute_eq] at hwalk
    exact ⟨_, _, ⟨directory, hin, hnul.1, _, hwalk⟩, hshort, rfl⟩

end Disk

end Abridge
