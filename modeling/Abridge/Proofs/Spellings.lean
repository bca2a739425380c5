import Abridge.Proofs.Reversal

/-!
# Names as they are written

The planner keeps its short names apart from every name that is in use in a module of the run.  What is in
use is what the survey notes, and the survey walks the tree of a module.  In most places it notes every name
it passes, and a property in short form it notes once.  Two forms it does not walk: imports and export
specifiers name things of other modules beside things of their own, and of these only the local names are
noted.  Labels and private members have no names to the survey at all.

## What is here

* `Tree.Spells`: which names a tree spells, as far as the survey is concerned.
* `Tree.Spells.mem_spellingsOf`: it notes all of them, by induction on the way down to the name.
* `spelled_not_key`: no name that a module of a run spells is a key of the run.
* `spare_names_not_in_use`: the four kinds of names that are not noted, in one module, and the key that one
  of them becomes.
-/

set_option autoImplicit false

namespace Abridge

/-! ## The names a tree spells -/

/-- Whether a form has names of another module and names of its own side by side. -/
def Form.isExchange : Form → Bool
  | .import _ _ => true
  | .exportSpecifier _ => true
  | _ => false

namespace Tree

/-- The parts of a node that are written.  A property in short form is written once, as its value. -/
def writtenParts : Form → List Tree → List Tree
  | .property info, ps => if info.shorthand then ps.drop 1 else ps
  | .bindingProperty true _, ps => ps.drop 1
  | _, ps => ps

/-- A tree spells a name: as a binding, a reference, the name of a property or a member, or a name of the
markup vocabulary.  Of imports and export specifiers the local names count. -/
inductive Spells : Tree → String → Prop
  | binding {n : String} : Spells (.binding n) n
  | reference {n : String} : Spells (.reference n) n
  | name {n : String} : Spells (.name n) n
  | markupName {n : String} : Spells (.markupName n) n
  | imported {typeOnly : Bool} {phase : Option String} {ps : List Tree} {p : Tree} {n : String} :
    p ∈ ps → HasPart p (.binding n) → Spells (.node (.import typeOnly phase) ps) n
  | exportedReference {typeOnly : Bool} {ps : List Tree} {n : String} :
    Spells (.node (.exportSpecifier typeOnly) (.reference n :: ps)) n
  | exportedName {typeOnly : Bool} {ps : List Tree} {n : String} :
    Spells (.node (.exportSpecifier typeOnly) (.name n :: ps)) n
  | inside {f : Form} {ps : List Tree} {p : Tree} {n : String} :
    f.isExchange = false → p ∈ writtenParts f ps → Spells p n → Spells (.node f ps) n

theorem HasPart.mem_leafNames {t : Tree} {n : String} (h : HasPart t (.binding n)) : n ∈ t.leafNames := by
  generalize hleaf : Tree.binding n = leaf at h
  induction h with
  | self => rw [← hleaf]; exact List.mem_singleton.2 rfl
  | inside hp _ ih => exact mem_leafNamesOf.2 ⟨_, hp, ih hleaf⟩

/-- What is written is walked by the survey. -/
theorem exists_surveyed {f : Form} {ps : List Tree} {p : Tree} (hf : f.isExchange = false)
    (hp : p ∈ writtenParts f ps) : ∃ i, ps[i]? = some p ∧ isSurveyed f i = true := by
  have hall : (∀ i, isSurveyed f i = true) → p ∈ ps → ∃ i, ps[i]? = some p ∧ isSurveyed f i = true := by
    intro hsurveyed hp
    obtain ⟨i, hi⟩ := List.getElem?_of_mem hp
    exact ⟨i, hi, hsurveyed i⟩
  have hdrop : (∀ i, isSurveyed f (i + 1) = true) → p ∈ ps.drop 1 →
      ∃ i, ps[i]? = some p ∧ isSurveyed f i = true := by
    intro hsurveyed hp
    obtain ⟨i, hi⟩ := List.getElem?_of_mem hp
    rw [List.getElem?_drop] at hi
    exact ⟨1 + i, hi, Nat.add_comm i 1 ▸ hsurveyed i⟩
  cases f with
  | property info =>
    cases hshort : info.shorthand with
    | true =>
      rw [writtenParts, if_pos hshort] at hp
      exact hdrop (fun i => by simp [isSurveyed]) hp
    | false =>
      rw [writtenParts, hshort] at hp
      exact hall (fun i => by simp [isSurveyed, hshort]) hp
  | bindingProperty shorthand computed =>
    cases shorthand with
    | true => exact hdrop (fun i => by simp [isSurveyed]) hp
    | false => exact hall (fun i => by simp [isSurveyed]) hp
  | «import» _ _ => cases hf
  | exportSpecifier _ => cases hf
  | _ => exact hall (fun _ => rfl) hp

/-- **The survey of a shaped tree notes every name that the tree spells.** -/
theorem Spells.mem_spellingsOf {t : Tree} {n : String} (h : t.Spells n) (ht : t.Shaped) (params : Bool) :
    n ∈ Survey.spellingsOf (t.sightings params) := by
  induction h generalizing params with
  | binding => exact List.mem_singleton.2 rfl
  | reference => exact List.mem_singleton.2 rfl
  | name => exact List.mem_singleton.2 rfl
  | markupName => exact List.mem_singleton.2 rfl
  | imported hp hbinding =>
    have hintroduced := ht.1.1 _ (mem_leafNamesOf.2 ⟨_, hp, hbinding.mem_leafNames⟩)
    rw [sightings, Survey.spellingsOf_append, Survey.spellingsOf_append]
    exact List.mem_append_left _ (List.mem_append_left _ (Survey.mem_spellingsOf_pinAll hintroduced))
  | exportedReference =>
    rw [sightings, Survey.spellingsOf_append, Survey.spellingsOf_append]
    exact List.mem_append_left _ (List.mem_append_left _
      (Survey.mem_spellingsOf_pinAll (List.mem_singleton.2 rfl)))
  | exportedName =>
    rw [sightings, Survey.spellingsOf_append, Survey.spellingsOf_append]
    exact List.mem_append_left _ (List.mem_append_left _
      (Survey.mem_spellingsOf_pinAll (List.mem_singleton.2 rfl)))
  | @inside f ps p n hf hp _ ih =>
    obtain ⟨i, hi, hsurveyed⟩ := exists_surveyed hf hp
    have hshaped := allShaped_iff.1 ht.2 p (List.mem_of_getElem? hi)
    have hsub : p.sightings (inParameters params f i) ⊆ (Tree.node f ps).sightings params :=
      sightings_subset_node hi hsurveyed
    obtain ⟨s, hs, hname⟩ := List.mem_filterMap.1 (ih hshaped (inParameters params f i))
    exact List.mem_filterMap.2 ⟨s, hsub hs, hname⟩

end Tree

/-- A program spells a name in one of its statements. -/
def Program.Spells (p : Program) (n : String) : Prop := ∃ s ∈ p.statements, s.Spells n

theorem Program.Spells.mem_namesInUse {p : Program} {n : String} (h : p.Spells n)
    (hp : Tree.AllShaped p.statements) (d : Dialect) : n ∈ (p.survey d).namesInUse := by
  obtain ⟨s, hs, hspells⟩ := h
  obtain ⟨i, hi⟩ := List.getElem?_of_mem hs
  have hsub : s.sightings false ⊆ p.sightings := Tree.sightings_subset_sightingsOf (f := .group) hi rfl
  obtain ⟨x, hx, hname⟩ :=
    List.mem_filterMap.1 (hspells.mem_spellingsOf (Tree.allShaped_iff.1 hp s hs) false)
  exact mem_sortNames.2 (List.mem_append_left _ (List.mem_filterMap.2 ⟨x, hsub hx, hname⟩))

/-! ## A whole run -/

/-- **No key is spelled anywhere in a run**, as a name that a module spells: the survey of the module has it
in use, no plan gives it out as a short name or as the key of a literal, and the glossary of the run does
not know it. -/
theorem spelled_not_key {profile : Profile} {p : CompiledProfile} (hp : profile.compile = .ok p)
    (emitMap : Bool) (timestamp : String) {sources : List SourceModule}
    (hparse : ∀ s ∈ sources, (Program.parse? s.text s.dialect).isSome = true) :
    ∃ modules results merged, Stages p emitMap timestamp sources modules results merged ∧
      ∀ m ∈ modules, ∀ name, m.program.Spells name →
        name ∈ (m.program.survey m.source.dialect).namesInUse ∧
        (∀ plan ∈ planModules p modules, (∀ r ∈ plan.renamings, r.shortName ≠ name) ∧
          ∀ x ∈ plan.hoisted, x.1 ≠ name) ∧
        (Glossary.ofManifest merged).lookup name = none := by
  obtain ⟨modules, hread, hmodules⟩ := exists_read hparse
  obtain ⟨final, hsettled⟩ := exists_settled hp modules
  obtain ⟨results, merged, hstages, -, hmerges⟩ := exists_stages hread hsettled emitMap timestamp
  refine ⟨modules, results, merged, hstages, fun m hm name hspells => ?_⟩
  have hinUse : name ∈ (m.program.survey m.source.dialect).namesInUse :=
    hspells.mem_namesInUse (Program.shaped_of_parse? (hmodules.programs m hm)) _
  have hspelled : name ∈ spelled modules := List.mem_flatMap.2 ⟨m, hm, hinUse⟩
  have hfresh : ∀ thing key, (thing, key) ∈ final.assigned → key ≠ name := by
    rintro thing key hkey rfl
    exact (hsettled.sound.fresh _ (hsettled.sound.taken _ hkey)).1 hspelled
  refine ⟨hinUse, fun plan hplan => ⟨fun r hr => ?_, fun x hx => ?_⟩, ?_⟩
  · exact hfresh _ _ (hsettled.mem_renamings (List.mem_flatMap.2 ⟨plan, hplan, hr⟩)).2
  · exact hfresh _ _ (hsettled.mem_hoisted (List.mem_flatMap.2 ⟨plan, hplan, hx⟩)).2
  · rw [Option.eq_none_iff_forall_ne_some]
    intro text hlookup
    exact (hsettled.fresh_of_lookup hmerges.records hlookup).1 hspelled

/-! ## Names that are not in use -/

/-- The program `import{k0 as lib}from"m";export{lib as k1};class A{#k2}k3:{break k3}`. -/
def Program.withSpareNames : Program where
  statements :=
    [.node (.import false none)
      [.node .group [.node (.importNamed false) [.name "k0", .binding "lib"]],
       .quoted { value := "m", start := 21 }, .absent],
     .node (.exportNamed false)
      [.absent, .node .group [.node (.exportSpecifier false) [.reference "lib", .name "k1"]],
       .absent, .absent],
     .node (.class {})
      [.node .group [], .binding "A", .absent, .absent, .absent, .absent,
       .node .group [.node (.field {}) [.node .group [], .privateName "k2", .absent, .absent]]],
     .node .labelled [.label "k3", .node .block [.node .break [.label "k3"]]]]

theorem Program.parse?_withSpareNames :
    Program.parse?
      "import\x7bk0 as lib\x7dfrom\"m\";export\x7blib as k1\x7d;class A\x7b#k2\x7dk3:\x7bbreak k3\x7d" {} =
        some .withSpareNames := by
  decide +kernel

theorem Program.survey_withSpareNames :
    Program.withSpareNames.survey {} =
      { firstRoles := [("lib", .importBinding), ("A", .declaration)]
        pinned := ["lib"]
        namesInUse := ["A", "lib"] } := by
  have hfree : Program.withSpareNames.unresolved = [] := sortNames_eq (by decide +kernel) (by decide)
  apply Program.survey_eq hfree (by decide) <;> decide +kernel

/-- The module of that program. -/
def ReadModule.withSpareNames : ReadModule where
  source :=
    { path := ⟨"a.js"⟩
      text := "import\x7bk0 as lib\x7dfrom\"m\";export\x7blib as k1\x7d;class A\x7b#k2\x7dk3:\x7bbreak k3\x7d"
      dialect := {} }
  program := .withSpareNames

/-- A run over that module. -/
theorem spelled_not_key_withSpareNames :
    Profile.eager.compile = .ok .eager ∧
      (∀ s ∈ [ReadModule.withSpareNames.source], (Program.parse? s.text s.dialect).isSome = true) ∧
      ∃ modules results merged,
        Stages .eager false "t" [ReadModule.withSpareNames.source] modules results merged ∧
        ∀ m ∈ modules, ∀ name, m.program.Spells name →
          name ∈ (m.program.survey m.source.dialect).namesInUse ∧
          (∀ plan ∈ planModules .eager modules, (∀ r ∈ plan.renamings, r.shortName ≠ name) ∧
            ∀ x ∈ plan.hoisted, x.1 ≠ name) ∧
          (Glossary.ofManifest merged).lookup name = none := by
  have hparse : ∀ s ∈ [ReadModule.withSpareNames.source], (Program.parse? s.text s.dialect).isSome = true :=
    List.forall_mem_singleton.2 (congrArg Option.isSome Program.parse?_withSpareNames)
  exact ⟨Profile.compile_eager, hparse, spelled_not_key Profile.compile_eager false "t" hparse⟩

/-- **Four kinds of names are not in use**: the name that an import takes from another module, the name
under which an export gives one away, a private member and a label.  The first of them becomes a key in the
module that has it. -/
theorem spare_names_not_in_use :
    Program.parse? ReadModule.withSpareNames.source.text ReadModule.withSpareNames.source.dialect =
        some ReadModule.withSpareNames.program ∧
      (∀ leaf ∈ [Tree.name "k0", .name "k1", .privateName "k2", .label "k3"],
        ∃ s ∈ ReadModule.withSpareNames.program.statements, s.HasPart leaf) ∧
      (∀ name ∈ ["k0", "k1", "k2", "k3"], name ∉
        (ReadModule.withSpareNames.program.survey ReadModule.withSpareNames.source.dialect).namesInUse) ∧
      ∃ plan, planModules .eager [.withSpareNames] = [plan] ∧ plan.renames.get? "A" = some "k0" := by
  refine ⟨Program.parse?_withSpareNames, ?_, ?_, ?_⟩
  · simp only [List.forall_mem_cons, List.not_mem_nil, false_imp_iff, implies_true, and_true]
    refine ⟨⟨_, List.mem_cons_self, ?_⟩, ⟨_, List.mem_cons_of_mem _ List.mem_cons_self, ?_⟩,
      ⟨_, List.mem_of_mem_drop (i := 2) List.mem_cons_self, ?_⟩,
      ⟨_, List.mem_of_mem_drop (i := 3) List.mem_cons_self, ?_⟩⟩
    · exact .inside List.mem_cons_self (.inside List.mem_cons_self (.inside List.mem_cons_self .self))
    · exact .inside (List.mem_cons_of_mem _ List.mem_cons_self)
        (.inside List.mem_cons_self (.inside (List.mem_cons_of_mem _ List.mem_cons_self) .self))
    · exact .inside (List.mem_of_mem_drop (i := 6) List.mem_cons_self)
        (.inside List.mem_cons_self (.inside (List.mem_cons_of_mem _ List.mem_cons_self) .self))
    · exact .inside List.mem_cons_self .self
  · change ∀ name ∈ _, name ∉ (Program.withSpareNames.survey {}).namesInUse
    rw [Program.survey_withSpareNames]
    decide
  · obtain ⟨plan, hplan⟩ := List.length_eq_one_iff.1 (length_planModules .eager [.withSpareNames])
    have hrenames : ((planModules .eager [.withSpareNames]).all fun plan =>
        plan.renames.get? "A" == some "k0") = true := by
      simp only [planModules, List.map_cons, List.map_nil, Program.analyse,
        ReadModule.withSpareNames, Program.survey_withSpareNames]
      decide +kernel
    rw [hplan, List.all_cons, Bool.and_eq_true, beq_iff_eq] at hrenames
    exact ⟨plan, hplan, hrenames.1⟩

end Abridge
