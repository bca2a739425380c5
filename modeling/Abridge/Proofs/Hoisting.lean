import Abridge.Proofs.Inlining

/-!
# The declaration of hoisted literals

What is hoisted is declared in one statement in front of the others.  Its text lists every key once, in
order, with the value that came first with it: sorting brings equal keys together without changing their
order, and the order of keys tells all of them apart, so that dropping what repeats the key before it leaves
no key twice.

The text is read again before it is inserted, and that never fails in a run.  A key is a lead that can start
a name, followed by a counter, and it is none of the names that mean something; a value is written with
everything escaped that would end it early.  So the reader finds one declaration with these bindings and
nothing else, whatever the dialect.

## What is here

* `WellDeclared`: the text of a declaration, the statement that it is read as, and where it goes.
* `hoist_exact`: all of that, for any list of entries, for keys of the allocator and for every run.
-/

set_option autoImplicit false

namespace Abridge

/-! ## What is read -/

/-- The text of the declaration is read as one statement that declares what it lists, and hoisting puts
that statement before the others. -/
def WellDeclared (hoisted : List (String × Literal)) (d : Dialect) : Prop :=
  ∃ entries ts, Collates hoisted entries ∧
    declarationSource hoisted d = some (declarationText entries d) ∧
    Program.parse? (declarationText entries d) d = some
      { hashbang := none, directives := []
        statements := [.node (.variables (Parse.declarationKind d) false) ts] } ∧
    List.Forall₂ Parse.Declares entries ts ∧
    ∀ program : Program, program.hoist hoisted d = some
      { program with
        statements := .node (.variables (Parse.declarationKind d) false) ts :: program.statements }

theorem wellDeclared_of_isKey {hoisted : List (String × Literal)} (hne : hoisted ≠ [])
    (hhoisted : ∀ e ∈ hoisted, Parse.IsKey e.1 ∧ e.2.isFinite = true) (d : Dialect) :
    WellDeclared hoisted d := by
  have hsource := declarationSource_eq hne d
  obtain ⟨ts, hparse, hall⟩ := parse?_declarationText hhoisted hne d
  refine ⟨declared hoisted, ts, declared_collates hoisted, hsource, hparse, hall, fun program => ?_⟩
  simp [Program.hoist, hsource, hparse]

/-! ## What is given out -/

/-- A key that the allocator gives out for a usable lead. -/
def IsShortName (key : String) : Prop :=
  ∃ (names : ShortNames) (lead : String), Profile.isUsableLead lead = true ∧ (names.next lead).1 = key

theorem IsShortName.isKey {key : String} (h : IsShortName key) : Parse.IsKey key := by
  obtain ⟨names, lead, hlead, rfl⟩ := h
  refine ⟨?_, ((names.isFree_iff _).1 (names.isFree_next lead)).2.2⟩
  obtain ⟨n, hn⟩ := names.next_eq_candidate lead
  rw [hn]
  exact ShortNames.pieces_candidate hlead n

/-- **The declaration of hoisted literals is what it should be.**  Its text lists every key once, in
ascending order, with the value that came first with it.  Where the keys are given out by the allocator and
the numbers are finite, the text is read as one statement with exactly these bindings, in every dialect, and
hoisting puts that statement before the others; and so it is for what is hoisted in a run, so that every
module of a run gets its new program. -/
theorem hoist_exact {profile : Profile} {p : CompiledProfile} (hp : profile.compile = .ok p) :
    (∀ hoisted ≠ [], ∀ d, ∃ entries, Collates hoisted entries ∧ Table.Distinct entries ∧
      declarationSource hoisted d = some (declarationText entries d)) ∧
    (∀ hoisted ≠ [], (∀ e ∈ hoisted, IsShortName e.1 ∧ e.2.isFinite = true) → ∀ d, WellDeclared hoisted d) ∧
    ∀ (modules : List ReadModule) (m : ReadModule) (plan : ModulePlan),
      (m, plan) ∈ modules.zip (planModules p modules) →
      (plan.hoisted ≠ [] → ∀ d, WellDeclared plan.hoisted d) ∧ ∃ program, m.rewrite plan = some program := by
  refine ⟨fun hoisted hne d => ⟨_, declared_collates hoisted,
    (declared_collates hoisted).distinct, declarationSource_eq hne d⟩, ?_, ?_⟩
  · exact fun hoisted hne hkeys d => wellDeclared_of_isKey hne (fun e he => (hkeys e he).imp_left (·.isKey)) d
  · intro modules m plan hx
    obtain ⟨final, h⟩ := exists_settled hp modules
    refine ⟨fun hne d => wellDeclared_of_isKey hne (fun e he => ?_) d, h.exists_rewrite hx⟩
    have hmem : e ∈ (planModules p modules).flatMap ModulePlan.hoisted :=
      List.mem_flatMap.2 ⟨plan, (List.of_mem_zip hx).2, he⟩
    exact ⟨h.isKey hmem, (h.mem_hoisted hmem).1⟩

/-- Two strings under keys of the allocator, one with a quote and a line separator in it, and a number. -/
def quotedEntries : List (String × Literal) :=
  [("s10", .string "a\"\\\u2028"), ("s9", .number (.ofNat 5)), ("s10", .string "later")]

/-- Those entries, and a run that hoists a string. -/
theorem hoist_exact_quoted :
    Profile.eager.compile = .ok .eager ∧
    (quotedEntries ≠ [] ∧ (∀ e ∈ quotedEntries, IsShortName e.1 ∧ e.2.isFinite = true) ∧
      ∀ d, WellDeclared quotedEntries d) ∧
    ∃ plan, planModules .eager [.repeated] = [plan] ∧ plan.hoisted = [("s0", .string "loading")] ∧
      ∀ d, WellDeclared plan.hoisted d := by
  have hten : IsShortName "s10" :=
    ⟨{ counters := [("s", 10)] }, "s", by decide +kernel, by decide +kernel⟩
  have hnine : IsShortName "s9" :=
    ⟨{ counters := [("s", 9)] }, "s", by decide +kernel, by decide +kernel⟩
  have hkeys : ∀ e ∈ quotedEntries, IsShortName e.1 ∧ e.2.isFinite = true := by
    have hentries : ∀ e ∈ quotedEntries, (e.1 = "s9" ∨ e.1 = "s10") ∧ e.2.isFinite = true := by decide
    intro e he
    refine (hentries e he).imp_left fun hkey => ?_
    rcases hkey with hkey | hkey <;> rw [hkey] <;> assumption
  have hne : quotedEntries ≠ [] := List.cons_ne_nil _ _
  obtain ⟨-, hlists, hruns⟩ := hoist_exact Profile.compile_eager
  obtain ⟨plan, hplan, hhoisted⟩ := exists_plan_of_all (p := .eager) (m := .repeated)
    (f := fun plan => plan.hoisted == [("s0", .string "loading")]) (by
      rw [ReadModule.repeated, planModules_ofStrings]
      decide +kernel)
  have hhoisted := eq_of_beq hhoisted
  refine ⟨Profile.compile_eager, ⟨hne, hkeys, hlists _ hne hkeys⟩, plan, hplan, hhoisted, ?_⟩
  refine (hruns [.repeated] .repeated plan ?_).1 ?_
  · rw [hplan]
    exact List.mem_singleton.2 rfl
  · rw [hhoisted]
    exact List.cons_ne_nil _ _

end Abridge
