import Abridge.Proofs.Exactness
import Abridge.Proofs.Values

/-!
# Hoisting keeps values

A hoisted literal goes a long way: its value is looked up by its identity, gets a key that the whole run
shares, is written as text in a declaration, sorted among the others and read again, and the places that it
came from are known by their offsets alone.  This file undoes all that.  Putting the values that the
inserted statement declares back in the place of their keys, and taking the statement away, gives the
program that renaming alone would have given, literal by literal the same value.

There is one exception.  The identity of a string is its text, and the text of a literal with a lone half
of a pair is that of another string when the flag of the literal is left out.  So a value is kept exactly
when it has no such half, and two literals of a run with the same key have the same value exactly when both
have one or none has.

## What is here

* `Tree.Alike`, `Program.Alike`: the same but for how literals are written.
* `Program.inlined`: a program without the declaration of what was hoisted.
* `ModulePlan.renamesOnly`: a plan that only renames.
* `inlined_alike_iff`: inlining undoes hoisting exactly when no replaced literal has a lone half.
* `lone_surrogate_shares_key`: two strings that differ and share a key.
-/

set_option autoImplicit false

namespace Abridge

/-! ## Literals -/

namespace Tree

mutual

/-- The strings and numbers of a tree. -/
def literalLeaves : Tree → List Tree
  | .string lit => [.string lit]
  | .number lit => [.number lit]
  | .node _ ps => literalLeavesOf ps
  | _ => []

/-- The strings and numbers of trees. -/
def literalLeavesOf : List Tree → List Tree
  | [] => []
  | t :: ts => t.literalLeaves ++ literalLeavesOf ts

end

/-- Where a literal was written. -/
def offset? : Tree → Option Nat
  | .string lit => some lit.start
  | .number lit => some lit.start
  | _ => none

/-- The value of a literal as it is hoisted. -/
def value? : Tree → Option Literal
  | .string lit => some (.string lit.value)
  | .number lit => some (.number lit.value)
  | _ => none

/-- Whether a literal has a lone half of a pair. -/
def isLone : Tree → Bool
  | .string lit => lit.surrogates
  | _ => false

end Tree

/-- The key that stands in the place of a literal under a plan. -/
def ModulePlan.keyAt? (plan : ModulePlan) (t : Tree) : Option String :=
  t.offset?.bind plan.sites.get?

/-- The literals of a program that a plan replaces. -/
def Program.replaced (p : Program) (plan : ModulePlan) : List Tree :=
  (Tree.literalLeavesOf p.statements).filter fun t => (plan.keyAt? t).isSome

namespace Tree

mutual

/-- Two trees are the same but for how their literals are written: strings have the same units and numbers
the same value. -/
def Alike : Tree → Tree → Prop
  | .string a, .string b => a.units = b.units
  | .number a, .number b => a.value = b.value
  | .node f ps, .node g qs => f = g ∧ AllAlike ps qs
  | t, u => t = u

/-- Trees that are the same but for how their literals are written. -/
def AllAlike : List Tree → List Tree → Prop
  | [], [] => True
  | t :: ts, u :: us => t.Alike u ∧ AllAlike ts us
  | _, _ => False

end

mutual

/-- The tree with the values given in the place of the references to them. -/
def inline (given : String → Option Tree) : Tree → Tree
  | .reference n => (given n).getD (.reference n)
  | .node f ps => .node f (inlineAll given ps)
  | t => t

/-- The trees with the values given in the place of the references to them. -/
def inlineAll (given : String → Option Tree) : List Tree → List Tree
  | [] => []
  | t :: ts => t.inline given :: inlineAll given ts

end

/-- The value that declarators give to a name. -/
def givenBy (name : String) : List Tree → Option Tree
  | [] => none
  | .node (.declarator _) [.binding n, _, v] :: ts => if n = name then some v else givenBy name ts
  | _ :: ts => givenBy name ts

/-- The value that a statement gives to a name. -/
def given? (name : String) : Tree → Option Tree
  | .node (.variables _ _) ts => givenBy name ts
  | _ => none

end Tree

namespace Program

/-- The program without its first statements, whose values stand in the place of the names that they
declare. -/
def inlined (p : Program) (count : Nat) : Program :=
  { p with
    statements := Tree.inlineAll (fun n => (p.statements.take count).findSome? (Tree.given? n))
      (p.statements.drop count) }

/-- Programs that are the same but for how their literals are written. -/
def Alike (p q : Program) : Prop :=
  p.hashbang = q.hashbang ∧ p.directives = q.directives ∧ Tree.AllAlike p.statements q.statements

end Program

/-- The plan without its literals. -/
def ModulePlan.renamesOnly (plan : ModulePlan) : ModulePlan := { plan with sites := [], hoisted := [] }

/-! ## Values that are alike -/

theorem StringLiteral.units_eq_iff {lit lit' : StringLiteral} (hvalue : lit.value = lit'.value)
    (h : lit.surrogates = true → ∃ text, lit.IsIn text)
    (h' : lit'.surrogates = true → ∃ text, lit'.IsIn text) :
    lit.units = lit'.units ↔ lit.surrogates = lit'.surrogates := by
  have hplain : ∀ {lit : StringLiteral}, lit.surrogates = false →
      lit.units = lit.value.toList.flatMap Source.charUnits := by
    intro lit hlit
    rw [units, hlit, if_neg Bool.false_ne_true]
  cases hlone : lit.surrogates <;> cases hlone' : lit'.surrogates
  · exact iff_of_true (by rw [hplain hlone, hplain hlone', hvalue]) rfl
  · obtain ⟨text, htext⟩ := h' hlone'
    refine iff_of_false ?_ Bool.false_ne_true
    rw [hplain hlone, hvalue]
    exact htext.units_ne hlone'
  · obtain ⟨text, htext⟩ := h hlone
    refine iff_of_false ?_ Bool.false_ne_true.symm
    rw [hplain hlone', ← hvalue]
    exact (htext.units_ne hlone).symm
  · exact iff_of_true (by rw [units, units, hlone, hlone', hvalue]) rfl

namespace Tree

/-- A tree is what some text says. -/
def IsRead (t : Tree) : Prop := ∃ text, @Read ⟨text⟩ t

/-- **Literals that are hoisted as one value** have one value exactly when both have a lone half or none
has. -/
theorem alike_iff_of_value? {t t' : Tree} (ht : t.IsRead) (ht' : t'.IsRead) {l : Literal}
    (hl : t.value? = some l) (hl' : t'.value? = some l) : t.Alike t' ↔ t.isLone = t'.isLone := by
  obtain ⟨text, ht⟩ := ht
  obtain ⟨text', ht'⟩ := ht'
  cases t with
  | string lit =>
    cases t' with
    | string lit' =>
      have hvalue : lit.value = lit'.value := by
        have := hl.trans hl'.symm
        simpa [value?] using this
      exact StringLiteral.units_eq_iff hvalue (fun _ => ⟨text, ht⟩) fun _ => ⟨text', ht'⟩
    | number lit' => cases hl; cases hl'
    | _ => cases hl'
  | number lit =>
    cases t' with
    | string lit' => cases hl; cases hl'
    | number lit' =>
      have hvalue : lit.value = lit'.value := by
        have := hl.trans hl'.symm
        simpa [value?] using this
      exact iff_of_true hvalue rfl
    | _ => cases hl'
  | _ => cases hl

/-- What a declaration says of a literal has its value exactly when it has no lone half. -/
theorem alike_iff_of_denotes {t v : Tree} (ht : t.IsRead) {l : Literal} (hl : t.value? = some l)
    (hv : l.Denotes v) : v.Alike t ↔ t.isLone = false := by
  obtain ⟨text, ht⟩ := ht
  unfold Literal.Denotes at hv
  split at hv
  · rename_i lit
    obtain ⟨rfl, hlone, -⟩ := hv
    cases t with
    | string lit' =>
      have hvalue : lit.value = lit'.value := by simpa [value?, eq_comm] using hl
      have heq := StringLiteral.units_eq_iff hvalue
        (fun h => absurd (hlone.symm.trans h) Bool.false_ne_true) fun _ => ⟨text, ht⟩
      rw [hlone, eq_comm (b := lit'.surrogates)] at heq
      exact heq
    | _ => cases hl
  · rename_i lit
    obtain ⟨rfl, -⟩ := hv
    cases t with
    | number lit' =>
      have hvalue : lit.value = lit'.value := by simpa [value?, eq_comm] using hl
      exact iff_of_true hvalue rfl
    | _ => cases hl
  · -- A number that was read has no sign.
    rename_i lit
    obtain ⟨rfl, hnegative, -⟩ := hv
    cases t with
    | number lit' =>
      have hvalue : lit'.value = lit.value.neg := by simpa [value?] using hl
      have hunsigned : lit'.value.isNegative = false := NumberLiteral.IsIn.isNegative ht
      rw [hvalue, hnegative] at hunsigned
      cases hunsigned
    | _ => cases hl
  · exact hv.elim

mutual

theorem Alike.refl : ∀ t : Tree, t.Alike t
  | .node _ ps => ⟨rfl, AllAlike.refl ps⟩
  | .string _ | .number _ | .absent | .binding _ | .reference _ | .name _ | .markupName _ | .label _
  | .privateName _ | .quoted _ => rfl

theorem AllAlike.refl : ∀ ts : List Tree, AllAlike ts ts
  | [] => trivial
  | t :: ts => ⟨.refl t, .refl ts⟩

end

end Tree

/-! ## Inlining a tree -/

/-- A plan renames the name of the value of a short form, and gives a value no other name. -/
theorem Tree.shortName?_apply (plan : ModulePlan) {v : Tree} (hv : v.isLiteral = false) :
    (v.apply plan).shortName? = v.shortName?.map plan.rename := by
  cases v with
  | string lit | number lit => cases hv
  | node f ps =>
    cases f with
    | defaulted =>
      obtain _ | ⟨t, ts⟩ := ps
      · rfl
      · cases t with
        | string lit | number lit =>
          rw [apply_node, applyAll_cons, apply, ModulePlan.replace]
          split <;> rfl
        | _ => rfl
    | property _ | bindingProperty _ _ => obtain _ | ⟨_, _ | ⟨_, _ | ⟨_, _⟩⟩⟩ := ps <;> rfl
    | _ => rfl
  | _ => rfl

/-- A short form still says what it said when the name of its value, if it has one, is its key. -/
theorem staysShort_name (k : String) (v : Tree) :
    staysShort (.name k) v = v.shortName?.all fun n => k == n := by
  cases v with
  | node f ps =>
    cases f with
    | defaulted => obtain _ | ⟨_ | _ | _ | _ | _ | _ | _ | _ | _ | _ | _, ts⟩ := ps <;> rfl
    | _ => rfl
  | _ => rfl

/-- Whether a value can stay in short form is up to the renames. -/
theorem staysShort_renamesOnly (plan : ModulePlan) (k : String) {v : Tree} (hv : v.isLiteral = false) :
    staysShort (.name k) (v.apply plan) = staysShort (.name k) (v.apply plan.renamesOnly) := by
  rw [staysShort_name, staysShort_name, Tree.shortName?_apply plan hv,
    Tree.shortName?_apply plan.renamesOnly hv]
  rfl

theorem Form.settle_renamesOnly (plan : ModulePlan) {f : Form} {ps : List Tree} (hfits : f.Fits ps) :
    f.settle (Tree.applyAll plan ps) = f.settle (Tree.applyAll plan.renamesOnly ps) := by
  cases f with
  | property info =>
    cases hshort : info.shorthand with
    | true =>
      simp only [Form.Fits, hshort] at hfits
      obtain ⟨k, v, rfl, hv, -⟩ := hfits
      simp only [Tree.applyAll, settle, Tree.apply, staysShort_renamesOnly plan k hv]
    | false =>
      obtain _ | ⟨k, _ | ⟨v, _ | ⟨w, ps⟩⟩⟩ := ps
      all_goals first | rfl | simp only [Tree.applyAll, settle, hshort, Bool.false_and]
  | bindingProperty short computed =>
    cases short with
    | true =>
      obtain ⟨k, v, rfl, hv, -⟩ := hfits
      simp only [Tree.applyAll, settle, Tree.apply, staysShort_renamesOnly plan k hv]
    | false =>
      obtain _ | ⟨k, _ | ⟨v, _ | ⟨w, ps⟩⟩⟩ := ps
      all_goals rfl
  | _ => rfl

/-- Values that undo what a plan replaces: they are given for its keys and not for names, and have the
value of the literal as far as it has no lone half. -/
structure Undoes (plan : ModulePlan) (given : String → Option Tree) (names : List String)
    (literals : List Tree) : Prop where
  names : ∀ n ∈ names, given (plan.rename n) = none
  literals : ∀ t ∈ literals, ∀ key, plan.keyAt? t = some key →
    ∃ v, given key = some v ∧ (v.Alike t ↔ t.isLone = false)

namespace Undoes

variable {plan : ModulePlan} {given : String → Option Tree} {names : List String} {literals : List Tree}

/-- Undoing the replacement of one literal. -/
theorem alike_literal (h : Undoes plan given names literals) {t : Tree} (ht : t ∈ literals) {site : Nat}
    (hsite : t.offset? = some site) (hinline : t.inline given = t) :
    ((plan.replace site t).inline given).Alike t ↔
      ((plan.keyAt? t).isSome = true → t.isLone = false) := by
  have hkey : plan.keyAt? t = plan.sites.get? site := by rw [ModulePlan.keyAt?, hsite, Option.bind_some]
  rw [hkey, ModulePlan.replace]
  cases hget : plan.sites.get? site with
  | none =>
    rw [hinline]
    exact iff_of_true (.refl t) fun h => by cases h
  | some key =>
    obtain ⟨v, hv, halike⟩ := h.literals t ht key (hkey.trans hget)
    have hvalue : (Tree.reference key).inline given = v := by rw [Tree.inline, hv, Option.getD_some]
    rw [hvalue, halike]
    exact ⟨fun hlone _ => hlone, fun hlone => hlone rfl⟩

mutual

/-- **Inlining a tree** gives what renaming alone gives, exactly when no replaced literal has a lone
half. -/
theorem alike_iff (h : Undoes plan given names literals) : ∀ {t : Tree}, t.Shaped →
    t.leafNames ⊆ names → t.literalLeaves ⊆ literals →
    (((t.apply plan).inline given).Alike (t.apply plan.renamesOnly) ↔
      ∀ u ∈ t.literalLeaves, (plan.keyAt? u).isSome = true → u.isLone = false)
  | .node f ps, ⟨hfits, hps⟩, hnames, hliterals => by
    refine Iff.trans ?_ (h.allAlike_iff hps hnames hliterals)
    exact and_iff_right (Form.settle_renamesOnly plan hfits)
  | .string lit, _, _, hliterals => by
    rw [Tree.literalLeaves, List.forall_mem_singleton]
    exact h.alike_literal (hliterals List.mem_cons_self) rfl rfl
  | .number lit, _, _, hliterals => by
    rw [Tree.literalLeaves, List.forall_mem_singleton]
    exact h.alike_literal (hliterals List.mem_cons_self) rfl rfl
  | .reference n, _, hnames, _ => by
    have hnone : given (plan.rename n) = none := h.names n (hnames List.mem_cons_self)
    refine iff_of_true ?_ (List.forall_mem_nil _)
    rw [Tree.apply, Tree.inline, hnone, Option.getD_none]
    exact .refl _
  | .binding _, _, _, _ | .absent, _, _, _ | .name _, _, _, _ | .markupName _, _, _, _
  | .label _, _, _, _ | .privateName _, _, _, _ | .quoted _, _, _, _ =>
    iff_of_true (.refl _) (List.forall_mem_nil _)

theorem allAlike_iff (h : Undoes plan given names literals) : ∀ {ts : List Tree}, Tree.AllShaped ts →
    Tree.leafNamesOf ts ⊆ names → Tree.literalLeavesOf ts ⊆ literals →
    (Tree.AllAlike (Tree.inlineAll given (Tree.applyAll plan ts)) (Tree.applyAll plan.renamesOnly ts) ↔
      ∀ u ∈ Tree.literalLeavesOf ts, (plan.keyAt? u).isSome = true → u.isLone = false)
  | [], _, _, _ => iff_of_true trivial (List.forall_mem_nil _)
  | t :: ts, ⟨ht, hts⟩, hnames, hliterals => by
    have hfirst := h.alike_iff ht (fun n hn => hnames (List.mem_append_left _ hn))
      fun u hu => hliterals (List.mem_append_left _ hu)
    have hrest := h.allAlike_iff hts (fun n hn => hnames (List.mem_append_right _ hn))
      fun u hu => hliterals (List.mem_append_right _ hu)
    refine (and_congr hfirst hrest).trans ?_
    rw [Tree.literalLeavesOf, List.forall_mem_append]

end

end Undoes

/-! ## The values of a declaration -/

/-- A declaration gives each key one of the values that it is declared with, and gives nothing else. -/
theorem Parse.givenBy_of_declares {entries : List (String × Literal)} {ts : List Tree}
    (h : List.Forall₂ Parse.Declares entries ts) (key : String) :
    (∃ e ∈ entries, e.1 = key ∧ ∃ v, Tree.givenBy key ts = some v ∧ e.2.Denotes v) ∨
      key ∉ entries.map Prod.fst ∧ Tree.givenBy key ts = none := by
  induction h with
  | nil => exact .inr ⟨List.not_mem_nil, rfl⟩
  | @cons e t entries ts ht _ ih =>
    obtain ⟨v, rfl, hv⟩ := ht
    rw [Tree.givenBy]
    split_ifs with hkey
    · exact .inl ⟨e, List.mem_cons_self, hkey, v, rfl, hv⟩
    · refine ih.imp ?_ ?_
      · rintro ⟨e', he', hrest⟩
        exact ⟨e', List.mem_cons_of_mem _ he', hrest⟩
      · rintro ⟨hnotMem, hnone⟩
        refine ⟨fun hmem => ?_, hnone⟩
        rcases List.mem_cons.1 hmem with heq | hmem
        · exact hkey heq.symm
        · exact hnotMem hmem

/-- What is given for the keys of a plan and nothing else. -/
structure GivesKeys (plan : ModulePlan) (given : String → Option Tree) : Prop where
  keys : ∀ key ∈ plan.declaredKeys, ∃ l v, (key, l) ∈ plan.hoisted ∧ given key = some v ∧ l.Denotes v
  others : ∀ n, n ∉ plan.declaredKeys → given n = none

/-- **Taking the declaration away** leaves the program under the plan, with the values that the keys were
declared with. -/
theorem exists_givesKeys {m : ReadModule} {plan : ModulePlan}
    (hkeys : ∀ x ∈ plan.hoisted, Parse.IsKey x.1 ∧ x.2.isFinite = true) :
    ∃ after given, m.rewrite plan = some after ∧ GivesKeys plan given ∧
      after.inlined plan.inserted =
        { m.program with statements := Tree.inlineAll given (Tree.applyAll plan m.program.statements) } := by
  by_cases hhoisted : plan.hoisted = []
  · refine ⟨m.program.apply plan, fun _ => none, ?_, ⟨?_, fun _ _ => rfl⟩, ?_⟩
    · rw [ReadModule.rewrite, hhoisted]
      rfl
    · intro key hkey
      rw [ModulePlan.declaredKeys, hhoisted] at hkey
      exact absurd hkey List.not_mem_nil
    · have hinserted : plan.inserted = 0 := by simp [ModulePlan.inserted, hhoisted]
      rw [hinserted]
      rfl
  · obtain ⟨ts, hrewrite, hall⟩ := Program.hoist_eq hkeys hhoisted (m.program.apply plan)
      m.source.dialect
    have hinserted : plan.inserted = 1 := by simp [ModulePlan.inserted, hhoisted]
    refine ⟨_, fun n => Tree.givenBy n ts, hrewrite, ⟨?_, ?_⟩, ?_⟩
    · intro key hkey
      obtain ⟨x, hx, rfl⟩ := List.mem_map.1 hkey
      obtain ⟨e, he, hkey'⟩ := exists_mem_declared hx
      rcases Parse.givenBy_of_declares hall x.1 with ⟨e', he', heq, v, hv, hdenotes⟩ | ⟨hnotMem, -⟩
      · exact ⟨e'.2, v, heq ▸ mem_of_mem_declared he', hv, hdenotes⟩
      · exact absurd (List.mem_map.2 ⟨e, he, hkey'⟩) hnotMem
    · intro n hn
      rcases Parse.givenBy_of_declares hall n with ⟨e, he, rfl, -⟩ | ⟨-, hnone⟩
      · exact absurd (List.mem_map_of_mem (mem_of_mem_declared he)) hn
      · exact hnone
    · rw [hinserted]
      simp [Program.inlined, Tree.given?, Program.apply]

/-! ## The sites of a plan -/

namespace LiteralTable

theorem site_mem_record {value : Literal} {site : Nat} {e : LiteralEntry} {s : Nat} :
    ∀ {table : LiteralTable}, e ∈ table.record value site → s ∈ e.sites →
      (s = site ∧ e.value.identity = value.identity) ∨ ∃ e' ∈ table, s ∈ e'.sites ∧ e.value = e'.value
  | [], he, hs => by
    obtain rfl := List.mem_singleton.1 he
    exact .inl ⟨List.mem_singleton.1 hs, rfl⟩
  | x :: table, he, hs => by
    rw [record] at he
    split at he
    · rename_i hidentity
      rcases List.mem_cons.1 he with rfl | he
      · rcases List.mem_append.1 hs with hs | hs
        · exact .inr ⟨x, List.mem_cons_self, hs, rfl⟩
        · exact .inl ⟨List.mem_singleton.1 hs, eq_of_beq hidentity⟩
      · exact .inr ⟨e, List.mem_cons_of_mem _ he, hs, rfl⟩
    · rcases List.mem_cons.1 he with rfl | he
      · exact .inr ⟨e, List.mem_cons_self, hs, rfl⟩
      · refine (site_mem_record he hs).imp_right ?_
        rintro ⟨e', he', hrest⟩
        exact ⟨e', List.mem_cons_of_mem _ he', hrest⟩

theorem site_mem_foldl_record {e : LiteralEntry} {s : Nat} :
    ∀ {found : List (Literal × Nat)} {table : LiteralTable},
      e ∈ found.foldl (fun table x => record x.1 x.2 table) table → s ∈ e.sites →
      (∃ x ∈ found, x.2 = s ∧ e.value.identity = x.1.identity) ∨
        ∃ e' ∈ table, s ∈ e'.sites ∧ e.value = e'.value
  | [], _, he, hs => .inr ⟨e, he, hs, rfl⟩
  | x :: found, table, he, hs => by
    rw [List.foldl_cons] at he
    rcases site_mem_foldl_record he hs with ⟨y, hy, hrest⟩ | ⟨e', he', hs', hvalue⟩
    · exact .inl ⟨y, List.mem_cons_of_mem _ hy, hrest⟩
    · rcases site_mem_record he' hs' with ⟨hsite, hidentity⟩ | ⟨e'', he'', hs'', hvalue'⟩
      · exact .inl ⟨x, List.mem_cons_self, hsite.symm, by rw [hvalue, hidentity]⟩
      · exact .inr ⟨e'', he'', hs'', hvalue.trans hvalue'⟩

end LiteralTable

/-- **An entry of a literal table is written where its value stands.** -/
theorem Program.mem_literals_of_site {p : Program} {profile : Profile} {e : LiteralEntry}
    (he : e ∈ p.literalTable profile) {site : Nat} (hsite : site ∈ e.sites) :
    (e.value, site) ∈ p.literals := by
  have hadmits := Program.admits_of_mem_literalTable he
  obtain ⟨e', he', rfl⟩ := List.mem_map.1 he
  rcases LiteralTable.site_mem_foldl_record he' hsite with ⟨⟨l, s⟩, hx, rfl, hidentity⟩ | ⟨e'', he'', -⟩
  · obtain ⟨hmem, hadmits'⟩ := List.mem_filter.1 hx
    have hvalue : e'.value = l := Literal.identity_injective (Profile.isFinite_of_admits hadmits)
      (Profile.isFinite_of_admits hadmits') hidentity
    rwa [hvalue]
  · exact absurd he'' List.not_mem_nil

namespace Tree

mutual

/-- What is collected from a tree is one of its literals. -/
theorem exists_leaf {l : Literal} {site : Nat} : ∀ {t : Tree}, (l, site) ∈ t.literals →
    ∃ u ∈ t.literalLeaves, u.value? = some l ∧ u.offset? = some site
  | .node f ps, h => exists_leafOf h
  | .string lit, h => by
    cases List.mem_singleton.1 h
    exact ⟨_, List.mem_cons_self, rfl, rfl⟩
  | .number lit, h => by
    cases List.mem_singleton.1 h
    exact ⟨_, List.mem_cons_self, rfl, rfl⟩
  | .absent, h | .binding _, h | .reference _, h | .name _, h | .markupName _, h | .label _, h
  | .privateName _, h | .quoted _, h => absurd h List.not_mem_nil

theorem exists_leafOf {l : Literal} {site : Nat} {f : Form} {all : List Tree} :
    ∀ {ts : List Tree} {i : Nat}, (l, site) ∈ literalsOf f all i ts →
      ∃ u ∈ literalLeavesOf ts, u.value? = some l ∧ u.offset? = some site
  | [], _, h => absurd h List.not_mem_nil
  | t :: ts, i, h => by
    rcases List.mem_append.1 h with h | h
    · split at h
      · obtain ⟨u, hu, hrest⟩ := exists_leaf h
        exact ⟨u, List.mem_append_left _ hu, hrest⟩
      · exact absurd h List.not_mem_nil
    · obtain ⟨u, hu, hrest⟩ := exists_leafOf h
      exact ⟨u, List.mem_append_right _ hu, hrest⟩

end

section

variable [Original]

mutual

theorem Read.leaf {u : Tree} : ∀ {t : Tree}, t.Read → u ∈ t.literalLeaves → u.Read
  | .node _ _, ht, hu => AllRead.leaf ht.2 hu
  | .string _, ht, hu => List.mem_singleton.1 hu ▸ ht
  | .number _, ht, hu => List.mem_singleton.1 hu ▸ ht
  | .absent, _, hu | .binding _, _, hu | .reference _, _, hu | .name _, _, hu | .markupName _, _, hu
  | .label _, _, hu | .privateName _, _, hu | .quoted _, _, hu => absurd hu List.not_mem_nil

theorem AllRead.leaf {u : Tree} : ∀ {ts : List Tree}, AllRead ts → u ∈ literalLeavesOf ts → u.Read
  | [], _, hu => absurd hu List.not_mem_nil
  | _ :: _, hts, hu => (List.mem_append.1 hu).elim hts.1.leaf (AllRead.leaf hts.2)

end

/-- **An offset determines the literal** that was read there. -/
theorem Read.eq_of_offset? {t u : Tree} (ht : t.Read) (hu : u.Read) {site : Nat}
    (hsite : t.offset? = some site) (hsite' : u.offset? = some site) : t = u := by
  have hstart := hsite.trans hsite'.symm
  cases t with
  | string lit =>
    cases u with
    | string lit' => exact congrArg _ (StringLiteral.IsIn.eq ht hu (Option.some.inj hstart))
    | number lit' => exact absurd (Option.some.inj hstart) (StringLiteral.IsIn.start_ne ht hu)
    | _ => cases hsite'
  | number lit =>
    cases u with
    | string lit' => exact absurd (Option.some.inj hstart).symm (StringLiteral.IsIn.start_ne hu ht)
    | number lit' => exact congrArg _ (NumberLiteral.IsIn.eq ht hu (Option.some.inj hstart))
    | _ => cases hsite'
  | _ => cases hsite

end

end Tree

theorem Program.isRead_of_mem {text : String} {d : Dialect} {p : Program}
    (h : Program.parse? text d = some p) {t : Tree} (ht : t ∈ Tree.literalLeavesOf p.statements) :
    t.IsRead := by
  let _ : Original := ⟨text.toList⟩
  have hall : Tree.AllRead p.statements := Program.read_of_parse? h
  exact ⟨_, hall.leaf ht⟩

/-! ## Runs -/

namespace Settled

variable {p : CompiledProfile} {modules : List ReadModule} {final : Planner}

/-- A literal that a plan replaces is declared with its value. -/
theorem exists_hoisted (h : Settled p modules final) {m : ReadModule} {plan : ModulePlan}
    (hx : (m, plan) ∈ modules.zip (planModules p modules))
    (hread : Program.parse? m.source.text m.source.dialect = some m.program) {t : Tree}
    (ht : t ∈ Tree.literalLeavesOf m.program.statements) {key : String}
    (hkey : plan.keyAt? t = some key) : ∃ l, t.value? = some l ∧ (key, l) ∈ plan.hoisted := by
  let _ : Original := ⟨m.source.text.toList⟩
  have hall : Tree.AllRead m.program.statements := Program.read_of_parse? hread
  obtain ⟨site, hsite, hget⟩ := Option.bind_eq_some_iff.1 hkey
  obtain ⟨pairs, hentries, hhoisted, hsites⟩ := (h.planned hx).hoists
  rw [hsites] at hget
  rcases Planner.placed_eq_some hget with ⟨x, hx', hmem, rfl⟩ | hnone
  · have hentry := List.mem_map_of_mem (f := Prod.snd) hx'
    rw [hentries] at hentry
    have hliteral := Program.mem_literals_of_site (List.mem_filter.1 hentry).1 hmem
    obtain ⟨u, hu, hvalue, hoffset⟩ := Tree.exists_leafOf hliteral
    -- The literal that was collected at the site is the one that is replaced there.
    obtain rfl : u = t := (hall.leaf hu).eq_of_offset? (hall.leaf ht) hoffset hsite
    refine ⟨x.2.value, hvalue, ?_⟩
    rw [hhoisted]
    exact List.mem_map_of_mem (f := fun x : String × LiteralEntry => (x.1, x.2.value)) hx'
  · cases hnone

/-- What is given for the keys of a plan undoes it. -/
theorem undoes (h : Settled p modules final) {m : ReadModule} {plan : ModulePlan}
    (hx : (m, plan) ∈ modules.zip (planModules p modules))
    (hread : Program.parse? m.source.text m.source.dialect = some m.program)
    {given : String → Option Tree} (hgiven : GivesKeys plan given) :
    Undoes plan given (m.program.survey m.source.dialect).namesInUse
      (Tree.literalLeavesOf m.program.statements) := by
  have hmem : ∀ x ∈ plan.hoisted, x ∈ (planModules p modules).flatMap ModulePlan.hoisted :=
    fun x hx' => List.mem_flatMap.2 ⟨plan, (List.of_mem_zip hx).2, hx'⟩
  constructor
  · exact fun n hn => hgiven.others _ fun hkey => h.rename_ne_key hx hkey hn rfl
  · intro t ht key hkey
    obtain ⟨l, hl, hhoisted⟩ := h.exists_hoisted hx hread ht hkey
    obtain ⟨l', v, hhoisted', hv, hdenotes⟩ := hgiven.keys key (List.mem_map_of_mem hhoisted)
    have hentry := h.consistent.literals _ (hmem _ hhoisted') _ (hmem _ hhoisted) rfl
    obtain rfl : l' = l := congrArg Prod.snd hentry
    exact ⟨v, hv, Tree.alike_iff_of_denotes (Program.isRead_of_mem hread ht) hl hdenotes⟩

/-- Inlining what a module hoists undoes it exactly when no replaced literal has a lone half. -/
theorem exists_inlined (h : Settled p modules final) {m : ReadModule} {plan : ModulePlan}
    (hx : (m, plan) ∈ modules.zip (planModules p modules))
    (hread : Program.parse? m.source.text m.source.dialect = some m.program) :
    ∃ after, m.rewrite plan = some after ∧
      ((after.inlined plan.inserted).Alike (m.program.apply plan.renamesOnly) ↔
        ∀ t ∈ m.program.replaced plan, t.isLone = false) := by
  obtain ⟨after, given, hafter, hgiven, hinlined⟩ := exists_givesKeys (m := m) fun x hx' =>
    have hmem := List.mem_flatMap.2 ⟨plan, (List.of_mem_zip hx).2, hx'⟩
    ⟨h.isKey hmem, (h.mem_hoisted hmem).1⟩
  have hshaped := Program.shaped_of_parse? hread
  have hundo := (h.undoes hx hread hgiven).allAlike_iff hshaped
    (fun n hn => Program.mem_namesInUse hshaped hn _) (List.Subset.refl _)
  refine ⟨after, hafter, ?_⟩
  rw [hinlined]
  refine (and_iff_right rfl).trans ((and_iff_right rfl).trans (hundo.trans ?_))
  simp only [Program.replaced, List.mem_filter, and_imp]

/-- Literals with one key in a run have one value exactly when both have a lone half or none has. -/
theorem alike_iff_of_keyAt? (h : Settled p modules final) {m m' : ReadModule} {plan plan' : ModulePlan}
    (hx : (m, plan) ∈ modules.zip (planModules p modules))
    (hx' : (m', plan') ∈ modules.zip (planModules p modules))
    (hread : Program.parse? m.source.text m.source.dialect = some m.program)
    (hread' : Program.parse? m'.source.text m'.source.dialect = some m'.program) {t t' : Tree}
    (ht : t ∈ m.program.replaced plan) (ht' : t' ∈ m'.program.replaced plan')
    (hkey : plan.keyAt? t = plan'.keyAt? t') : t.Alike t' ↔ t.isLone = t'.isLone := by
  obtain ⟨hleaf, hsome⟩ := List.mem_filter.1 ht
  obtain ⟨hleaf', -⟩ := List.mem_filter.1 ht'
  obtain ⟨key, hkey₁⟩ := Option.isSome_iff_exists.1 hsome
  obtain ⟨l, hl, hhoisted⟩ := h.exists_hoisted hx hread hleaf hkey₁
  obtain ⟨l', hl', hhoisted'⟩ := h.exists_hoisted hx' hread' hleaf' (hkey.symm.trans hkey₁)
  have hentry := h.consistent.literals _ (List.mem_flatMap.2 ⟨plan, (List.of_mem_zip hx).2, hhoisted⟩)
    _ (List.mem_flatMap.2 ⟨plan', (List.of_mem_zip hx').2, hhoisted'⟩) rfl
  obtain rfl : l = l' := congrArg Prod.snd hentry
  exact Tree.alike_iff_of_value? (Program.isRead_of_mem hread hleaf)
    (Program.isRead_of_mem hread' hleaf') hl hl'

end Settled

/-! ## Modules of two strings -/

/-- The program that lists two strings. -/
def Program.ofStrings (a b : StringLiteral) : Program where
  statements := [.node .expression [.node (.array false) [.string a, .string b]]]

/-- A program that lists two strings has no names. -/
theorem Program.survey_ofStrings (a b : StringLiteral) : (Program.ofStrings a b).survey {} = {} := by
  have hempty : sortNames [] = [] := sortNames_eq (by decide) (by decide)
  have hfree : (Program.ofStrings a b).unresolved = [] := hempty
  simp only [Program.survey, hfree]
  change Survey.mk [] (sortNames []) (sortNames []) (sortNames []) false = _
  rw [hempty]

/-- The module of a text that lists two strings. -/
def ReadModule.ofStrings (text : String) (a b : StringLiteral) : ReadModule where
  source := { path := ⟨"a.js"⟩, text, dialect := {} }
  program := .ofStrings a b

/-- Whether a plan puts one key in the place of two strings. -/
def ModulePlan.shares (plan : ModulePlan) (a b : StringLiteral) : Bool :=
  (plan.keyAt? (.string a)).isSome && plan.keyAt? (.string a) == plan.keyAt? (.string b)

theorem planModules_ofStrings (text : String) (a b : StringLiteral) :
    planModules .eager [.ofStrings text a b] =
      Planner.planRun .eager [{ literals := (Program.ofStrings a b).literalTable .eager }] := by
  simp only [planModules, List.map_cons, List.map_nil, Program.analyse, ReadModule.ofStrings,
    Program.survey_ofStrings]
  rfl

/-- A run over two strings that share a key. -/
theorem exists_plan_ofStrings (text : String) (a b : StringLiteral)
    (h : ((Planner.planRun .eager [{ literals := (Program.ofStrings a b).literalTable .eager }]).all
      fun plan => plan.shares a b) = true) :
    ∃ plan, planModules .eager [.ofStrings text a b] = [plan] ∧
      (Program.ofStrings a b).replaced plan = [.string a, .string b] ∧
      plan.keyAt? (.string a) = plan.keyAt? (.string b) := by
  obtain ⟨plan, hplan⟩ := List.length_eq_one_iff.1 (length_planModules .eager [.ofStrings text a b])
  rw [← planModules_ofStrings text, hplan, List.all_cons, List.all_nil, Bool.and_true,
    ModulePlan.shares, Bool.and_eq_true] at h
  obtain ⟨hsome, hkeys⟩ := h
  have hkeys : plan.keyAt? (.string a) = plan.keyAt? (.string b) := eq_of_beq hkeys
  refine ⟨plan, hplan, ?_, hkeys⟩
  change [Tree.string a, .string b].filter _ = _
  simp [← hkeys, hsome]

/-- The string `loading` at an offset. -/
def StringLiteral.loading (start : Nat) : StringLiteral := { value := "loading", start }

/-- A string that occurs twice. -/
def ReadModule.repeated : ReadModule :=
  .ofStrings "[\"loading\",\"loading\"];" (.loading 1) (.loading 11)

theorem ReadModule.parse?_repeated :
    Program.parse? repeated.source.text repeated.source.dialect = some repeated.program := by
  decide +kernel

theorem exists_plan_repeated :
    ∃ plan, planModules .eager [.repeated] = [plan] ∧
      ReadModule.repeated.program.replaced plan = [.string (.loading 1), .string (.loading 11)] := by
  obtain ⟨plan, hplan, hreplaced, -⟩ := exists_plan_ofStrings ReadModule.repeated.source.text
    (.loading 1) (.loading 11) (by decide +kernel)
  exact ⟨plan, hplan, hreplaced⟩

/-- A string whose first unit is the lone half `d800` of a pair. -/
def StringLiteral.loneHalf : StringLiteral :=
  { value := "\uFFFDd800-loading", surrogates := true, start := 1 }

/-- A string that starts with a replacement character and the digits `d800`. -/
def StringLiteral.spelledHalf : StringLiteral := { value := "\uFFFDd800-loading", start := 18 }

/-- The two strings in one module. -/
def ReadModule.withLoneHalf : ReadModule :=
  .ofStrings "[\"\\ud800-loading\",\"\\ufffdd800-loading\"];" .loneHalf .spelledHalf

theorem ReadModule.parse?_withLoneHalf :
    Program.parse? withLoneHalf.source.text withLoneHalf.source.dialect = some withLoneHalf.program := by
  decide +kernel

theorem exists_plan_withLoneHalf :
    ∃ plan, planModules .eager [.withLoneHalf] = [plan] ∧
      ReadModule.withLoneHalf.program.replaced plan = [.string .loneHalf, .string .spelledHalf] ∧
      plan.keyAt? (.string .loneHalf) = plan.keyAt? (.string .spelledHalf) :=
  exists_plan_ofStrings ReadModule.withLoneHalf.source.text .loneHalf .spelledHalf (by decide +kernel)

/-! ## Every module of every run -/

/-- **Hoisting keeps every value that has no lone half of a pair, and no other.**  In every run, a module
that was read is shortened to a program from which the program under the renames alone can be had back: the
values that the inserted statement declares are put in the place of their keys, and the statement is taken
away.  This is so exactly when no literal that was replaced has a lone half.  And two literals of the run
that got one key, in one module or in two, have one value exactly when both have a lone half or none has. -/
theorem inlined_alike_iff {profile : Profile} {p : CompiledProfile} (hp : profile.compile = .ok p)
    {modules : List ReadModule}
    (hread : ∀ m ∈ modules, Program.parse? m.source.text m.source.dialect = some m.program)
    {m : ReadModule} {plan : ModulePlan} (hx : (m, plan) ∈ modules.zip (planModules p modules)) :
    (∃ after, m.rewrite plan = some after ∧
      ((after.inlined plan.inserted).Alike (m.program.apply plan.renamesOnly) ↔
        ∀ t ∈ m.program.replaced plan, t.isLone = false)) ∧
    ∀ m' plan', (m', plan') ∈ modules.zip (planModules p modules) →
      ∀ t ∈ m.program.replaced plan, ∀ t' ∈ m'.program.replaced plan',
        plan.keyAt? t = plan'.keyAt? t' → (t.Alike t' ↔ t.isLone = t'.isLone) := by
  obtain ⟨final, h⟩ := exists_settled hp modules
  have hm := hread m (List.of_mem_zip hx).1
  refine ⟨h.exists_inlined hx hm, ?_⟩
  intro m' plan' hx' t ht t' ht' hkey
  exact h.alike_iff_of_keyAt? hx hx' hm (hread m' (List.of_mem_zip hx').1) ht ht' hkey

/-- The values of a module in which one string occurs twice are kept. -/
theorem inlined_alike_iff_repeated :
    ∃ plan after, planModules .eager [.repeated] = [plan] ∧
      (ReadModule.repeated.program.replaced plan).length = 2 ∧
      ReadModule.repeated.rewrite plan = some after ∧
      (after.inlined plan.inserted).Alike (ReadModule.repeated.program.apply plan.renamesOnly) := by
  obtain ⟨plan, hplan, hreplaced⟩ := exists_plan_repeated
  obtain ⟨⟨after, hafter, halike⟩, -⟩ := inlined_alike_iff Profile.compile_eager
    (List.forall_mem_singleton.2 ReadModule.parse?_repeated)
    (show (.repeated, plan) ∈ _ by rw [hplan]; exact List.mem_singleton.2 rfl)
  refine ⟨plan, after, hplan, by rw [hreplaced]; rfl, hafter, halike.2 ?_⟩
  rw [hreplaced]
  simp [Tree.isLone, StringLiteral.loading]

/-! ## A string with a lone half -/

/-- **Strings with a lone half are mixed up with others**: the string whose first unit is the lone half
`d800` shares a key with the one that starts with a replacement character and these four digits, and the
value that is declared is the second one. -/
theorem lone_surrogate_shares_key :
    Profile.eager.compile = .ok .eager ∧
      Program.parse? ReadModule.withLoneHalf.source.text ReadModule.withLoneHalf.source.dialect =
        some ReadModule.withLoneHalf.program ∧
      ∃ plan after, planModules .eager [.withLoneHalf] = [plan] ∧
        (∃ t ∈ ReadModule.withLoneHalf.program.replaced plan,
          ∃ t' ∈ ReadModule.withLoneHalf.program.replaced plan,
            plan.keyAt? t = plan.keyAt? t' ∧ ¬ t.Alike t') ∧
        ReadModule.withLoneHalf.rewrite plan = some after ∧
        ¬ (after.inlined plan.inserted).Alike
          (ReadModule.withLoneHalf.program.apply plan.renamesOnly) := by
  refine ⟨Profile.compile_eager, ReadModule.parse?_withLoneHalf, ?_⟩
  obtain ⟨plan, hplan, hreplaced, hkeys⟩ := exists_plan_withLoneHalf
  obtain ⟨final, h⟩ := exists_settled Profile.compile_eager [.withLoneHalf]
  obtain ⟨after, hafter, halike⟩ := h.exists_inlined
    (show (.withLoneHalf, plan) ∈ _ by rw [hplan]; exact List.mem_singleton.2 rfl)
    ReadModule.parse?_withLoneHalf
  have hunits : StringLiteral.loneHalf.units ≠ StringLiteral.spelledHalf.units := by decide +kernel
  refine ⟨plan, after, hplan, ?_, hafter, ?_⟩
  · rw [hreplaced]
    exact ⟨_, List.mem_cons_self, _, List.mem_cons_of_mem _ List.mem_cons_self, hkeys, hunits⟩
  · rw [halike, hreplaced]
    exact fun hnone => Bool.false_ne_true (hnone _ List.mem_cons_self).symm

end Abridge
