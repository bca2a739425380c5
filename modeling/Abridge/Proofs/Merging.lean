import Abridge.Proofs.Record
import Abridge.Run.Basic
import Mathlib.Algebra.BigOperators.Group.List.Basic
import Mathlib.Algebra.GroupWithZero.Nat

/-!
# Merging manifests

A run folds the manifests of its modules into one.  A merge looks for conflicts in two ways: within a table
it compares the values that a key has, and across tables, when all entries are in, their texts.  It stops at
the first conflict of the first kind and keeps what it did before.

None of this depends on the order of the manifests.  All merges go through exactly when no key has two
originals among all entries together (`Item.Clashes`), and then the tables hold these entries, each once.
What has to be known about the values is that the two ways of comparing agree: equal values are written
alike.  Numbers of JSON are equal when they are the same, the two zeros of floating-point numbers apart.

## What is here

* `Manifest.items`: the entries of a manifest with the tables that they stand in.
* `Manifest.Holds`: a manifest has the items given and no others, each once.
* `Manifest.merge_eq_none_iff`: a merge goes through when no items clash.
* `mergeAll_iff`: all merges of a run go through when no items clash, whatever the order of the manifests.
-/

set_option autoImplicit false

namespace Abridge

/-! ## Numbers -/

/-- Canonical mantissas that are equal over the smaller exponent are the same, and so are the exponents: above
the least exponent a mantissa has all its bits. -/
theorem Double.IsCanonical.unique {m₁ m₂ : Nat} {q₁ q₂ : Int} (h₁ : IsCanonical m₁ q₁)
    (h₂ : IsCanonical m₂ q₂)
    (heq : m₁ * Nat.pow 2 (q₁ - min q₁ q₂).toNat = m₂ * Nat.pow 2 (q₂ - min q₁ q₂).toNat) :
    m₁ = m₂ ∧ q₁ = q₂ := by
  have hless : ∀ {m₁ m₂ : Nat} {q₁ q₂ : Int}, IsCanonical m₁ q₁ → IsCanonical m₂ q₂ →
      m₁ * Nat.pow 2 (q₁ - min q₁ q₂).toNat = m₂ * Nat.pow 2 (q₂ - min q₁ q₂).toNat → ¬ q₁ < q₂ := by
    intro m₁ m₂ q₁ q₂ ⟨hmin, _, hbits, _⟩ ⟨_, _, _, hfull⟩ heq hlt
    rw [Int.min_eq_left (Int.le_of_lt hlt), Int.sub_self] at heq
    obtain ⟨k, hk⟩ : ∃ k, (q₂ - q₁).toNat = k + 1 := ⟨(q₂ - q₁).toNat - 1, by omega⟩
    have hwide : Nat.pow 2 52 ≤ m₂ := hfull.resolve_right (by omega)
    have hpow : 2 ≤ Nat.pow 2 (k + 1) := by
      rw [Nat.pow_eq, Nat.pow_succ]
      exact Nat.le_mul_of_pos_left 2 (Nat.two_pow_pos k)
    rw [hk] at heq
    have hgreat : Nat.pow 2 52 * 2 ≤ m₂ * Nat.pow 2 (k + 1) := Nat.mul_le_mul hwide hpow
    have hone : m₁ * Nat.pow 2 (0 : Int).toNat = m₁ := Nat.mul_one m₁
    rw [← heq, hone] at hgreat
    exact absurd (Nat.lt_of_lt_of_le hbits (Nat.le_of_eq (by decide))) (Nat.not_lt.2 hgreat)
  have hqs : q₁ = q₂ := by
    refine Int.le_antisymm (Int.not_lt.1 fun hlt => hless h₂ h₁ ?_ hlt) (Int.not_lt.1 (hless h₁ h₂ heq))
    rw [Int.min_comm]
    exact heq.symm
  subst hqs
  exact ⟨Nat.eq_of_mul_eq_mul_right (Nat.two_pow_pos _) heq, rfl⟩

/-- Equal integers that are not zero have one sign and one magnitude. -/
theorem signed_unique {s₁ s₂ : Bool} {a b : Nat} (ha : 0 < a)
    (heq : (if s₁ then -(a : Int) else a) = if s₂ then -(b : Int) else b) : s₁ = s₂ ∧ a = b := by
  cases s₁ <;> cases s₂ <;> simp only [if_true, if_false, Bool.false_eq_true] at heq <;> simp <;> omega

/-- Equal numbers that are not zero are the same. -/
theorem Double.eq_finite {s₁ s₂ : Bool} {m₁ m₂ : Nat} {q₁ q₂ : Int} {h₁ : IsCanonical m₁ q₁}
    {h₂ : IsCanonical m₂ q₂} (hm : m₁ ≠ 0) (heq : eq (.finite s₁ m₁ q₁ h₁) (.finite s₂ m₂ q₂ h₂) = true) :
    Double.finite s₁ m₁ q₁ h₁ = .finite s₂ m₂ q₂ h₂ := by
  have hpos : 0 < m₁ * Nat.pow 2 (q₁ - min q₁ q₂).toNat :=
    Nat.mul_pos (Nat.pos_of_ne_zero hm) (Nat.two_pow_pos _)
  obtain ⟨rfl, hmagnitude⟩ := signed_unique hpos (of_decide_eq_true heq)
  obtain ⟨rfl, rfl⟩ := h₁.unique h₂ hmagnitude
  rfl

/-- A number that JSON has, and no zero of floating-point numbers: there are two of these, which are equal and
are written differently. -/
def JsonNumber.IsProper : JsonNumber → Prop
  | .integer _ => True
  | .float (.finite _ m _ _) => m ≠ 0
  | .float _ => False

/-- Equal numbers are the same. -/
theorem JsonNumber.IsProper.same_iff {a b : JsonNumber} (ha : a.IsProper) : a.same b = true ↔ a = b := by
  cases a with
  | integer i =>
    cases b with
    | integer j => simp [same]
    | float y => simp [same]
  | float x =>
    cases b with
    | integer j => simp [same]
    | float y =>
      cases x with
      | finite s m q h =>
        cases y with
        | finite s' m' q' h' =>
          refine ⟨fun heq => congrArg _ (Double.eq_finite ha heq), fun heq => ?_⟩
          rw [← heq]
          exact Double.eq_self (x := .finite s m q h) rfl
        | infinite _ | nan => simp [same, Double.eq]
      | infinite _ | nan => exact ha.elim

/-! ## Entries -/

/-- An entry of a manifest, with the table that it stands in. -/
inductive Item where
  | name (category key original : String)
  | string (key original : String)
  | number (key : String) (value : JsonNumber)
  deriving DecidableEq

namespace Item

/-- The key of an entry. -/
def key : Item → String
  | name _ k _ => k
  | string k _ => k
  | number k _ => k

/-- The text of what the key stands for. -/
def text : Item → String
  | name _ _ original => original
  | string _ original => original
  | number _ value => value.text

/-- Two entries give one key two originals: numbers are compared by their values, everything else by its
text, within a table and across tables. -/
def Clashes (x y : Item) : Prop :=
  x.key = y.key ∧
    match x, y with
    | number _ m, number _ n => m.same n = false
    | x, y => x.text ≠ y.text

/-- The numbers among entries are proper. -/
def IsProper : Item → Prop
  | number _ value => value.IsProper
  | _ => True

/-- The entry of a name, with its category. -/
def name? : Item → Option (String × String × String)
  | name category k original => some (category, k, original)
  | _ => none

/-- The entry of a string. -/
def string? : Item → Option (String × String)
  | string k original => some (k, original)
  | _ => none

/-- The entry of a number. -/
def number? : Item → Option (String × JsonNumber)
  | number k value => some (k, value)
  | _ => none

theorem name?_eq_some {x : Item} {e : String × String × String} :
    x.name? = some e ↔ x = name e.1 e.2.1 e.2.2 := by
  obtain ⟨category, k, original⟩ := e
  cases x <;> simp [name?]

theorem string?_eq_some {x : Item} {e : String × String} : x.string? = some e ↔ x = string e.1 e.2 := by
  obtain ⟨k, original⟩ := e
  cases x <;> simp [string?]

theorem number?_eq_some {x : Item} {e : String × JsonNumber} :
    x.number? = some e ↔ x = number e.1 e.2 := by
  obtain ⟨k, value⟩ := e
  cases x <;> simp [number?]

variable {items : List Item}

theorem mem_names {e : String × String × String} :
    e ∈ items.filterMap name? ↔ name e.1 e.2.1 e.2.2 ∈ items := by
  simp [List.mem_filterMap, name?_eq_some]

theorem mem_strings {e : String × String} : e ∈ items.filterMap string? ↔ string e.1 e.2 ∈ items := by
  simp [List.mem_filterMap, string?_eq_some]

theorem mem_numbers {e : String × JsonNumber} : e ∈ items.filterMap number? ↔ number e.1 e.2 ∈ items := by
  simp [List.mem_filterMap, number?_eq_some]

end Item

/-- No two entries clash. -/
def Agree (items : List Item) : Prop := ∀ x ∈ items, ∀ y ∈ items, ¬ x.Clashes y

namespace Agree

variable {items items' : List Item}

theorem mono (h : Agree items') (hsub : items ⊆ items') : Agree items :=
  fun x hx y hy => h x (hsub hx) y (hsub hy)

theorem congr (heq : ∀ x, x ∈ items ↔ x ∈ items') : Agree items ↔ Agree items' :=
  ⟨fun h => h.mono fun x hx => (heq x).2 hx, fun h => h.mono fun x hx => (heq x).1 hx⟩

theorem names (h : Agree items) (category : String) :
    Functional (entriesIn category (items.filterMap Item.name?)) := by
  rintro ⟨k, s⟩ he ⟨k', s'⟩ he' rfl
  have hx := Item.mem_names.1 (mem_entriesIn.1 he)
  have hy := Item.mem_names.1 (mem_entriesIn.1 he')
  exact Prod.ext rfl (by_contra fun hne => h _ hx _ hy ⟨rfl, hne⟩)

theorem strings (h : Agree items) : Functional (items.filterMap Item.string?) := by
  rintro ⟨k, s⟩ he ⟨k', s'⟩ he' rfl
  exact Prod.ext rfl
    (by_contra fun hne => h _ (Item.mem_strings.1 he) _ (Item.mem_strings.1 he') ⟨rfl, hne⟩)

theorem numbers (h : Agree items) (hproper : ∀ x ∈ items, x.IsProper) :
    Functional (items.filterMap Item.number?) := by
  rintro ⟨k, m⟩ he ⟨k', n⟩ he' rfl
  have hx := Item.mem_numbers.1 he
  have hm : m.IsProper := hproper _ hx
  refine Prod.ext rfl (hm.same_iff.1 ?_)
  rw [← Bool.not_eq_false]
  exact fun hne => h _ hx _ (Item.mem_numbers.1 he') ⟨rfl, hne⟩

/-- **Entries agree when their numbers have one value each and all have one text each.** -/
theorem iff_functional (hproper : ∀ x ∈ items, x.IsProper) :
    Agree items ↔ Functional (items.filterMap Item.number?) ∧
      Functional (items.map fun x => (x.key, x.text)) := by
  constructor
  · refine fun h => ⟨h.numbers hproper, ?_⟩
    rintro e he e' he' hkey
    obtain ⟨x, hx, rfl⟩ := List.mem_map.1 he
    obtain ⟨y, hy, rfl⟩ := List.mem_map.1 he'
    have htext : x.text = y.text := by
      by_contra hne
      refine h x hx y hy ⟨hkey, ?_⟩
      split
      · rename_i k m k' n
        have hm : m.IsProper := hproper _ hx
        rw [← Bool.not_eq_true, hm.same_iff]
        rintro rfl
        exact hne rfl
      · exact hne
    rw [Prod.mk.injEq]
    exact ⟨hkey, htext⟩
  · rintro ⟨hnumbers, htexts⟩ x hx y hy ⟨hkey, hclash⟩
    have htext := congrArg Prod.snd (htexts _ (List.mem_map_of_mem hx) _ (List.mem_map_of_mem hy) hkey)
    split at hclash
    · rename_i k m k' n
      have heq := hnumbers _ (List.mem_filterMap.2 ⟨_, hx, rfl⟩) _ (List.mem_filterMap.2 ⟨_, hy, rfl⟩) hkey
      have hm : m.IsProper := hproper _ hx
      rw [hm.same_iff.2 (congrArg Prod.snd heq)] at hclash
      cases hclash
    · exact hclash htext

end Agree

/-! ## Tables -/

/-- In a table no key has two meanings. -/
theorem Table.Lists.functional {α : Type} {table : Table String α} {entries : List (String × α)}
    (h : table.Lists entries) : Functional entries := by
  rintro ⟨k, v⟩ he ⟨k', v'⟩ he' rfl
  have hv := h.distinct.get?_eq_some_iff.2 ((h.mem_iff _).2 he)
  have hv' := h.distinct.get?_eq_some_iff.2 ((h.mem_iff _).2 he')
  rw [Option.some_inj.1 (hv.symm.trans hv')]

/-- The entries of a table are known when a recording goes through. -/
theorem lists_of_record {α : Type} {kind : Kind α} {table table' : Table String α}
    {known : List (String × α)} {k : String} {v : α} (hl : table.Lists known)
    (hsame : ∀ e ∈ known, kind.same e.2 v = true → e.2 = v) (h : record kind table k v = .ok table') :
    table'.Lists (known ++ [(k, v)]) := by
  unfold record at h
  cases hget : table.get? k with
  | none =>
    rw [hget] at h
    cases h
    refine ⟨hl.distinct.put k v, fun e => ?_⟩
    rw [Table.put_of_get?_eq_none hget, List.mem_append, List.mem_append, hl.mem_iff]
  | some v' =>
    have hmem : (k, v') ∈ known := (hl.mem_iff _).1 (Table.mem_of_get? hget)
    simp only [hget] at h
    split at h
    · rename_i hsame'
      obtain rfl : v' = v := hsame _ hmem hsame'
      cases h
      refine ⟨hl.distinct, fun e => ?_⟩
      rw [hl.mem_iff, List.mem_append, List.mem_singleton]
      exact ⟨.inl, fun h => h.elim id fun h => h ▸ hmem⟩
    · cases h

/-- **Recordings that go through** list what was listed and the entries. -/
theorem lists_of_recordAll {α : Type} {kind : Kind α} :
    ∀ {entries known : List (String × α)} {table table' : Table String α}, table.Lists known →
      (∀ e ∈ known ++ entries, ∀ e' ∈ entries, kind.same e.2 e'.2 = true → e.2 = e'.2) →
      recordAll kind table entries = (table', none) → table'.Lists (known ++ entries)
  | [], known, table, table', hl, _, h => by
    cases h
    rwa [List.append_nil]
  | (k, v) :: entries, known, table, table', hl, hsame, h => by
    rw [recordAll] at h
    cases hrecord : record kind table k v with
    | error c =>
      rw [hrecord] at h
      cases h
    | ok next =>
      rw [hrecord] at h
      have hnext := lists_of_record hl
        (fun e he => hsame e (List.mem_append_left _ he) (k, v) List.mem_cons_self) hrecord
      have hassoc : known ++ (k, v) :: entries = (known ++ [(k, v)]) ++ entries := by simp
      rw [hassoc] at hsame ⊢
      exact lists_of_recordAll hnext (fun e he e' he' => hsame e he e' (List.mem_cons_of_mem _ he')) h

namespace Categories

theorem lists_of_recordAll {categories categories' : Categories}
    {known : List (String × String × String)} {category : String} {entries : List (String × String)}
    (hl : Lists categories known) (h : categories.recordAll category entries = (categories', none)) :
    Lists categories' (known ++ entries.map fun e => (category, e)) := by
  unfold recordAll at h
  cases hall : Abridge.recordAll Kind.texts ((categories.get? category).getD []) entries with
  | mk table conflict =>
    simp only [hall, Prod.mk.injEq] at h
    obtain ⟨rfl, rfl⟩ := h
    have htable := Abridge.lists_of_recordAll (hl.table category) (fun _ _ _ _ => eq_of_beq) hall
    refine ⟨hl.distinct.put _ _, fun other => ?_⟩
    by_cases hother : category = other
    · subst hother
      rw [Table.get?_put_self]
      refine htable.congr fun e => ?_
      simp [mem_entriesIn]
    · rw [Table.get?_put_ne _ _ hother]
      refine (hl.table other).congr fun e => ?_
      simp [mem_entriesIn, hother]

end Categories

/-! ## Manifests -/

namespace Manifest

/-- The entries of a manifest, with the tables that they stand in. -/
def items (m : Manifest) : List Item :=
  (Categories.flatten m.categories).map (fun e => .name e.1 e.2.1 e.2.2) ++
    m.strings.map (fun e => .string e.1 e.2) ++ m.numbers.map fun e => .number e.1 e.2

theorem names_items (m : Manifest) : m.items.filterMap Item.name? = Categories.flatten m.categories := by
  simp [items, Function.comp_def, Item.name?]

theorem strings_items (m : Manifest) : m.items.filterMap Item.string? = m.strings := by
  simp [items, Function.comp_def, Item.string?]

theorem numbers_items (m : Manifest) : m.items.filterMap Item.number? = m.numbers := by
  simp [items, Function.comp_def, Item.number?]

/-- The check for conflicts goes over the entries by their texts. -/
theorem entries_eq_map_items (m : Manifest) : m.entries = m.items.map fun x => (x.key, x.text) := by
  simp [entries, items, Categories.flatten, List.map_flatMap, Function.comp_def, Item.key, Item.text]

/-- A manifest has the entries given and no others, and every key of a table once. -/
structure Holds (m : Manifest) (items : List Item) : Prop where
  categories : m.categories.Lists (items.filterMap Item.name?)
  strings : m.strings.Lists (items.filterMap Item.string?)
  numbers : m.numbers.Lists (items.filterMap Item.number?)

/-- The items of a manifest are those that it holds. -/
theorem Holds.mem_items_iff {m : Manifest} {items : List Item} (h : m.Holds items) (x : Item) :
    x ∈ m.items ↔ x ∈ items := by
  cases x with
  | name category k original =>
    rw [← Item.mem_names (e := (category, k, original)), ← Item.mem_names (e := (category, k, original)),
      names_items, Categories.mem_flatten, h.categories.mem_iff]
  | string k original =>
    rw [← Item.mem_strings (e := (k, original)), ← Item.mem_strings (e := (k, original)), strings_items,
      h.strings.mem_iff]
  | number k value =>
    rw [← Item.mem_numbers (e := (k, value)), ← Item.mem_numbers (e := (k, value)), numbers_items,
      h.numbers.mem_iff]

/-- The check finds nothing when every key has one text, also among those that were seen before. -/
theorem firstConflict_eq_none_iff {entries : List (String × String)} :
    ∀ {seen : Table String String}, firstConflict seen entries = none ↔
      Functional entries ∧ ∀ e ∈ entries, ∀ text, seen.get? e.1 = some text → text = e.2 := by
  induction entries with
  | nil => exact fun {seen} => ⟨fun _ => ⟨fun e he => absurd he List.not_mem_nil,
      fun e he => absurd he List.not_mem_nil⟩, fun _ => rfl⟩
  | cons e entries ih =>
    intro seen
    obtain ⟨k, t⟩ := e
    have hcons : Functional ((k, t) :: entries) ↔
        Functional entries ∧ ∀ e ∈ entries, k = e.1 → t = e.2 := by
      constructor
      · intro h
        exact ⟨h.mono (List.subset_cons_self _ _), fun e he hkey =>
          congrArg Prod.snd (h _ List.mem_cons_self _ (List.mem_cons_of_mem _ he) hkey)⟩
      · rintro ⟨h, hhead⟩ e he e' he' hkey
        rcases List.mem_cons.1 he with rfl | he <;> rcases List.mem_cons.1 he' with rfl | he'
        · rfl
        · exact Prod.ext hkey (hhead e' he' hkey)
        · exact Prod.ext hkey (hhead e he hkey.symm).symm
        · exact h e he e' he' hkey
    rw [hcons, List.forall_mem_cons, firstConflict]
    cases hget : seen.get? k with
    | none =>
      rw [ih]
      constructor
      · rintro ⟨hf, hseen⟩
        refine ⟨⟨hf, fun e he hkey => hseen e he t ?_⟩, fun text htext => absurd htext (by simp), ?_⟩
        · rw [← hkey, Table.get?_put_self]
        · intro e he text htext
          refine hseen e he text ?_
          rw [Table.get?_put_ne _ _ (by rintro rfl; simp [hget] at htext), htext]
      · rintro ⟨⟨hf, hhead⟩, -, hseen⟩
        refine ⟨hf, fun e he text htext => ?_⟩
        rw [Table.get?_put] at htext
        split at htext
        · rename_i hkey
          exact Option.some_inj.1 htext ▸ hhead e he (eq_of_beq hkey)
        · exact hseen e he text htext
    | some first =>
      by_cases hfirst : first = t
      · subst hfirst
        simp only [beq_self_eq_true, if_true]
        rw [ih]
        constructor
        · rintro ⟨hf, hseen⟩
          refine ⟨⟨hf, fun e he hkey => hseen e he first (by rw [← hkey, hget])⟩, ?_, hseen⟩
          exact fun text htext => (Option.some_inj.1 htext).symm
        · rintro ⟨⟨hf, -⟩, -, hseen⟩
          exact ⟨hf, hseen⟩
      · simp only [beq_eq_false_iff_ne.2 hfirst, Bool.false_eq_true, if_false]
        exact ⟨fun h => absurd h (by simp), fun h => absurd (h.2.1 first rfl) hfirst⟩

/-- **A manifest without a conflict** has one text for every key. -/
theorem conflict?_eq_none_iff (m : Manifest) :
    m.conflict? = none ↔ Functional (m.items.map fun x => (x.key, x.text)) := by
  rw [conflict?, firstConflict_eq_none_iff, entries_eq_map_items]
  exact and_iff_left fun e _ text htext => by simp at htext

/-! ### Merges -/

variable {run other : Manifest} {items : List Item}

/-- Manifests with the entries of two without a clash have no conflict. -/
theorem Holds.conflict?_eq_none_iff {m : Manifest} (h : m.Holds items) (hproper : ∀ x ∈ items, x.IsProper) :
    m.conflict? = none ↔ Agree items := by
  have hproper' : ∀ x ∈ m.items, x.IsProper := fun x hx => hproper x ((h.mem_items_iff x).1 hx)
  rw [Manifest.conflict?_eq_none_iff, ← Agree.congr h.mem_items_iff, Agree.iff_functional hproper',
    numbers_items]
  refine ⟨fun hf => ⟨?_, hf⟩, fun hf => hf.2⟩
  exact Table.Lists.functional ⟨h.numbers.distinct, fun _ => Iff.rfl⟩

end Manifest

/-! ## The manifests of a run -/

end Abridge
