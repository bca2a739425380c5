import Abridge.Manifest.Basic
import Abridge.Proofs.Table
import Mathlib.Data.List.Nodup

/-!
# What a manifest records

A manifest is built by recording one meaning after the other, and a recording can fail: a key that has
a meaning keeps it and refuses another.  Whether it fails depends on the entries alone.  When no key
has two meanings among all that is recorded (`Consistent`), every recording and every merge goes
through, and the tables that come out hold these entries and no others (`Manifest.Records`).

The order of the tables is not part of that: a manifest of a run meets the same entry in several
modules and keeps it where it came in first.

## What is here

* `Table.Lists`, `Categories.Lists`: a table holds exactly the entries given, each key once.
* `Manifest.ofModule_eq`, `Manifest.merge_eq`: recording and merging consistent entries.
* `Manifest.conflict?_eq_none`: no key of such a manifest has two meanings.
-/

set_option autoImplicit false

namespace Abridge

/-! ## Tables -/

/-- No key has two meanings. -/
def Functional {α : Type} (entries : List (String × α)) : Prop :=
  ∀ e ∈ entries, ∀ e' ∈ entries, e.1 = e'.1 → e = e'

theorem Functional.mono {α : Type} {entries entries' : List (String × α)} (h : Functional entries')
    (hsub : entries ⊆ entries') : Functional entries :=
  fun e he e' he' => h e (hsub he) e' (hsub he')

/-- A table holds the entries given and no others, and every key once. -/
structure Table.Lists {α : Type} (table : Table String α) (entries : List (String × α)) : Prop where
  distinct : table.Distinct
  mem_iff : ∀ e, e ∈ table ↔ e ∈ entries

theorem Table.lists_nil {α : Type} : Table.Lists ([] : Table String α) [] :=
  ⟨Table.distinct_nil, fun _ => Iff.rfl⟩

theorem Table.Lists.congr {α : Type} {table : Table String α} {entries entries' : List (String × α)}
    (h : table.Lists entries) (heq : ∀ e, e ∈ entries ↔ e ∈ entries') : table.Lists entries' :=
  ⟨h.distinct, fun e => (h.mem_iff e).trans (heq e)⟩

/-- One recording goes through when the key has no other meaning. -/
theorem record_eq {α : Type} {kind : Kind α} {table : Table String α}
    {known : List (String × α)} {key : String} {value : α} (hl : table.Lists known)
    (hf : Functional (known ++ [(key, value)])) (hsame : kind.same value value = true) :
    ∃ table', record kind table key value = .ok table' ∧ table'.Lists (known ++ [(key, value)]) := by
  cases hget : table.get? key with
  | none =>
    refine ⟨table.put key value, by simp [record, hget], hl.distinct.put key value, fun e => ?_⟩
    rw [Table.put_of_get?_eq_none hget, List.mem_append, List.mem_append, hl.mem_iff]
  | some value' =>
    have hmem : (key, value') ∈ known := (hl.mem_iff _).1 (Table.mem_of_get? hget)
    have heq := hf _ (List.mem_append_left _ hmem) _
      (List.mem_append_right known (List.mem_singleton.2 rfl)) rfl
    rw [Prod.mk.injEq] at heq
    obtain ⟨-, rfl⟩ := heq
    refine ⟨table, by simp [record, hget, hsame], hl.distinct, fun e => ?_⟩
    rw [hl.mem_iff, List.mem_append, List.mem_singleton]
    exact ⟨.inl, fun h => h.elim id fun h => h ▸ hmem⟩

/-- **Recording entries without a conflict**: the table then lists what it listed and the entries. -/
theorem recordAll_eq {α : Type} {kind : Kind α} :
    ∀ {entries known : List (String × α)} {table : Table String α}, table.Lists known →
      Functional (known ++ entries) → (∀ e ∈ entries, kind.same e.2 e.2 = true) →
      ∃ table', recordAll kind table entries = (table', none) ∧ table'.Lists (known ++ entries)
  | [], known, table, hl, _, _ => ⟨table, rfl, by rwa [List.append_nil]⟩
  | (key, value) :: entries, known, table, hl, hf, hsame => by
    have hassoc : known ++ (key, value) :: entries = (known ++ [(key, value)]) ++ entries := by simp
    rw [hassoc] at hf ⊢
    obtain ⟨table₁, hrecord, hl₁⟩ := record_eq hl (hf.mono (List.subset_append_left _ _))
      (hsame (key, value) List.mem_cons_self)
    obtain ⟨table', hall, hl'⟩ := recordAll_eq hl₁ hf fun e he => hsame e (List.mem_cons_of_mem _ he)
    exact ⟨table', by rw [recordAll, hrecord]; exact hall, hl'⟩

/-! ## Categories -/

/-- The entries of a category. -/
def entriesIn (category : String) (entries : List (String × String × String)) :
    List (String × String) :=
  (entries.filter fun e => e.1 == category).map Prod.snd

theorem mem_entriesIn {category : String} {entries : List (String × String × String)}
    {e : String × String} : e ∈ entriesIn category entries ↔ (category, e) ∈ entries := by
  unfold entriesIn
  rw [List.mem_map]
  constructor
  · rintro ⟨x, hx, rfl⟩
    obtain ⟨hx, hcat⟩ := List.mem_filter.1 hx
    have hcat' : x.1 = category := by simpa using hcat
    exact hcat' ▸ hx
  · exact fun h => ⟨(category, e), List.mem_filter.2 ⟨h, by simp⟩, rfl⟩

namespace Categories

/-- The tables of the categories hold the entries given and no others. -/
structure Lists (categories : Categories) (entries : List (String × String × String)) : Prop where
  distinct : Table.Distinct categories
  table : ∀ category, Table.Lists ((categories.get? category).getD []) (entriesIn category entries)

theorem lists_nil : Lists [] [] :=
  ⟨Table.distinct_nil, fun _ => Table.lists_nil⟩

theorem Lists.congr {categories : Categories} {entries entries' : List (String × String × String)}
    (h : Lists categories entries) (heq : ∀ e, e ∈ entries ↔ e ∈ entries') :
    Lists categories entries' :=
  ⟨h.distinct, fun category => (h.table category).congr fun e => by
    rw [mem_entriesIn, mem_entriesIn, heq]⟩

/-- An entry stands in the table of its category. -/
theorem Lists.mem_iff {categories : Categories} {entries : List (String × String × String)}
    (h : Lists categories entries) {category : String} {e : String × String} :
    (∃ table, (category, table) ∈ categories ∧ e ∈ table) ↔ (category, e) ∈ entries := by
  rw [← mem_entriesIn, ← (h.table category).mem_iff e]
  constructor
  · rintro ⟨table, htable, he⟩
    rw [h.distinct.get?_eq_some_iff.2 htable]
    exact he
  · intro he
    cases hget : categories.get? category with
    | none =>
      rw [hget] at he
      exact absurd he List.not_mem_nil
    | some table =>
      rw [hget] at he
      exact ⟨table, Table.mem_of_get? hget, he⟩

/-- Recording entries in one category. -/
theorem recordAll_eq {categories : Categories} {known : List (String × String × String)}
    {category : String} {entries : List (String × String)} (hl : Lists categories known)
    (hf : Functional (entriesIn category known ++ entries)) :
    ∃ categories', categories.recordAll category entries = (categories', none) ∧
      Lists categories' (known ++ entries.map fun e => (category, e)) := by
  obtain ⟨table, hall, htable⟩ :
      ∃ table, Abridge.recordAll Kind.texts ((categories.get? category).getD []) entries =
        (table, none) ∧ table.Lists (entriesIn category known ++ entries) :=
    Abridge.recordAll_eq (hl.table category) hf fun e _ => beq_self_eq_true e.2
  refine ⟨categories.put category table, by simp only [recordAll, hall], hl.distinct.put _ _, ?_⟩
  intro other
  by_cases hother : category = other
  · subst hother
    rw [Table.get?_put_self]
    refine htable.congr fun e => ?_
    simp [mem_entriesIn]
  · rw [Table.get?_put_ne _ _ hother]
    refine (hl.table other).congr fun e => ?_
    simp [mem_entriesIn, hother]

/-- The entries of categories, each with its category. -/
def flatten (categories : List (String × Table String String)) : List (String × String × String) :=
  categories.flatMap fun x => x.2.map fun e => (x.1, e)

theorem mem_flatten {categories : List (String × Table String String)} {category : String}
    {e : String × String} :
    (category, e) ∈ flatten categories ↔ ∃ table, (category, table) ∈ categories ∧ e ∈ table := by
  unfold flatten
  rw [List.mem_flatMap]
  constructor
  · rintro ⟨⟨c, table⟩, hx, he⟩
    obtain ⟨e', he', heq⟩ := List.mem_map.1 he
    cases heq
    exact ⟨table, hx, he'⟩
  · rintro ⟨table, hx, he⟩
    exact ⟨(category, table), hx, List.mem_map_of_mem (f := fun e => (category, e)) he⟩

/-- Merging categories one after the other. -/
theorem merge_eq : ∀ {others : List (String × Table String String)} {categories : Categories}
    {known : List (String × String × String)}, Lists categories known →
    (∀ category, Functional (entriesIn category (known ++ flatten others))) →
    ∃ categories', categories.merge others = (categories', none) ∧
      Lists categories' (known ++ flatten others)
  | [], categories, known, hl, _ => ⟨categories, rfl, hl.congr fun e => by simp [flatten]⟩
  | (category, entries) :: others, categories, known, hl, hf => by
    have hflat : known ++ flatten ((category, entries) :: others) =
        (known ++ entries.map fun e => (category, e)) ++ flatten others := by
      simp [flatten]
    rw [hflat] at hf ⊢
    have hin : Functional (entriesIn category known ++ entries) := by
      refine (hf category).mono fun e he => mem_entriesIn.2 ?_
      rcases List.mem_append.1 he with he | he
      · simp [mem_entriesIn.1 he]
      · simp [he]
    obtain ⟨categories₁, hrecord, hl₁⟩ := recordAll_eq hl hin
    obtain ⟨categories', hmerge, hl'⟩ := merge_eq hl₁ hf
    exact ⟨categories', by rw [merge, hrecord]; exact hmerge, hl'⟩

end Categories

/-! ## Entries of a run -/

/-- The entry of a hoisted string. -/
def stringEntry : String × Literal → Option (String × String)
  | (key, .string s) => some (key, s)
  | (_, .number _) => none

/-- The entry of a hoisted number. -/
def numberEntry : String × Literal → Option (String × JsonNumber)
  | (_, .string _) => none
  | (key, .number x) => (JsonNumber.ofDouble? x).map fun n => (key, n)

/-- The entry of a renaming, with its category. -/
def Renaming.entry (r : Renaming) : String × String × String := (r.category, r.shortName, r.name)

theorem stringEntry_eq_some {h : String × Literal} {e : String × String} :
    stringEntry h = some e ↔ h = (e.1, .string e.2) := by
  obtain ⟨key, value⟩ := h
  obtain ⟨k, s⟩ := e
  cases value <;> simp [stringEntry]

theorem fst_of_numberEntry {h : String × Literal} {e : String × JsonNumber}
    (he : numberEntry h = some e) : e.1 = h.1 := by
  obtain ⟨key, value⟩ := h
  cases value with
  | string s => cases he
  | number x =>
    obtain ⟨n, -, rfl⟩ := Option.map_eq_some_iff.1 he
    rfl

/-- No key stands for two things. -/
structure Consistent (renamings : List Renaming) (hoisted : List (String × Literal)) : Prop where
  names : ∀ r ∈ renamings, ∀ r' ∈ renamings, r.shortName = r'.shortName → r.entry = r'.entry
  literals : Functional hoisted
  apart : ∀ r ∈ renamings, ∀ h ∈ hoisted, r.shortName ≠ h.1

theorem Consistent.mono {renamings renamings' : List Renaming} {hoisted hoisted' : List (String × Literal)}
    (h : Consistent renamings' hoisted') (hr : renamings ⊆ renamings') (hh : hoisted ⊆ hoisted') :
    Consistent renamings hoisted :=
  ⟨fun r hr' r' hr'' => h.names r (hr hr') r' (hr hr''), h.literals.mono hh,
    fun r hr' x hx => h.apart r (hr hr') x (hh hx)⟩

theorem Consistent.functional_names {renamings : List Renaming} {hoisted : List (String × Literal)}
    (h : Consistent renamings hoisted) (category : String) :
    Functional (entriesIn category (renamings.map Renaming.entry)) := by
  intro e he e' he' hkey
  obtain ⟨r, hr, heq⟩ := List.mem_map.1 (mem_entriesIn.1 he)
  obtain ⟨r', hr', heq'⟩ := List.mem_map.1 (mem_entriesIn.1 he')
  have hshort : r.shortName = r'.shortName := by
    have h₁ : r.shortName = e.1 := congrArg (fun x => x.2.1) heq
    have h₂ : r'.shortName = e'.1 := congrArg (fun x => x.2.1) heq'
    rw [h₁, h₂, hkey]
  have hentry := h.names r hr r' hr' hshort
  rw [heq, heq'] at hentry
  exact congrArg Prod.snd hentry

theorem Functional.strings {hoisted : List (String × Literal)} (h : Functional hoisted) :
    Functional (hoisted.filterMap stringEntry) := by
  intro e he e' he' hkey
  obtain ⟨x, hx, hxe⟩ := List.mem_filterMap.1 he
  obtain ⟨x', hx', hxe'⟩ := List.mem_filterMap.1 he'
  rw [stringEntry_eq_some] at hxe hxe'
  subst hxe hxe'
  have := h _ hx _ hx' hkey
  simpa [Prod.ext_iff] using this

theorem Functional.numbers {hoisted : List (String × Literal)} (h : Functional hoisted) :
    Functional (hoisted.filterMap numberEntry) := by
  intro e he e' he' hkey
  obtain ⟨x, hx, hxe⟩ := List.mem_filterMap.1 he
  obtain ⟨x', hx', hxe'⟩ := List.mem_filterMap.1 he'
  have hx₁ : x = x' := h x hx x' hx' (by rw [← fst_of_numberEntry hxe, ← fst_of_numberEntry hxe', hkey])
  rw [hx₁, hxe'] at hxe
  exact (Option.some_inj.1 hxe).symm

/-! ## Numbers -/

theorem Double.eq_self {x : Double} (h : x.isFinite = true) : x.eq x = true := by
  cases x with
  | finite s m q _ => simp [Double.eq, Double.aligned]
  | infinite _ => exact absurd h (by simp [Double.isFinite])
  | nan => exact absurd h (by simp [Double.isFinite])

theorem JsonNumber.same_self_of_ofDouble? {x : Double} {n : JsonNumber}
    (h : JsonNumber.ofDouble? x = some n) : n.same n = true := by
  cases n with
  | integer i => exact beq_self_eq_true i
  | float y =>
    refine Double.eq_self ?_
    unfold JsonNumber.ofDouble? at h
    split at h
    · rename_i hint
      split at h
      · cases h
      · cases h
        cases x with
        | finite s m q _ => rfl
        | infinite _ => cases hint
        | nan => cases hint
    · split at h
      · cases h
        assumption
      · cases h

theorem same_of_mem_numbers {hoisted : List (String × Literal)} {e : String × JsonNumber}
    (he : e ∈ hoisted.filterMap numberEntry) : JsonNumber.same e.2 e.2 = true := by
  obtain ⟨⟨key, value⟩, -, hx⟩ := List.mem_filterMap.1 he
  cases value with
  | string s => cases hx
  | number x =>
    obtain ⟨n, hn, rfl⟩ := Option.map_eq_some_iff.1 hx
    exact JsonNumber.same_self_of_ofDouble? hn

/-! ## Manifests -/

namespace Manifest

/-- A manifest holds the entries of these renamings and hoisted literals and no others. -/
structure Records (m : Manifest) (renamings : List Renaming) (hoisted : List (String × Literal)) :
    Prop where
  categories : Categories.Lists m.categories (renamings.map Renaming.entry)
  strings : m.strings.Lists (hoisted.filterMap stringEntry)
  numbers : m.numbers.Lists (hoisted.filterMap numberEntry)

theorem records_empty (timestamp : String) : Records { timestamp } [] [] :=
  ⟨Categories.lists_nil, Table.lists_nil, Table.lists_nil⟩

/-- Recording one renaming. -/
theorem recordRenaming_eq {m : Manifest} {renamings : List Renaming}
    {hoisted : List (String × Literal)} {r : Renaming} (hm : m.Records renamings hoisted)
    (hc : Consistent (renamings ++ [r]) hoisted) :
    ∃ m', m.recordRenaming r = .ok m' ∧ m'.Records (renamings ++ [r]) hoisted := by
  have hf : Functional (entriesIn r.category (renamings.map Renaming.entry) ++
      [(r.shortName, r.name)]) := by
    refine (hc.functional_names r.category).mono fun e he => mem_entriesIn.2 ?_
    rw [List.map_append]
    rcases List.mem_append.1 he with he | he
    · exact List.mem_append_left _ (mem_entriesIn.1 he)
    · rw [List.mem_singleton.1 he]
      exact List.mem_append_right _ (List.mem_singleton.2 rfl)
  obtain ⟨categories, hrecord, hl⟩ := Categories.recordAll_eq hm.categories hf
  refine ⟨{ m with categories }, by simp [recordRenaming, hrecord], ?_, hm.strings, hm.numbers⟩
  rw [List.map_append]
  exact hl

/-- Recording one hoisted literal. -/
theorem recordLiteral_eq {m : Manifest} {renamings : List Renaming}
    {hoisted : List (String × Literal)} {h : String × Literal} (hm : m.Records renamings hoisted)
    (hc : Consistent renamings (hoisted ++ [h])) :
    ∃ m', m.recordLiteral h.1 h.2 = .ok m' ∧ m'.Records renamings (hoisted ++ [h]) := by
  obtain ⟨key, value⟩ := h
  have hstrings := hc.literals.strings
  have hnumbers := hc.literals.numbers
  rw [List.filterMap_append] at hstrings hnumbers
  cases value with
  | string s =>
    obtain ⟨strings, hrecord, hl⟩ : ∃ strings, record Kind.texts m.strings key s = .ok strings ∧
        strings.Lists (hoisted.filterMap stringEntry ++ [(key, s)]) :=
      record_eq hm.strings hstrings (beq_self_eq_true s)
    refine ⟨{ m with strings }, by simp [recordLiteral, hrecord, Except.map], hm.categories, ?_, ?_⟩
    · rw [List.filterMap_append]
      exact hl
    · rw [List.filterMap_append]
      exact hm.numbers.congr fun e => by simp [numberEntry]
  | number x =>
    cases hx : JsonNumber.ofDouble? x with
    | none =>
      refine ⟨m, by simp [recordLiteral, hx], hm.categories, ?_, ?_⟩
      · rw [List.filterMap_append]
        exact hm.strings.congr fun e => by simp [stringEntry]
      · rw [List.filterMap_append]
        exact hm.numbers.congr fun e => by simp [numberEntry, hx]
    | some n =>
      have hentry : [(key, Literal.number x)].filterMap numberEntry = [(key, n)] := by
        simp [numberEntry, hx]
      rw [hentry] at hnumbers
      obtain ⟨numbers, hrecord, hl⟩ : ∃ numbers, record Kind.numbers m.numbers key n = .ok numbers ∧
          numbers.Lists (hoisted.filterMap numberEntry ++ [(key, n)]) :=
        record_eq hm.numbers hnumbers (JsonNumber.same_self_of_ofDouble? hx)
      refine ⟨{ m with numbers }, by simp [recordLiteral, hx, hrecord, Except.map], hm.categories,
        ?_, ?_⟩
      · rw [List.filterMap_append]
        exact hm.strings.congr fun e => by simp [stringEntry]
      · rw [List.filterMap_append, hentry]
        exact hl

theorem foldlM_recordRenaming_eq {hoisted : List (String × Literal)} :
    ∀ {new renamings : List Renaming} {m : Manifest}, m.Records renamings hoisted →
      Consistent (renamings ++ new) hoisted →
      ∃ m', new.foldlM recordRenaming m = .ok m' ∧ m'.Records (renamings ++ new) hoisted
  | [], renamings, m, hm, _ => ⟨m, rfl, by rwa [List.append_nil]⟩
  | r :: new, renamings, m, hm, hc => by
    have hassoc : renamings ++ r :: new = (renamings ++ [r]) ++ new := by simp
    rw [hassoc] at hc ⊢
    obtain ⟨m₁, hr, hm₁⟩ := recordRenaming_eq hm
      (hc.mono (List.subset_append_left _ _) (List.Subset.refl _))
    obtain ⟨m', hrest, hm'⟩ := foldlM_recordRenaming_eq hm₁ hc
    exact ⟨m', by rw [List.foldlM_cons, hr]; exact hrest, hm'⟩

theorem foldlM_recordLiteral_eq {renamings : List Renaming} :
    ∀ {new hoisted : List (String × Literal)} {m : Manifest}, m.Records renamings hoisted →
      Consistent renamings (hoisted ++ new) →
      ∃ m', new.foldlM (fun m (key, value) => m.recordLiteral key value) m = .ok m' ∧
        m'.Records renamings (hoisted ++ new)
  | [], hoisted, m, hm, _ => ⟨m, rfl, by rwa [List.append_nil]⟩
  | (key, value) :: new, hoisted, m, hm, hc => by
    have hassoc : hoisted ++ (key, value) :: new = (hoisted ++ [(key, value)]) ++ new := by simp
    rw [hassoc] at hc ⊢
    obtain ⟨m₁, hh, hm₁⟩ := recordLiteral_eq hm
      (hc.mono (List.Subset.refl _) (List.subset_append_left _ _))
    obtain ⟨m', hrest, hm'⟩ := foldlM_recordLiteral_eq hm₁ hc
    exact ⟨m', by rw [List.foldlM_cons]; dsimp only at hh ⊢; rw [hh]; exact hrest, hm'⟩

/-- **The manifest of one module** records its renamings and hoisted literals. -/
theorem ofModule_eq {renamings : List Renaming} {hoisted : List (String × Literal)}
    (hc : Consistent renamings hoisted) (timestamp : String) (modules : List ModuleRecord)
    (savings : Savings) :
    ∃ m, ofModule timestamp renamings hoisted modules savings = .ok m ∧
      m.Records renamings hoisted ∧ m.modules = modules ∧ m.savings = savings := by
  have hnamed : Consistent ([] ++ renamings) [] := hc.mono (List.Subset.refl _) (List.nil_subset _)
  obtain ⟨m₁, hnames, hm₁⟩ := foldlM_recordRenaming_eq (records_empty timestamp) hnamed
  have hall : Consistent ([] ++ renamings) ([] ++ hoisted) := hc
  obtain ⟨m₂, hliterals, hm₂⟩ := foldlM_recordLiteral_eq hm₁ hall
  refine ⟨{ m₂ with modules, savings }, ?_, ⟨hm₂.categories, hm₂.strings, hm₂.numbers⟩, rfl, rfl⟩
  rw [ofModule, hnames]
  change Except.bind (hoisted.foldlM _ m₁) _ = _
  rw [hliterals]
  rfl

/-! ### Keys across tables -/

theorem firstConflict_eq_none : ∀ {entries : List (String × String)} {seen : Table String String},
    (entries.map Prod.fst).Nodup → (∀ e ∈ entries, seen.get? e.1 = none) →
    firstConflict seen entries = none
  | [], _, _, _ => rfl
  | (key, text) :: entries, seen, hnodup, hnew => by
    rw [List.map_cons, List.nodup_cons] at hnodup
    rw [firstConflict, hnew _ List.mem_cons_self]
    refine firstConflict_eq_none hnodup.2 fun e he => ?_
    rw [Table.get?_put_ne, hnew e (List.mem_cons_of_mem _ he)]
    intro hkey
    have hmem := List.mem_map_of_mem (f := Prod.fst) he
    exact hnodup.1 (hkey ▸ hmem)

/-- The keys of the categories are distinct across all of them, since a key determines its
category. -/
theorem Records.nodup_names {m : Manifest} {renamings : List Renaming}
    {hoisted : List (String × Literal)} (hm : m.Records renamings hoisted)
    (hc : Consistent renamings hoisted) :
    ((m.categories.flatMap Prod.snd).map Prod.fst).Nodup := by
  have hmem : ∀ {category : String} {table : Table String String} {e : String × String},
      (category, table) ∈ m.categories → e ∈ table →
      ∃ r ∈ renamings, r.entry = (category, e) := by
    intro category table e htable he
    exact List.mem_map.1 (hm.categories.mem_iff.1 ⟨table, htable, he⟩)
  rw [List.map_flatMap, List.nodup_flatMap]
  constructor
  · rintro ⟨category, table⟩ htable
    have hlists := (hm.categories.table category).distinct
    rwa [hm.categories.distinct.get?_eq_some_iff.2 htable] at hlists
  · refine (List.pairwise_map.1 hm.categories.distinct).imp_of_mem ?_
    rintro ⟨category, table⟩ ⟨category', table'⟩ htable htable' hne
    intro key hkey hkey'
    obtain ⟨e, he, rfl⟩ := List.mem_map.1 hkey
    obtain ⟨e', he', heq⟩ := List.mem_map.1 hkey'
    obtain ⟨r, hr, hre⟩ := hmem htable he
    obtain ⟨r', hr', hre'⟩ := hmem htable' he'
    have hshort : r.shortName = r'.shortName := by
      have h₁ : r.shortName = e.1 := congrArg (fun x => x.2.1) hre
      have h₂ : r'.shortName = e'.1 := congrArg (fun x => x.2.1) hre'
      rw [h₁, h₂, heq]
    have hentry := hc.names r hr r' hr' hshort
    rw [hre, hre'] at hentry
    have hcategory := congrArg Prod.fst hentry
    exact hne hcategory

/-- **No key occurs twice in a manifest of consistent entries**, in one table or in two. -/
theorem Records.nodup_keys {m : Manifest} {renamings : List Renaming}
    {hoisted : List (String × Literal)} (hm : m.Records renamings hoisted)
    (hc : Consistent renamings hoisted) : (m.entries.map Prod.fst).Nodup := by
  have hnames : ∀ key ∈ (m.categories.flatMap Prod.snd).map Prod.fst,
      ∃ r ∈ renamings, r.shortName = key := by
    intro key hkey
    obtain ⟨e, he, rfl⟩ := List.mem_map.1 hkey
    obtain ⟨⟨category, table⟩, htable, he⟩ := List.mem_flatMap.1 he
    obtain ⟨r, hr, hre⟩ := List.mem_map.1 (hm.categories.mem_iff.1 ⟨table, htable, he⟩)
    exact ⟨r, hr, congrArg (fun x => x.2.1) hre⟩
  have hstrings : ∀ e ∈ m.strings, (e.1, Literal.string e.2) ∈ hoisted := by
    intro e he
    obtain ⟨h, hh, hhe⟩ := List.mem_filterMap.1 ((hm.strings.mem_iff e).1 he)
    exact stringEntry_eq_some.1 hhe ▸ hh
  have hnumbers : ∀ e ∈ m.numbers, ∃ x, (e.1, Literal.number x) ∈ hoisted := by
    intro e he
    obtain ⟨⟨key, value⟩, hh, hhe⟩ := List.mem_filterMap.1 ((hm.numbers.mem_iff e).1 he)
    cases value with
    | string s => cases hhe
    | number x =>
      rw [fst_of_numberEntry hhe]
      exact ⟨x, hh⟩
  have hkeys : m.entries.map Prod.fst = (m.categories.flatMap Prod.snd).map Prod.fst ++
      (m.strings.map Prod.fst ++ m.numbers.map Prod.fst) := by
    simp [entries, Function.comp_def]
  rw [hkeys, List.nodup_append, List.nodup_append]
  refine ⟨hm.nodup_names hc, ⟨hm.strings.distinct, hm.numbers.distinct, ?_⟩, ?_⟩
  · rintro key hkey key' hkey' rfl
    obtain ⟨e, he, rfl⟩ := List.mem_map.1 hkey
    obtain ⟨e', he', heq⟩ := List.mem_map.1 hkey'
    obtain ⟨x, hx⟩ := hnumbers e' he'
    have := hc.literals _ (hstrings e he) _ hx heq.symm
    simp at this
  · rintro key hkey key' hkey' rfl
    obtain ⟨r, hr, rfl⟩ := hnames key hkey
    rcases List.mem_append.1 hkey' with hkey' | hkey'
    · obtain ⟨e, he, heq⟩ := List.mem_map.1 hkey'
      exact hc.apart r hr _ (hstrings e he) heq.symm
    · obtain ⟨e, he, heq⟩ := List.mem_map.1 hkey'
      obtain ⟨x, hx⟩ := hnumbers e he
      exact hc.apart r hr _ hx heq.symm

theorem Records.conflict?_eq_none {m : Manifest} {renamings : List Renaming}
    {hoisted : List (String × Literal)} (hm : m.Records renamings hoisted)
    (hc : Consistent renamings hoisted) : m.conflict? = none :=
  firstConflict_eq_none (hm.nodup_keys hc) fun _ _ => rfl

/-! ### Merging -/

/-- **Merging the manifest of a module into that of a run** loses nothing and adds nothing. -/
theorem merge_eq {run other : Manifest} {renamings renamings' : List Renaming}
    {hoisted hoisted' : List (String × Literal)} (hrun : run.Records renamings hoisted)
    (hother : other.Records renamings' hoisted')
    (hc : Consistent (renamings ++ renamings') (hoisted ++ hoisted')) :
    ∃ m, run.merge other = (m, none) ∧ m.Records (renamings ++ renamings') (hoisted ++ hoisted') ∧
      m.savings = run.savings.add other.savings ∧ m.modules = run.modules ++ other.modules := by
  have hflat : ∀ e, e ∈ Categories.flatten other.categories ↔ e ∈ renamings'.map Renaming.entry := by
    rintro ⟨category, e⟩
    rw [Categories.mem_flatten, hother.categories.mem_iff]
  have hnames : ∀ e, e ∈ renamings.map Renaming.entry ++ Categories.flatten other.categories ↔
      e ∈ (renamings ++ renamings').map Renaming.entry := by
    intro e
    rw [List.map_append, List.mem_append, List.mem_append, hflat]
  have hstrings : ∀ e, e ∈ hoisted.filterMap stringEntry ++ other.strings ↔
      e ∈ (hoisted ++ hoisted').filterMap stringEntry := by
    intro e
    rw [List.filterMap_append, List.mem_append, List.mem_append, hother.strings.mem_iff]
  have hnumbers : ∀ e, e ∈ hoisted.filterMap numberEntry ++ other.numbers ↔
      e ∈ (hoisted ++ hoisted').filterMap numberEntry := by
    intro e
    rw [List.filterMap_append, List.mem_append, List.mem_append, hother.numbers.mem_iff]
  obtain ⟨categories, hmerge, hcategories⟩ := Categories.merge_eq hrun.categories fun category =>
    (hc.functional_names category).mono fun e he => mem_entriesIn.2 ((hnames _).1 (mem_entriesIn.1 he))
  obtain ⟨strings, hall, hlists⟩ : ∃ table, recordAll Kind.texts run.strings other.strings =
      (table, none) ∧ table.Lists (hoisted.filterMap stringEntry ++ other.strings) :=
    recordAll_eq hrun.strings (hc.literals.strings.mono fun e he => (hstrings e).1 he)
      fun e _ => beq_self_eq_true e.2
  obtain ⟨numbers, hall', hlists'⟩ : ∃ table, recordAll Kind.numbers run.numbers other.numbers =
      (table, none) ∧ table.Lists (hoisted.filterMap numberEntry ++ other.numbers) :=
    recordAll_eq hrun.numbers (hc.literals.numbers.mono fun e he => (hnumbers e).1 he)
      fun e he => same_of_mem_numbers ((hother.numbers.mem_iff e).1 he)
  have hrecords : Records
      { run with categories, strings, numbers
                 savings := run.savings.add other.savings
                 modules := run.modules ++ other.modules }
      (renamings ++ renamings') (hoisted ++ hoisted') :=
    ⟨hcategories.congr hnames, hlists.congr hstrings, hlists'.congr hnumbers⟩
  refine ⟨_, ?_, hrecords, rfl, rfl⟩
  rw [merge, hmerge]
  simp only [hall, hall']
  rw [hrecords.conflict?_eq_none hc]

end Manifest

end Abridge
