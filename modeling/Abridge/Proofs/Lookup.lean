import Abridge.Proofs.Merging
import Abridge.Proofs.Reversal

/-!
# What the check of a manifest is good for

A manifest is checked for keys with two meanings, and its glossary is made from the same tables: names first,
then strings, then numbers, and of several entries with one key the last one counts.  The check compares
texts.  A glossary has more to it, for a string stands for its quoted text there, so that a name and a string
with one key and one text pass the check and only the string is found.

Nothing else goes wrong.  In a manifest that passes, an entry is found as it is unless a string meets an
entry of another kind at its key (`Manifest.lookup_checked`): all entries of a key have one text, and what
the glossary says depends only on whether the last of them is a string.

## What is here

* `Manifest.lookup_item`: what is found for the key of an entry.
* `Manifest.firstConflict_sound`: a key that is reported has two texts.
* `Manifest.lookup_checked`: what the check guarantees, and what its failure does.
* `Manifest.name_shadowed`: a manifest that passes and loses a name.
-/

set_option autoImplicit false

namespace Abridge

/-- A key of a list of entries is found in what is made of them, from the end. -/
theorem Table.exists_get?_reverse_map {α : Type} (entries : List (String × α)) (f : α → String)
    {key : String} (h : key ∈ entries.map Prod.fst) :
    ∃ value, Table.get? (entries.map fun e => (e.1, f e.2)).reverse key = some (f value) ∧
      (key, value) ∈ entries := by
  obtain ⟨text, hget, hmem⟩ :=
    exists_get?_reverse (entries.map fun e => (e.1, f e.2)) (by simpa using h)
  obtain ⟨⟨_, value⟩, he, heq⟩ := List.mem_map.1 hmem
  obtain ⟨rfl, rfl⟩ := Prod.mk.inj heq
  exact ⟨value, hget, he⟩

/-! ## Source texts -/

namespace Json

theorem escape_ne_nil (c : Char) : escape c ≠ [] := by
  unfold escape
  split <;> first | exact List.cons_ne_nil _ _ | skip
  split_ifs <;> exact List.cons_ne_nil _ _

theorem length_le_flatMap_escape (cs : List Char) : cs.length ≤ (cs.flatMap escape).length := by
  induction cs with
  | nil => exact Nat.zero_le _
  | cons c cs ih =>
    have hescape := List.length_pos_iff.2 (escape_ne_nil c)
    rw [List.flatMap_cons, List.length_append, List.length_cons]
    omega

/-- No string is its own text. -/
theorem quote_ne (s : String) : quote s ≠ s := by
  intro h
  have hlength := congrArg List.length (congrArg String.toList h)
  have hescape := length_le_flatMap_escape s.toList
  rw [quote, String.toList_ofList, List.length_cons, List.length_append, List.length_singleton] at hlength
  omega

end Json

namespace Item

/-- What an entry stands for in a source text: a name as it is, a string in quotes, a number as it is
written. -/
def sourceText : Item → String
  | name _ _ original => original
  | string _ original => Json.quote original
  | number _ value => value.text

/-- The entry stands for a string. -/
def isString : Item → Bool
  | string _ _ => true
  | _ => false

theorem sourceText_eq (x : Item) : x.sourceText = if x.isString then Json.quote x.text else x.text := by
  cases x <;> rfl

end Item

namespace Manifest

variable {m : Manifest}

theorem mem_names {key text : String} :
    (key, text) ∈ m.categories.flatMap Prod.snd ↔ ∃ category, Item.name category key text ∈ m.items := by
  simp [items, Categories.flatten]

theorem mem_strings {key text : String} : Item.string key text ∈ m.items ↔ (key, text) ∈ m.strings := by
  simp [items]

theorem mem_numbers {key : String} {value : JsonNumber} :
    Item.number key value ∈ m.items ↔ (key, value) ∈ m.numbers := by
  simp [items]

/-! ## The check -/

/-- **A key that is reported has two texts.** -/
theorem firstConflict_sound {entries : List (String × String)} {c : Conflict} :
    ∀ {seen : Table String String}, firstConflict seen entries = some c →
      (c.key, c.second) ∈ entries ∧ c.first ≠ c.second ∧
        (seen.get? c.key = some c.first ∨ (c.key, c.first) ∈ entries) := by
  induction entries with
  | nil => exact fun {seen} h => by cases h
  | cons e entries ih =>
    intro seen h
    obtain ⟨k, t⟩ := e
    rw [firstConflict] at h
    cases hget : seen.get? k with
    | none =>
      rw [hget] at h
      obtain ⟨hsecond, hne, hfirst⟩ := ih h
      refine ⟨List.mem_cons_of_mem _ hsecond, hne, ?_⟩
      -- What was seen before is what was seen by now, apart from the entry at hand.
      rw [Table.get?_put] at hfirst
      rcases hfirst with hfirst | hfirst
      · split at hfirst
        · rename_i hkey
          rw [← eq_of_beq hkey, ← Option.some.inj hfirst]
          exact .inr List.mem_cons_self
        · exact .inl hfirst
      · exact .inr (List.mem_cons_of_mem _ hfirst)
    | some first =>
      simp only [hget] at h
      split at h
      · obtain ⟨hsecond, hne, hfirst⟩ := ih h
        exact ⟨List.mem_cons_of_mem _ hsecond, hne, hfirst.imp_right (List.mem_cons_of_mem _)⟩
      · rename_i hne
        rw [← Option.some.inj h]
        exact ⟨List.mem_cons_self, by simpa using hne, .inl hget⟩

/-- Entries of one key have one text, in a manifest without a conflict. -/
theorem text_eq_of_key_eq (h : m.conflict? = none) {x y : Item} (hx : x ∈ m.items) (hy : y ∈ m.items)
    (hkey : x.key = y.key) : x.text = y.text :=
  congrArg Prod.snd ((conflict?_eq_none_iff m).1 h _ (List.mem_map_of_mem hx) _ (List.mem_map_of_mem hy)
    hkey)

/-! ## The glossary of a manifest that passes -/

/-- The last entry of a key is a string: there is one, and no number comes after it. -/
def EndsInString (m : Manifest) (key : String) : Prop :=
  key ∈ m.strings.map Prod.fst ∧ key ∉ m.numbers.map Prod.fst

instance (m : Manifest) (key : String) : Decidable (m.EndsInString key) :=
  inferInstanceAs (Decidable (_ ∧ _))

theorem lookup_eq_or (m : Manifest) (key : String) :
    (Glossary.ofManifest m).lookup key =
      (Table.get? (m.numbers.map fun e => (e.1, e.2.text)).reverse key).or
        ((Table.get? (m.strings.map fun e => (e.1, Json.quote e.2)).reverse key).or
          (Table.get? (m.categories.flatMap Prod.snd).reverse key)) := by
  have hglossary : Glossary.ofManifest m = ⟨Table.ofEntries m.meanings⟩ := rfl
  rw [hglossary, Glossary.lookup, Table.get?_ofEntries, meanings, List.reverse_append, List.reverse_append,
    Table.get?_append, Table.get?_append]

/-- **What is found for the key of an entry**: the one text of its key, in quotes where the last entry of
the key is a string. -/
theorem lookup_item (h : m.conflict? = none) {x : Item} (hx : x ∈ m.items) :
    (Glossary.ofManifest m).lookup x.key =
      some (if m.EndsInString x.key then Json.quote x.text else x.text) := by
  rw [lookup_eq_or]
  by_cases hnumber : x.key ∈ m.numbers.map Prod.fst
  · obtain ⟨n, hget, hn⟩ := Table.exists_get?_reverse_map m.numbers JsonNumber.text hnumber
    rw [hget, Option.some_or, if_neg fun hends => hends.2 hnumber,
      text_eq_of_key_eq h hx (mem_numbers.2 hn) rfl, Item.text]
  · rw [Table.get?_reverse_eq_none (by simpa using hnumber), Option.none_or]
    by_cases hstring : x.key ∈ m.strings.map Prod.fst
    · obtain ⟨s, hget, hs⟩ := Table.exists_get?_reverse_map m.strings Json.quote hstring
      rw [hget, Option.some_or, if_pos ⟨hstring, hnumber⟩,
        text_eq_of_key_eq h hx (mem_strings.2 hs) rfl, Item.text]
    · rw [Table.get?_reverse_eq_none (by simpa using hstring), Option.none_or,
        if_neg fun hends => hstring hends.1]
      have hname : x.key ∈ (m.categories.flatMap Prod.snd).map Prod.fst := by
        cases x with
        | name category key text => exact List.mem_map_of_mem (mem_names.2 ⟨category, hx⟩)
        | string key text => exact absurd (List.mem_map_of_mem (mem_strings.1 hx)) hstring
        | number key value => exact absurd (List.mem_map_of_mem (mem_numbers.1 hx)) hnumber
      obtain ⟨text, hget, hmem⟩ := Table.exists_get?_reverse _ hname
      obtain ⟨category, hitem⟩ := mem_names.1 hmem
      rw [hget, text_eq_of_key_eq h hx hitem rfl, Item.text]

/-- An entry is found as what it stands for exactly when it is a string where the last one is. -/
theorem lookup_eq_sourceText_iff (h : m.conflict? = none) {x : Item} (hx : x ∈ m.items) :
    (Glossary.ofManifest m).lookup x.key = some x.sourceText ↔
      (x.isString = true ↔ m.EndsInString x.key) := by
  rw [lookup_item h hx, Option.some_inj, Item.sourceText_eq]
  by_cases hends : m.EndsInString x.key <;> cases x.isString <;>
    simp [hends, Json.quote_ne, (Json.quote_ne _).symm]

/-- Where the entries of a key are all strings or none of them is, so is the last one. -/
theorem isString_iff_endsInString {x : Item} (hx : x ∈ m.items)
    (hsame : ∀ y ∈ m.items, x.key = y.key → x.isString = y.isString) :
    x.isString = true ↔ m.EndsInString x.key := by
  constructor
  · intro hstring
    constructor
    · cases x with
      | string key text => exact List.mem_map_of_mem (mem_strings.1 hx)
      | name _ _ _ | number _ _ => cases hstring
    · intro hnumber
      obtain ⟨⟨key, value⟩, hmem, rfl⟩ := List.mem_map.1 hnumber
      have hother := hsame _ (mem_numbers.2 hmem) rfl
      rw [hstring] at hother
      cases hother
  · rintro ⟨hmem, -⟩
    obtain ⟨⟨key, text⟩, hmem, hkey⟩ := List.mem_map.1 hmem
    exact hsame _ (mem_strings.2 hmem) hkey.symm

/-- All entries are found as what they stand for exactly when strings keep to themselves. -/
theorem forall_lookup_iff (h : m.conflict? = none) :
    (∀ x ∈ m.items, (Glossary.ofManifest m).lookup x.key = some x.sourceText) ↔
      ∀ x ∈ m.items, ∀ y ∈ m.items, x.key = y.key → x.isString = y.isString := by
  constructor
  · intro hfound x hx y hy hkey
    have hfirst := (lookup_eq_sourceText_iff h hx).1 (hfound x hx)
    have hsecond := (lookup_eq_sourceText_iff h hy).1 (hfound y hy)
    rw [Bool.eq_iff_iff, hfirst, hsecond, hkey]
  · intro hsame x hx
    exact (lookup_eq_sourceText_iff h hx).2 (isString_iff_endsInString hx (hsame x hx))

/-- **What the check of a manifest guarantees.**  In a manifest without a conflict the glossary finds an
entry as what it stands for exactly when it is a string where the last entry of its key is one; and it finds
all entries so exactly when no string has a key in common with a name or a number.  A conflict that is
reported is one: its key has entries with two texts. -/
theorem lookup_checked (m : Manifest) :
    (m.conflict? = none →
      (∀ x ∈ m.items, (Glossary.ofManifest m).lookup x.key = some x.sourceText ↔
        (x.isString = true ↔ m.EndsInString x.key)) ∧
      ((∀ x ∈ m.items, (Glossary.ofManifest m).lookup x.key = some x.sourceText) ↔
        ∀ x ∈ m.items, ∀ y ∈ m.items, x.key = y.key → x.isString = y.isString)) ∧
    ∀ c, m.conflict? = some c → ∃ x ∈ m.items, ∃ y ∈ m.items, x.key = c.key ∧ y.key = c.key ∧
      x.text = c.first ∧ y.text = c.second ∧ c.first ≠ c.second := by
  refine ⟨fun h => ⟨fun x hx => lookup_eq_sourceText_iff h hx, forall_lookup_iff h⟩, fun c h => ?_⟩
  obtain ⟨hsecond, hne, hfirst⟩ := firstConflict_sound h
  have hfirst := hfirst.resolve_left (by rw [Table.get?_nil]; exact Option.some_ne_none _ |>.symm)
  rw [entries_eq_map_items] at hfirst hsecond
  obtain ⟨x, hx, heq⟩ := List.mem_map.1 hfirst
  obtain ⟨y, hy, heq'⟩ := List.mem_map.1 hsecond
  obtain ⟨hkey, htext⟩ := Prod.mk.inj heq
  obtain ⟨hkey', htext'⟩ := Prod.mk.inj heq'
  exact ⟨x, hx, y, hy, hkey, hkey', htext, htext', hne⟩

/-- A manifest in which a name and a number have one key and one text, and a string has a key of its own. -/
def sharing (value : Int) : Manifest where
  timestamp := "t"
  categories := [("variable", [("x0", "5")]), ("class", [("c0", "Parser")])]
  strings := [("s0", "Parser")]
  numbers := [("x0", .integer value)]

/-- All entries of that manifest are found; with another number there is a conflict, and it is reported. -/
theorem lookup_checked_sharing :
    (sharing 5).conflict? = none ∧
    (∀ x ∈ (sharing 5).items, ∀ y ∈ (sharing 5).items, x.key = y.key → x.isString = y.isString) ∧
    (∀ x ∈ (sharing 5).items, (Glossary.ofManifest (sharing 5)).lookup x.key = some x.sourceText) ∧
    (sharing 6).conflict? = some { key := "x0", first := "5", second := "6" } ∧
    ∃ x ∈ (sharing 6).items, ∃ y ∈ (sharing 6).items, x.key = "x0" ∧ y.key = "x0" ∧
      x.text = "5" ∧ y.text = "6" ∧ "5" ≠ "6" := by
  have hnone : (sharing 5).conflict? = none := by decide
  have hsame : ∀ x ∈ (sharing 5).items, ∀ y ∈ (sharing 5).items, x.key = y.key → x.isString = y.isString := by
    decide
  have hconflict : (sharing 6).conflict? = some { key := "x0", first := "5", second := "6" } := by decide
  exact ⟨hnone, hsame, ((lookup_checked (sharing 5)).1 hnone).2.2 hsame, hconflict,
    (lookup_checked (sharing 6)).2 _ hconflict⟩

/-- A manifest in which a name and a string have one key and one text. -/
def overlapping : Manifest where
  timestamp := "t"
  categories := [("variable", [("x0", "alpha")])]
  strings := [("x0", "alpha")]

/-- **A name can be lost in a manifest that passes**: its key stands for the quoted string. -/
theorem name_shadowed :
    overlapping.conflict? = none ∧ Item.name "variable" "x0" "alpha" ∈ overlapping.items ∧
      (Glossary.ofManifest overlapping).lookup "x0" = some "\"alpha\"" ∧
      (Glossary.ofManifest overlapping).lookup "x0" ≠
        some (Item.name "variable" "x0" "alpha").sourceText := by
  decide

end Manifest

end Abridge
