import Abridge.Table
import Mathlib.Data.List.Induction

/-!
# Looking up what was put in

How `get?` sees a table after `put`, and what the entries of a table with distinct keys have to do
with it.  Everything that is proved about plans and manifests rests on these few facts; nothing else
unfolds a table.
-/

set_option autoImplicit false

namespace Abridge

namespace Table

variable {κ α : Type} [BEq κ]

@[simp] theorem get?_nil (key : κ) : get? ([] : Table κ α) key = none := rfl

theorem get?_cons (e : κ × α) (table : Table κ α) (key : κ) :
    get? (e :: table) key = if e.1 == key then some e.2 else get? table key := by
  unfold get?
  rw [List.find?_cons]
  cases e.1 == key <;> rfl

theorem get?_append (a b : Table κ α) (key : κ) : get? (a ++ b) key = (get? a key).or (get? b key) := by
  unfold get?
  rw [List.find?_append]
  cases List.find? (fun e => e.1 == key) a <;> rfl

/-- What a key has depends on its entries and their order only. -/
theorem get?_eq_of_filter_eq {a b : Table κ α} {key : κ}
    (h : a.filter (fun e => e.1 == key) = b.filter fun e => e.1 == key) : get? a key = get? b key := by
  unfold get?
  rw [← List.head?_filter, ← List.head?_filter, h]

/-- The keys after `put`: a new key comes last. -/
theorem keys_put (table : Table κ α) (key : κ) (value : α) :
    (table.put key value).map Prod.fst =
      if (table.get? key).isSome then table.map Prod.fst else table.map Prod.fst ++ [key] := by
  induction table with
  | nil => simp [put]
  | cons e rest ih =>
    rw [put, get?_cons]
    by_cases hk : e.1 == key
    · simp [hk]
    · rw [if_neg hk, if_neg hk, List.map_cons, ih]
      split <;> simp

/-- Putting in a new key adds its entry at the end. -/
theorem put_of_get?_eq_none {table : Table κ α} {key : κ} (h : table.get? key = none) (value : α) :
    table.put key value = table ++ [(key, value)] := by
  induction table with
  | nil => rfl
  | cons e rest ih =>
    rw [get?_cons] at h
    rw [put]
    split at h
    · simp at h
    · rename_i hk
      rw [if_neg hk, ih h, List.cons_append]

variable [LawfulBEq κ]

/-- After `put` a key has the value that was put in, and every other key has what it had. -/
theorem get?_put (table : Table κ α) (key : κ) (value : α) (other : κ) :
    (table.put key value).get? other = if key == other then some value else table.get? other := by
  induction table with
  | nil => rw [put, get?_cons]
  | cons e rest ih =>
    rw [put]
    by_cases hk : e.1 == key
    · have hk' : e.1 = key := by simpa using hk
      rw [if_pos hk, get?_cons, get?_cons, ← hk']
      cases e.1 == other <;> rfl
    · rw [if_neg hk, get?_cons, get?_cons, ih]
      by_cases ho : e.1 == other
      · have hne : (key == other) = false := by
          have h1 : e.1 = other := by simpa using ho
          have h2 : ¬ e.1 = key := by simpa using hk
          rw [beq_eq_false_iff_ne]
          rintro rfl
          exact h2 h1
        rw [if_pos ho, hne, if_neg (by simp), if_pos ho]
      · rw [if_neg ho, if_neg ho]

@[simp] theorem get?_put_self (table : Table κ α) (key : κ) (value : α) :
    (table.put key value).get? key = some value := by
  simp [get?_put]

theorem get?_put_ne (table : Table κ α) {key other : κ} (value : α) (h : key ≠ other) :
    (table.put key value).get? other = table.get? other := by
  simp [get?_put, h]

/-- After `erase` a key has no value, and every other key has what it had. -/
theorem get?_erase (table : Table κ α) (key other : κ) :
    (table.erase key).get? other = if key == other then none else table.get? other := by
  induction table with
  | nil => simp [erase]
  | cons e rest ih =>
    rw [erase, List.filter_cons, get?_cons]
    by_cases hk : e.1 == key
    · rw [hk, Bool.not_true, if_neg (by decide), ← erase, ih, eq_of_beq hk]
      split <;> rfl
    · rw [Bool.eq_false_iff.2 hk, Bool.not_false, if_pos rfl, get?_cons, ← erase, ih]
      by_cases ho : e.1 == other
      · have hne : ¬ (key == other) = true := fun h => hk (by rw [eq_of_beq ho, eq_of_beq h]; simp)
        rw [if_pos ho, if_neg hne, if_pos ho]
      · rw [if_neg ho, if_neg ho]

/-- In a table with some of its keys those keys have what they had. -/
theorem get?_filter (table : Table κ α) (keep : κ → Bool) (key : κ) :
    get? (List.filter (fun e => keep e.1) table) key = if keep key then get? table key else none := by
  induction table with
  | nil => simp
  | cons e rest ih =>
    rw [List.filter_cons, get?_cons]
    by_cases hk : e.1 == key
    · rw [eq_of_beq hk]
      split
      · rw [get?_cons, if_pos hk, if_pos (by simp)]
      · rename_i hkeep
        rw [ih, if_neg hkeep]
    · rw [if_neg hk]
      split
      · rw [get?_cons, if_neg hk, ih]
      · exact ih

theorem mem_of_get? {table : Table κ α} {key : κ} {value : α}
    (h : table.get? key = some value) : (key, value) ∈ table := by
  induction table with
  | nil => simp at h
  | cons e rest ih =>
    rw [get?_cons] at h
    split at h
    · rename_i hk
      rw [Option.some_inj] at h
      have hk' : e.1 = key := by simpa using hk
      rw [← hk', ← h]
      exact List.mem_cons_self
    · exact List.mem_cons_of_mem _ (ih h)

theorem get?_eq_none_iff {table : Table κ α} {key : κ} :
    table.get? key = none ↔ key ∉ table.map Prod.fst := by
  induction table with
  | nil => simp
  | cons e rest ih =>
    rw [get?_cons, List.map_cons, List.mem_cons, not_or, ← ih]
    by_cases hk : e.1 == key
    · have hk' : key = e.1 := by simpa using (eq_of_beq hk).symm
      simp [hk']
    · have hk' : key ≠ e.1 := by rintro rfl; simp at hk
      simp [hk, hk']

/-- No key has two entries. -/
def Distinct (table : Table κ α) : Prop := (table.map Prod.fst).Nodup

omit [BEq κ] [LawfulBEq κ] in
instance [DecidableEq κ] (table : Table κ α) : Decidable table.Distinct :=
  inferInstanceAs (Decidable (List.Nodup _))

omit [BEq κ] [LawfulBEq κ] in
theorem distinct_nil : Distinct ([] : Table κ α) := List.nodup_nil

theorem Distinct.put {table : Table κ α} (h : Distinct table) (key : κ) (value : α) :
    Distinct (table.put key value) := by
  unfold Distinct
  rw [keys_put]
  split
  · exact h
  · rename_i hk
    have hnone : table.get? key = none := by simpa using hk
    exact List.nodup_append.2 ⟨h, by simp, by
      intro a ha b hb hab
      rw [List.mem_singleton] at hb
      exact get?_eq_none_iff.1 hnone (hb ▸ hab ▸ ha)⟩

/-- In a table without repeated keys every entry is the one that is found. -/
theorem Distinct.get?_eq_some_iff {table : Table κ α} (h : Distinct table) {key : κ} {value : α} :
    table.get? key = some value ↔ (key, value) ∈ table := by
  refine ⟨mem_of_get?, fun hmem => ?_⟩
  induction table with
  | nil => simp at hmem
  | cons e rest ih =>
    have hd : e.1 ∉ rest.map Prod.fst ∧ Distinct rest := by
      simpa [Distinct] using h
    rw [get?_cons]
    rcases List.mem_cons.1 hmem with rfl | hrest
    · simp
    · have hne : ¬ (e.1 == key) = true := by
        intro hk
        rw [eq_of_beq hk] at hd
        exact hd.1 (List.mem_map_of_mem (f := Prod.fst) hrest)
      rw [if_neg hne]
      exact ih hd.2 hrest

theorem distinct_ofEntries (entries : List (κ × α)) : Distinct (ofEntries entries) :=
  List.foldlRecOn entries _ distinct_nil fun _ h e _ => h.put e.1 e.2

/-- Of several entries with one key the last one counts. -/
theorem get?_ofEntries (entries : List (κ × α)) (key : κ) :
    (ofEntries entries).get? key = get? entries.reverse key := by
  induction entries using List.reverseRecOn with
  | nil => rfl
  | append_singleton entries e ih =>
    have hput : ofEntries (entries ++ [e]) = (ofEntries entries).put e.1 e.2 := by
      rw [ofEntries, List.foldl_append]
      rfl
    rw [hput, get?_put, ih, List.reverse_concat, get?_cons]

/-- A key of a list of entries is found, from the end as well. -/
theorem exists_get?_reverse (entries : List (κ × α)) {key : κ} (h : key ∈ entries.map Prod.fst) :
    ∃ value, get? entries.reverse key = some value ∧ (key, value) ∈ entries := by
  cases hget : get? entries.reverse key with
  | none => exact absurd (by simpa using h) (get?_eq_none_iff.1 hget)
  | some value => exact ⟨value, rfl, List.mem_reverse.1 (mem_of_get? hget)⟩

theorem get?_reverse_eq_none {entries : List (κ × α)} {key : κ} (h : key ∉ entries.map Prod.fst) :
    get? entries.reverse key = none :=
  get?_eq_none_iff.2 (by simpa using h)

theorem foldl_put_eq_append {entries : List (κ × α)} :
    ∀ {table : Table κ α}, Distinct (table ++ entries) →
      entries.foldl (fun table e => put table e.1 e.2) table = table ++ entries := by
  induction entries with
  | nil => intro table _; simp
  | cons e entries ih =>
    intro table h
    have hnew : table.get? e.1 = none := by
      rw [get?_eq_none_iff]
      rw [Distinct, List.map_append, List.nodup_append] at h
      exact fun hmem => h.2.2 _ hmem _ (List.mem_map_of_mem (f := Prod.fst) List.mem_cons_self) rfl
    have hassoc : table ++ e :: entries = (table ++ [e]) ++ entries := by simp
    rw [List.foldl_cons, put_of_get?_eq_none hnew, hassoc]
    exact ih (hassoc ▸ h)

/-- Putting in entries without a repeated key changes nothing about them. -/
theorem Distinct.ofEntries_eq {entries : List (κ × α)} (h : Distinct entries) :
    ofEntries entries = entries :=
  foldl_put_eq_append (by simpa using h)

end Table

end Abridge
