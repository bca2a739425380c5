import Abridge.Manifest.Json
import Abridge.Proofs.Documents
import Abridge.Proofs.Table

/-!
# Manifests that are read back

A manifest is the only record from which a shortened module can be undone, and it lives on disk as text.
Reading the text gives the manifest again: every key and value, the order of every table, the kinds of
the numbers, and the modules, which an empty list leaves out of the text.

What a manifest can hold is said by `Manifest.IsSound`: no table repeats a key, and sizes and integers
have 64 bits.  Of its floats it is assumed that their own texts read back, because the reader rounds twice
and may miss the last place of others.

## What is here

* `Json.record?_object` and `Json.asTable?_map`: the fields of an object and the entries of a table are
  found again.
* `Manifest.ofJson?_toJson`: the document of a manifest is decoded.
* `Manifest.ofText?_text`: the text of a manifest is read back.
-/

set_option autoImplicit false

namespace Abridge

namespace Json

theorem eraseDups_of_nodup {l : List String} (h : l.Nodup) : l.eraseDups = l := by
  induction l with
  | nil => rfl
  | cons a l ih =>
    obtain ⟨hnotMem, hl⟩ := List.nodup_cons.1 h
    have hfilter : l.filter (fun b => !b == a) = l := by
      refine List.filter_eq_self.2 fun b hb => ?_
      have hne : b ≠ a := fun h => hnotMem (h ▸ hb)
      simp [hne]
    rw [List.eraseDups_cons, hfilter, ih hl]

/-- The fields of an object that holds known members, each once. -/
theorem record?_object {fields : List String} {ms : List (String × Json)}
    (hknown : ∀ m ∈ ms, m.1 ∈ fields) (hms : Table.Distinct ms) :
    record? fields (.object ms) = some fun name => Table.get? ms name := by
  have hfilter : ms.filter (fun m => fields.contains m.1) = ms :=
    List.filter_eq_self.2 fun m hm => List.contains_iff_mem.2 (hknown m hm)
  unfold record?
  dsimp only
  rw [hfilter, eraseDups_of_nodup hms, if_pos (by simp)]
  rfl

section

variable {α β : Type} {write : α → β} {read : β → Option α}

/-- A list whose items come back comes back. -/
theorem mapM_map_eq_some {l : List α} (h : ∀ a ∈ l, read (write a) = some a) :
    (l.map write).mapM read = some l := by
  induction l with
  | nil => rfl
  | cons a l ih =>
    obtain ⟨ha, hl⟩ := List.forall_mem_cons.1 h
    rw [List.map_cons, List.mapM_cons, ha, ih hl]
    rfl

end

section

variable {α : Type} {write : α → Json} {read : Json → Option α}

theorem asList?_map {l : List α} (h : ∀ a ∈ l, read (write a) = some a) :
    asList? read (.array (l.map write)) = some l :=
  mapM_map_eq_some h

/-- A table whose values come back comes back, in its order. -/
theorem asTable?_map {table : Table String α} (hdistinct : table.Distinct)
    (h : ∀ e ∈ table, read (write e.2) = some e.2) :
    asTable? read (.object (table.map fun e => (e.1, write e.2))) = some table := by
  have hentries : (table.map fun e => (e.1, write e.2)).mapM
      (fun m : String × Json => (read m.2).map fun a => (m.1, a)) = some table :=
    mapM_map_eq_some fun e he => by rw [h e he]; rfl
  unfold asTable?
  dsimp only
  rw [hentries]
  exact congrArg some hdistinct.ofEntries_eq

end

theorem asSize?_natCast {n : Nat} (h : n < sizeLimit) : asSize? (.number (.integer n)) = some n := by
  have hsize : 0 ≤ (n : Int) ∧ (n : Int) < sizeLimit := ⟨Int.natCast_nonneg n, by exact_mod_cast h⟩
  rw [asSize?, if_pos hsize, Int.toNat_natCast]

end Json

/-- The float itself. -/
def JsonNumber.float? : JsonNumber → Option Double
  | .float x => some x
  | .integer _ => none

/-- An integer of 64 bits, with a sign or without; any float. -/
def JsonNumber.InRange : JsonNumber → Prop
  | .integer n => -(2 ^ 63) ≤ n ∧ n < 2 ^ 64
  | .float _ => True

instance : (n : JsonNumber) → Decidable n.InRange
  | .integer _ => inferInstanceAs (Decidable (_ ∧ _))
  | .float _ => .isTrue trivial

/-- Savings whose sizes have 64 bits. -/
structure Savings.InRange (s : Savings) : Prop where
  substitutions : s.substitutions < Json.sizeLimit
  sizeBefore : s.sizeBefore < Json.sizeLimit
  sizeAfter : s.sizeAfter < Json.sizeLimit

/-- An account whose sizes have 64 bits. -/
structure ModuleRecord.InRange (r : ModuleRecord) : Prop where
  sizeBefore : r.sizeBefore < Json.sizeLimit
  sizeAfter : r.sizeAfter < Json.sizeLimit
  substitutions : r.substitutions < Json.sizeLimit

/-- A field that is there is read by its function. -/
theorem Json.required?_eq {α : Type} {fields : String → Option Json} {name : String} {v : Json}
    (h : fields name = some v) (value : Json → Option α) : required? fields name value = value v := by
  rw [required?, h, Option.bind_some]

theorem Savings.ofJson?_toJson {s : Savings} (h : s.InRange) : ofJson? s.toJson = some s := by
  obtain ⟨ms, hms⟩ : ∃ ms, ms = s.toJson.members := ⟨_, rfl⟩
  have hfields : Json.record? fieldNames (.object ms) = some fun name => Table.get? ms name := by
    refine Json.record?_object ?_ ?_ <;> simp [hms, toJson, Json.members, fieldNames, Table.Distinct]
  have htotal : Table.get? ms "totalOptimizations" = some (.number (.integer s.substitutions)) := by
    rw [hms]; rfl
  have hbefore : Table.get? ms "originalSize" = some (.number (.integer s.sizeBefore)) := by
    rw [hms]; rfl
  have hafter : Table.get? ms "optimizedSize" = some (.number (.integer s.sizeAfter)) := by
    rw [hms]; rfl
  have hpercent : Table.get? ms "reductionPercent" = some (.number (.float s.reductionPercent)) := by
    rw [hms]; rfl
  have hjson : s.toJson = .object ms := by rw [hms]; rfl
  rw [ofJson?, hjson, hfields]
  simp only [Option.bind_eq_bind, Option.bind_some]
  rw [Json.required?_eq htotal, Json.asSize?_natCast h.substitutions, Option.bind_some,
    Json.required?_eq hbefore, Json.asSize?_natCast h.sizeBefore, Option.bind_some,
    Json.required?_eq hafter, Json.asSize?_natCast h.sizeAfter, Option.bind_some,
    Json.required?_eq hpercent]
  rfl

theorem ModuleRecord.ofJson?_toJson {r : ModuleRecord} (h : r.InRange) : ofJson? r.toJson = some r := by
  obtain ⟨ms, hms⟩ : ∃ ms, ms = r.toJson.members := ⟨_, rfl⟩
  have hjson : r.toJson = .object ms := by rw [hms]; rfl
  have hfields : Json.record? fieldNames (.object ms) = some fun name => Table.get? ms name := by
    refine Json.record?_object ?_ ?_ <;> simp [hms, toJson, Json.members, fieldNames, Table.Distinct]
  have hpath : Table.get? ms "path" = some (.string r.path) := by rw [hms]; rfl
  have hhash : Table.get? ms "sourceHash" = some (.string r.sourceHash) := by rw [hms]; rfl
  have hbefore : Table.get? ms "originalSize" = some (.number (.integer r.sizeBefore)) := by
    rw [hms]; rfl
  have hafter : Table.get? ms "optimizedSize" = some (.number (.integer r.sizeAfter)) := by
    rw [hms]; rfl
  have hcount : Table.get? ms "substitutions" = some (.number (.integer r.substitutions)) := by
    rw [hms]; rfl
  rw [ofJson?, hjson, hfields]
  simp only [Option.bind_eq_bind, Option.bind_some]
  rw [Json.required?_eq hpath, Json.required?_eq hhash,
    Json.required?_eq hbefore, Json.asSize?_natCast h.sizeBefore,
    Json.required?_eq hafter, Json.asSize?_natCast h.sizeAfter,
    Json.required?_eq hcount, Json.asSize?_natCast h.substitutions]
  rfl

namespace Manifest

theorem asTable?_textTable {table : Table String String} (h : table.Distinct) :
    Json.asTable? Json.asString? (textTable table) = some table :=
  Json.asTable?_map h fun _ _ => rfl

/-- What a manifest can hold: tables without repeated keys, and sizes and integers of 64 bits. -/
structure IsSound (m : Manifest) : Prop where
  categories : m.categories.Distinct
  names : ∀ e ∈ m.categories, e.2.Distinct
  strings : m.strings.Distinct
  numbers : m.numbers.Distinct
  integers : ∀ e ∈ m.numbers, e.2.InRange
  savings : m.savings.InRange
  modules : ∀ r ∈ m.modules, r.InRange

/-- The floats that a manifest holds: the percentage, and the floats among its numbers. -/
def floats (m : Manifest) : List Double :=
  m.savings.reductionPercent :: m.numbers.filterMap fun e => e.2.float?

theorem ofJson?_toJson {m : Manifest} (h : m.IsSound) : ofJson? m.toJson = some m := by
  obtain ⟨ms, hms⟩ : ∃ ms, ms = m.toJson.members := ⟨_, rfl⟩
  have hjson : m.toJson = .object ms := by rw [hms]; rfl
  have hfields : Json.record? fieldNames (.object ms) = some fun name => Table.get? ms name := by
    refine Json.record?_object ?_ ?_ <;>
      cases hm : m.modules <;> simp [hms, hm, toJson, Json.members, fieldNames, Table.Distinct]
  have hversion : Table.get? ms "version" = some (.string m.version) := by rw [hms]; rfl
  have htimestamp : Table.get? ms "timestamp" = some (.string m.timestamp) := by rw [hms]; rfl
  have hcategories : Table.get? ms "categories" =
      some (.object (m.categories.map fun e => (e.1, textTable e.2))) := by rw [hms]; rfl
  have hstrings : Table.get? ms "strings" = some (textTable m.strings) := by rw [hms]; rfl
  have hnumbers : Table.get? ms "numbers" =
      some (.object (m.numbers.map fun e => (e.1, .number e.2))) := by rw [hms]; rfl
  have hsavings : Table.get? ms "stats" = some m.savings.toJson := by rw [hms]; rfl
  have hmodules : Json.optional? (fun name => Table.get? ms name) "modules"
      (Json.asList? ModuleRecord.ofJson?) [] = some m.modules := by
    have hlist := Json.asList?_map fun r hr => ModuleRecord.ofJson?_toJson (h.modules r hr)
    cases hm : m.modules with
    | nil =>
      have hget : Table.get? ms "modules" = none := by
        simp [hms, hm, toJson, Json.members, Table.get?]
      simp only [Json.optional?, hget]
    | cons r rs =>
      have hget : Table.get? ms "modules" = some (.array (m.modules.map ModuleRecord.toJson)) := by
        simp [hms, hm, toJson, Json.members, Table.get?]
      simp only [Json.optional?, hget]
      rw [← hm]
      exact hlist
  rw [ofJson?, hjson, hfields]
  simp only [Option.bind_eq_bind, Option.bind_some]
  rw [Json.required?_eq hversion, Json.required?_eq htimestamp,
    Json.required?_eq hcategories,
    Json.asTable?_map h.categories fun e he => asTable?_textTable (h.names e he),
    Json.required?_eq hstrings, asTable?_textTable h.strings,
    Json.required?_eq hnumbers, Json.asTable?_map h.numbers fun _ _ => rfl,
    Json.required?_eq hsavings, Savings.ofJson?_toJson h.savings, hmodules]
  rfl

theorem fits_textTable (n : Nat) (table : Table String String) :
    Json.Fits (n + 1) (textTable table) := by
  refine .object fun e he => ?_
  obtain ⟨entry, -, rfl⟩ := List.mem_map.1 he
  exact .string entry.2

end Manifest

theorem Json.fits_size {n size : Nat} (h : size < sizeLimit) : Fits n (.number (.integer size)) := by
  have hlimit : sizeLimit = 2 ^ 64 := rfl
  exact .number (JsonNumber.readsBack_integer (by omega) (by omega))

theorem Savings.fits_toJson {s : Savings} (n : Nat) (h : s.InRange)
    (hpercent : (JsonNumber.float s.reductionPercent).ReadsBack) : Json.Fits (n + 1) s.toJson := by
  refine .object ?_
  simp only [List.forall_mem_cons, List.not_mem_nil, false_imp_iff, implies_true, and_true]
  exact ⟨Json.fits_size h.substitutions, Json.fits_size h.sizeBefore, Json.fits_size h.sizeAfter,
    .number hpercent⟩

theorem ModuleRecord.fits_toJson {r : ModuleRecord} (n : Nat) (h : r.InRange) :
    Json.Fits (n + 1) r.toJson := by
  refine .object ?_
  simp only [List.forall_mem_cons, List.not_mem_nil, false_imp_iff, implies_true, and_true]
  exact ⟨.string r.path, .string r.sourceHash, Json.fits_size h.sizeBefore, Json.fits_size h.sizeAfter,
    Json.fits_size h.substitutions⟩

namespace Manifest

variable {m : Manifest}

theorem readsBack_of_mem (h : m.IsSound) (hfloats : ∀ x ∈ m.floats, (JsonNumber.float x).ReadsBack)
    {e : String × JsonNumber} (he : e ∈ m.numbers) : e.2.ReadsBack := by
  have hrange := h.integers e he
  cases hn : e.2 with
  | integer n =>
    rw [hn] at hrange
    exact JsonNumber.readsBack_integer hrange.1 hrange.2
  | float x =>
    refine hfloats x (List.mem_cons_of_mem _ (List.mem_filterMap.2 ⟨e, he, ?_⟩))
    rw [hn]
    rfl

/-- A manifest's document is three brackets deep, and its numbers come back. -/
theorem fits_toJson (h : m.IsSound) (hfloats : ∀ x ∈ m.floats, (JsonNumber.float x).ReadsBack) :
    Json.Fits 3 m.toJson := by
  have hcategories : Json.Fits 2 (.object (m.categories.map fun e => (e.1, textTable e.2))) := by
    refine .object fun e he => ?_
    obtain ⟨entry, -, rfl⟩ := List.mem_map.1 he
    exact fits_textTable 0 entry.2
  have hnumbers : Json.Fits 2 (.object (m.numbers.map fun e => (e.1, .number e.2))) := by
    refine .object fun e he => ?_
    obtain ⟨entry, hentry, rfl⟩ := List.mem_map.1 he
    exact .number (readsBack_of_mem h hfloats hentry)
  have hsavings := Savings.fits_toJson 1 h.savings (hfloats _ List.mem_cons_self)
  have hmodules : Json.Fits 2 (.array (m.modules.map ModuleRecord.toJson)) := by
    refine .array fun v hv => ?_
    obtain ⟨r, hr, rfl⟩ := List.mem_map.1 hv
    exact ModuleRecord.fits_toJson 0 (h.modules r hr)
  refine .object fun e he => ?_
  rcases List.mem_append.1 he with he | he
  · simp only [List.mem_cons, List.not_mem_nil, or_false] at he
    rcases he with rfl | rfl | rfl | rfl | rfl | rfl
    · exact .string m.version
    · exact .string m.timestamp
    · exact hcategories
    · exact fits_textTable 1 m.strings
    · exact hnumbers
    · exact hsavings
  · split_ifs at he
    · cases he
    · rw [List.mem_singleton.1 he]
      exact hmodules

/-- **The text of a manifest is read back**, with every table in its order and the modules whether or
not they stand in the text. -/
theorem ofText?_text (h : m.IsSound) (hfloats : ∀ x ∈ m.floats, (JsonNumber.float x).ReadsBack) :
    ofText? m.text = some m ∧ (m.modules = [] ↔ m.toJson.field? "modules" = none) := by
  have hread := Json.parse?_pretty (fits_toJson h hfloats) (by decide)
  constructor
  · rw [ofText?, text, hread, Option.bind_eq_bind, Option.bind_some, ofJson?_toJson h]
  · cases hm : m.modules <;> simp [hm, toJson, Json.field?, Json.members]

/-- A manifest with empty keys, with quotes and control characters, with numbers of both kinds that are
equal, and with an account of a module. -/
def withOddTexts : Manifest where
  timestamp := "\u0000\u001f\t"
  categories := [("", []), ("\"variable\"", [("v1", "größe"), ("v0", "")])]
  strings := [("", "\\\"\n\u0008\u2028"), ("s0", "𝒮")]
  numbers := [("n0", .float (.finite false 4503599627370496 (-52) Double.isCanonical_one)),
    ("n1", .integer 1), ("n2", .integer (-9223372036854775808))]
  savings := { sizeBefore := 18446744073709551615, reductionPercent := .zero true }
  modules := [{ path := "a.js", sourceHash := "", sizeBefore := 4, sizeAfter := 3, substitutions := 1 }]

theorem ofText?_text_withOddTexts :
    withOddTexts.IsSound ∧ (∀ x ∈ withOddTexts.floats, (JsonNumber.float x).ReadsBack) ∧
      ofText? withOddTexts.text = some withOddTexts ∧
        (withOddTexts.modules = [] ↔ withOddTexts.toJson.field? "modules" = none) := by
  have hsound : withOddTexts.IsSound :=
    { categories := by decide
      names := by decide
      strings := by decide
      numbers := by decide
      integers := by decide
      savings := by constructor <;> decide
      modules := by
        intro r hr
        rw [List.mem_singleton.1 hr]
        constructor <;> decide }
  have hfloats : ∀ x ∈ withOddTexts.floats, (JsonNumber.float x).ReadsBack := by decide +kernel
  exact ⟨hsound, hfloats, ofText?_text hsound hfloats⟩

end Manifest

end Abridge
