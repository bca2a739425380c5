import Abridge.Proofs.Documents
import Abridge.Proofs.Globals
import Abridge.Proofs.Restoration

/-!
# Words that are undone

A glossary replaces words in any text, and a word is a run of ASCII letters, digits, `_` and `$`.  Keys are
such words, so each of them is found and replaced as a whole.  Names need not be: an identifier may have
other letters, and the glossary takes it apart at these.  The planner avoids what the modules of a run spell
as a whole, not the words in it, and so a part of a name that is kept can be a key.

Nothing else goes wrong.  No key stands for itself, so a text comes back as it is exactly when no word of it
is known (`Glossary.expand_eq_self_iff`).  Counting the characters that stand between words carries the
argument: replacing a word removes none of them.

## What is here

* `Glossary.expand_eq_self_iff`: which texts a glossary leaves alone.
* `Settled.expand_key`, `Settled.expand_spelled_iff`: what the glossary of a run does with the short names of
  the run and with the names of its modules.
* `expand_names`: both, for every profile and all modules that parse.
* `kept_name_rewritten`: a name that is kept and does not come back.
-/

set_option autoImplicit false

namespace Abridge

namespace Glossary

variable {g : Glossary}

/-- The characters of the text with every known word replaced. -/
def expandChars (g : Glossary) (cs : List Char) : List Char :=
  (pieces cs).flatMap fun piece => (g.expandPiece piece).toList

theorem toList_expand (g : Glossary) (text : String) :
    (g.expand text).toList = g.expandChars text.toList := by
  rw [expand, expandChars, List.flatMap_def]
  simp [String.toList_join, List.map_map, Function.comp_def, List.flatMap_def]

/-- The word at the head of a text. -/
def headWord (c : Char) (cs : List Char) : String := String.ofList (c :: cs.takeWhile isWordPart)

theorem expandChars_nil (g : Glossary) : g.expandChars [] = [] := by
  rw [expandChars, pieces]
  rfl

theorem expandChars_word {c : Char} (hc : isWordStart c = true) (cs : List Char) :
    g.expandChars (c :: cs) = ((g.lookup (headWord c cs)).getD (headWord c cs)).toList ++
      g.expandChars (cs.dropWhile isWordPart) := by
  rw [expandChars, pieces, if_pos hc, List.flatMap_cons]
  rfl

theorem expandChars_char {c : Char} (hc : ¬ isWordStart c = true) (cs : List Char) :
    g.expandChars (c :: cs) = c :: g.expandChars cs := by
  rw [expandChars, pieces, if_neg hc, List.flatMap_cons, expandPiece, String.toList_singleton]
  rfl

theorem expandChars_eq_self (cs : List Char)
    (h : ∀ word, .inl word ∈ pieces cs → g.lookup word = none) : g.expandChars cs = cs := by
  induction cs using pieces.induct with
  | case1 => exact expandChars_nil g
  | case2 c cs hc ih =>
    rw [pieces, if_pos hc] at h
    rw [expandChars_word hc, headWord, h _ List.mem_cons_self,
      ih fun word hword => h word (List.mem_cons_of_mem _ hword), Option.getD_none,
      String.toList_ofList, List.cons_append, List.takeWhile_append_dropWhile]
  | case3 c cs hc ih =>
    rw [pieces, if_neg hc] at h
    rw [expandChars_char hc, ih fun word hword => h word (List.mem_cons_of_mem _ hword)]

/-- A character that stands in no word. -/
def isOutside (c : Char) : Bool := !isWordPart c

theorem isWordPart_of_isWordStart {c : Char} (h : isWordStart c = true) : isWordPart c = true := by
  unfold isWordStart at h
  unfold isWordPart Char.isAlphanum
  simp only [Bool.or_eq_true] at h ⊢
  tauto

theorem countP_takeWhile (cs : List Char) : (cs.takeWhile isWordPart).countP isOutside = 0 := by
  refine List.countP_eq_zero.2 fun c hc => ?_
  simp [isOutside, List.mem_takeWhile_imp hc]

theorem countP_headWord {c : Char} (hc : isWordStart c = true) (cs : List Char) :
    (c :: cs).countP isOutside = (cs.dropWhile isWordPart).countP isOutside := by
  have hpart : isOutside c = false := by simp [isOutside, isWordPart_of_isWordStart hc]
  rw [List.countP_cons_of_neg (by simp [hpart])]
  conv_lhs => rw [← List.takeWhile_append_dropWhile (p := isWordPart) (l := cs)]
  rw [List.countP_append, countP_takeWhile, Nat.zero_add]

/-- Replacing words removes no character that stands outside of words. -/
theorem countP_le_expandChars (g : Glossary) (cs : List Char) :
    cs.countP isOutside ≤ (g.expandChars cs).countP isOutside := by
  induction cs using pieces.induct with
  | case1 => exact Nat.zero_le _
  | case2 c cs hc ih =>
    rw [expandChars_word hc, countP_headWord hc, List.countP_append]
    exact le_add_left ih
  | case3 c cs hc ih =>
    rw [expandChars_char hc, List.countP_cons, List.countP_cons]
    exact Nat.add_le_add_right ih _

/-- What stands behind a word does not go on with it, before and after replacing. -/
theorem takeWhile_expandChars (g : Glossary) (cs : List Char) :
    (g.expandChars (cs.dropWhile isWordPart)).takeWhile isWordPart = [] := by
  cases hrest : cs.dropWhile isWordPart with
  | nil => rw [expandChars_nil]; rfl
  | cons c rest =>
    have hc : isWordPart c = false := by
      have := List.head?_dropWhile_not isWordPart cs
      rw [hrest] at this
      simpa using this
    have hstart : ¬ isWordStart c = true := fun h => by
      rw [isWordPart_of_isWordStart h] at hc
      cases hc
    rw [expandChars_char hstart, List.takeWhile_cons_of_neg (by simp [hc])]

/-- Where no word stands for itself, a text that comes back has no known word. -/
theorem lookup_eq_none_of_expandChars_eq (hproper : ∀ key text, g.lookup key = some text → text ≠ key)
    (cs : List Char) (h : g.expandChars cs = cs) :
    ∀ word, .inl word ∈ pieces cs → g.lookup word = none := by
  induction cs using pieces.induct with
  | case1 =>
    intro word hword
    rw [pieces] at hword
    cases hword
  | case2 c cs hc ih =>
    have hword : (headWord c cs).toList = c :: cs.takeWhile isWordPart := String.toList_ofList
    rw [expandChars_word hc] at h
    cases hlookup : g.lookup (headWord c cs) with
    | none =>
      rw [hlookup, Option.getD_none, hword, List.cons_append] at h
      have hrest : g.expandChars (cs.dropWhile isWordPart) = cs.dropWhile isWordPart := by
        have hsplit := (List.cons.inj h).2
        conv_rhs at hsplit => rw [← List.takeWhile_append_dropWhile (p := isWordPart) (l := cs)]
        exact List.append_cancel_left hsplit
      rw [pieces, if_pos hc]
      intro word hmem
      rcases List.mem_cons.1 hmem with heq | hmem
      · rw [Sum.inl.inj heq]
        exact hlookup
      · exact ih hrest word hmem
    | some text =>
      rw [hlookup, Option.getD_some] at h
      -- The text that stands for the word has no character from outside, so it ends where the word does.
      have hcount := congrArg (List.countP isOutside) h
      rw [List.countP_append, countP_headWord hc] at hcount
      have hle := countP_le_expandChars g (cs.dropWhile isWordPart)
      have hall : ∀ d ∈ text.toList, isWordPart d = true := by
        intro d hd
        have hzero : text.toList.countP isOutside = 0 := by omega
        simpa [isOutside] using List.countP_eq_zero.1 hzero d hd
      have htake := congrArg (List.takeWhile isWordPart) h
      rw [List.takeWhile_append_of_pos hall, takeWhile_expandChars, List.append_nil,
        List.takeWhile_cons_of_pos (isWordPart_of_isWordStart hc), ← hword] at htake
      exact absurd (String.toList_inj.1 htake) (hproper _ _ hlookup)
  | case3 c cs hc ih =>
    rw [expandChars_char hc] at h
    rw [pieces, if_neg hc]
    intro word hword
    refine ih (List.cons.inj h).2 word ?_
    simpa using hword

/-- **A text comes back as it is exactly when the glossary knows none of its words**, where no word
stands for itself. -/
theorem expand_eq_self_iff (hproper : ∀ key text, g.lookup key = some text → text ≠ key) (text : String) :
    g.expand text = text ↔ ∀ word, .inl word ∈ pieces text.toList → g.lookup word = none := by
  rw [← String.toList_inj, toList_expand]
  exact ⟨lookup_eq_none_of_expandChars_eq hproper _, expandChars_eq_self _⟩

/-- A word that the glossary knows is replaced. -/
theorem expand_word {word text : String} (hword : pieces word.toList = [.inl word])
    (h : g.lookup word = some text) : g.expand word = text := by
  rw [← String.toList_inj, toList_expand, expandChars, hword]
  simp [expandPiece, h]

end Glossary

/-! ## The glossary of a manifest -/

/-- The entries of the glossary of a manifest. -/
def Manifest.meanings (m : Manifest) : Table String String :=
  m.categories.flatMap Prod.snd ++ m.strings.map (fun e => (e.1, Json.quote e.2)) ++
    m.numbers.map fun e => (e.1, e.2.text)

theorem IsNumberText.exists_cons {text : String} (h : IsNumberText text) :
    ∃ c cs, text.toList = c :: cs ∧ Glossary.isWordStart c = false := by
  obtain ⟨negative, c, cs, htext, hc, -⟩ := h
  cases negative with
  | true => exact ⟨'-', c :: cs, htext, rfl⟩
  | false =>
    refine ⟨c, cs, htext, ?_⟩
    rw [Bool.eq_false_iff]
    intro hstart
    have halpha : c.isAlpha = (decide (c.val ≥ 65 ∧ c.val ≤ 90) ||
        decide (c.val ≥ 97) && decide (c.val ≤ 122)) := rfl
    simp only [Glossary.isWordStart, halpha, Bool.or_eq_true, Bool.and_eq_true, decide_eq_true_eq,
      beq_iff_eq, ge_iff_le, UInt32.le_iff_toNat_le] at hstart
    simp only [Char.isDigit, Bool.and_eq_true, decide_eq_true_eq, ge_iff_le, UInt32.le_iff_toNat_le] at hc
    rcases hstart with ((hstart | hstart) | rfl) | rfl
    · exact absurd (hstart.1.trans hc.2) (by decide)
    · exact absurd (hstart.1.trans hc.2) (by decide)
    · exact absurd hc (by decide)
    · exact absurd hc (by decide)

/-- The numbers of a manifest have texts. -/
theorem JsonNumber.isNumberText_of_ofDouble? {x : Double} {n : JsonNumber}
    (h : JsonNumber.ofDouble? x = some n) : IsNumberText n.text := by
  have hfloat : ∀ y : Double, y.isFinite = true → IsNumberText (JsonNumber.float y).text := by
    intro y hy
    cases htext : y.jsonText with
    | some text =>
      rw [JsonNumber.text, htext]
      exact Double.isNumberText_jsonText htext
    | none =>
      cases y with
      | finite _ _ _ _ => exact absurd htext (Option.some_ne_none _)
      | _ => cases hy
  unfold JsonNumber.ofDouble? at h
  split at h
  · rename_i n hint
    split at h
    · rw [← Option.some.inj h]
      exact JsonNumber.isNumberText_integer n
    · rw [← Option.some.inj h]
      refine hfloat x ?_
      cases x <;> first | rfl | cases hint
  · split at h
    · rename_i hfinite
      rw [← Option.some.inj h]
      exact hfloat x hfinite
    · cases h

theorem isNumberText_of_numberEntry {x : String × Literal} {e : String × JsonNumber}
    (h : numberEntry x = some e) : IsNumberText e.2.text := by
  obtain ⟨key, value⟩ := x
  cases value with
  | string s => cases h
  | number x =>
    obtain ⟨n, hn, rfl⟩ := Option.map_eq_some_iff.1 h
    exact JsonNumber.isNumberText_of_ofDouble? hn

namespace Manifest.Records

variable {m : Manifest} {renamings : List Renaming} {hoisted : List (String × Literal)}

/-- The glossary of a manifest knows the entries of the manifest and nothing else. -/
theorem lookup_ofManifest (hm : m.Records renamings hoisted) (hc : Consistent renamings hoisted)
    {key text : String} : (Glossary.ofManifest m).lookup key = some text ↔ (key, text) ∈ m.meanings := by
  have hdistinct : m.meanings.Distinct := by
    have hkeys := hm.nodup_keys hc
    have heq : m.meanings.map Prod.fst = m.entries.map Prod.fst := by
      simp [meanings, entries, Function.comp_def]
    unfold Table.Distinct
    rwa [heq]
  exact Glossary.lookup_ofPairs_iff hdistinct

/-- A known word is a short name, or the key of a literal whose text does not start like a word. -/
theorem cases_of_lookup (hm : m.Records renamings hoisted) (hc : Consistent renamings hoisted)
    {key text : String} (h : (Glossary.ofManifest m).lookup key = some text) :
    (∃ r ∈ renamings, r.shortName = key ∧ r.name = text) ∨
      ∃ x ∈ hoisted, x.1 = key ∧ ∃ c cs, text.toList = c :: cs ∧ Glossary.isWordStart c = false := by
  have hmem := (hm.lookup_ofManifest hc).1 h
  rcases List.mem_append.1 hmem with hmem | hmem
  · rcases List.mem_append.1 hmem with hmem | hmem
    · exact .inl (hm.mem_names_iff.1 hmem)
    · obtain ⟨e, he, heq⟩ := List.mem_map.1 hmem
      obtain ⟨x, hx, hentry⟩ := List.mem_filterMap.1 ((hm.strings.mem_iff e).1 he)
      obtain ⟨rfl, rfl⟩ := Prod.mk.inj heq
      rw [stringEntry_eq_some] at hentry
      exact .inr ⟨x, hx, congrArg Prod.fst hentry, '"', _, String.toList_ofList, rfl⟩
  · obtain ⟨e, he, heq⟩ := List.mem_map.1 hmem
    obtain ⟨x, hx, hentry⟩ := List.mem_filterMap.1 ((hm.numbers.mem_iff e).1 he)
    obtain ⟨rfl, rfl⟩ := Prod.mk.inj heq
    exact .inr ⟨x, hx, (fst_of_numberEntry hentry).symm, (isNumberText_of_numberEntry hentry).exists_cons⟩

end Manifest.Records

/-! ## Names and keys of a run -/

namespace Survey

theorem mem_note {roles : List (String × Role)} {n m : String} {role : Role}
    (h : n ∈ (note roles m role).map Prod.fst) : n ∈ roles.map Prod.fst ∨ n = m := by
  unfold note at h
  split at h
  · exact .inl h
  · rw [List.map_append, List.mem_append] at h
    exact h.imp_right List.mem_singleton.1

/-- A name with a first role is spelled. -/
theorem mem_spellingsOf_of_mem_firstRolesOf {n : String} {sightings : List Sighting}
    (h : n ∈ (firstRolesOf sightings).map Prod.fst) : n ∈ spellingsOf sightings := by
  revert h
  refine List.foldlRecOn (motive := fun (roles : List (String × Role)) =>
    n ∈ roles.map Prod.fst → n ∈ spellingsOf sightings) sightings _ (fun h => by cases h) fun roles ih s hs => ?_
  cases s with
  | seen m role =>
    intro h
    rcases mem_note h with h | rfl
    · exact ih h
    · exact List.mem_filterMap.2 ⟨_, hs, rfl⟩
  | _ => exact ih

end Survey

namespace Planner

/-- What a plan renames has a first role in its module. -/
theorem renamings_planModule {p : CompiledProfile} (hp : p.LeadsUsable) (planner : Planner) (a : Analysis) :
    ∀ r ∈ (planModule p planner a).1.renamings, r.name ∈ a.survey.firstRoles.map Prod.fst := by
  refine planModule_induct
    (motive := fun state => ∀ r ∈ state.1.renamings, r.name ∈ a.survey.firstRoles.map Prod.fst)
    (fun r hr => by cases hr) ?_ fun _ _ _ h => h
  rintro ⟨plan, planner⟩ entry hentry h
  rcases planName_cases hp a.survey plan planner entry with heq | ⟨r, planner', heq, hname, -⟩
  · rw [heq]
    exact h
  · rw [heq]
    intro r' hr'
    rcases List.mem_append.1 hr' with hr' | hr'
    · exact h r' hr'
    · rw [List.mem_singleton.1 hr', hname]
      exact List.mem_map_of_mem hentry

theorem exists_analysis {p : CompiledProfile} (hp : p.LeadsUsable) {plan : ModulePlan} :
    ∀ {planner : Planner} {calls : List Analysis}, plan ∈ planAll p planner calls →
      ∃ a ∈ calls, ∀ r ∈ plan.renamings, r.name ∈ a.survey.firstRoles.map Prod.fst
  | _, [], h => absurd h List.not_mem_nil
  | planner, a :: calls, h => by
    rcases List.mem_cons.1 h with rfl | h
    · exact ⟨a, List.mem_cons_self, renamings_planModule hp planner a⟩
    · obtain ⟨a', ha', hnames⟩ := exists_analysis hp h
      exact ⟨a', List.mem_cons_of_mem _ ha', hnames⟩

end Planner

/-- What a run renames is spelled in one of its modules. -/
theorem name_mem_spelled {p : CompiledProfile} (hp : p.LeadsUsable) {modules : List ReadModule}
    {r : Renaming} (hr : r ∈ (planModules p modules).flatMap ModulePlan.renamings) :
    r.name ∈ spelled modules := by
  obtain ⟨plan, hplan, hr⟩ := List.mem_flatMap.1 hr
  obtain ⟨a, ha, hnames⟩ := Planner.exists_analysis hp hplan
  obtain ⟨m, hm, rfl⟩ := List.mem_map.1 ha
  refine List.mem_flatMap.2 ⟨m, hm, mem_sortNames.2 (List.mem_append_left _ ?_)⟩
  exact Survey.mem_spellingsOf_of_mem_firstRolesOf (hnames r hr)

namespace Settled

variable {p : CompiledProfile} {modules : List ReadModule} {final : Planner} {merged : Manifest}
  {key text : String}

/-- The words of the glossary of a run are keys: single words that no module spells. -/
theorem fresh_of_lookup (h : Settled p modules final)
    (hmerged : merged.Records ((planModules p modules).flatMap ModulePlan.renamings)
      ((planModules p modules).flatMap ModulePlan.hoisted))
    (hlookup : (Glossary.ofManifest merged).lookup key = some text) :
    key ∉ spelled modules ∧ Glossary.pieces key.toList = [.inl key] := by
  have hassigned : ∃ thing, (thing, key) ∈ final.assigned := by
    rcases hmerged.cases_of_lookup h.consistent hlookup with ⟨r, hr, rfl, -⟩ | ⟨x, hx, rfl, -⟩
    · exact ⟨_, (h.mem_renamings hr).2⟩
    · exact ⟨_, (h.mem_hoisted hx).2⟩
  obtain ⟨thing, hthing⟩ := hassigned
  obtain ⟨hspelled, -, hword⟩ := h.sound.fresh _ (h.sound.taken _ hthing)
  exact ⟨hspelled, hword⟩

/-- In the glossary of a run no word stands for itself. -/
theorem text_ne_key (h : Settled p modules final) (hp : p.LeadsUsable)
    (hmerged : merged.Records ((planModules p modules).flatMap ModulePlan.renamings)
      ((planModules p modules).flatMap ModulePlan.hoisted))
    (hlookup : (Glossary.ofManifest merged).lookup key = some text) : text ≠ key := by
  rintro rfl
  obtain ⟨hspelled, hword⟩ := h.fresh_of_lookup hmerged hlookup
  rcases hmerged.cases_of_lookup h.consistent hlookup with ⟨r, hr, -, rfl⟩ | ⟨-, -, -, c, cs, hlist, hc⟩
  · exact hspelled (name_mem_spelled hp hr)
  · obtain ⟨c', cs', hlist', hc', -⟩ := Glossary.exists_of_pieces_eq_singleton hword
    rw [hlist] at hlist'
    rw [(List.cons.inj hlist').1, hc'] at hc
    cases hc

/-- A short name expands to the name that got it. -/
theorem expand_key (h : Settled p modules final)
    (hmerged : merged.Records ((planModules p modules).flatMap ModulePlan.renamings)
      ((planModules p modules).flatMap ModulePlan.hoisted))
    {m : ReadModule} {plan : ModulePlan} (hx : (m, plan) ∈ modules.zip (planModules p modules))
    {name : String} (hkey : plan.renames.get? name = some key) :
    (Glossary.ofManifest merged).expand key = name := by
  obtain ⟨r, hr, hrname, hrkey⟩ := ((h.planned hx).agrees.renames name key).1 hkey
  have hmem : (key, name) ∈ merged.categories.flatMap Prod.snd :=
    hmerged.mem_names_iff.2 ⟨r, List.mem_flatMap.2 ⟨plan, (List.of_mem_zip hx).2, hr⟩, hrkey, hrname⟩
  have hlookup : (Glossary.ofManifest merged).lookup key = some name :=
    (hmerged.lookup_ofManifest h.consistent).2 (List.mem_append_left _ (List.mem_append_left _ hmem))
  exact Glossary.expand_word (h.fresh_of_lookup hmerged hlookup).2 hlookup

/-- A name that the run spells comes back unless a part of it is a key: it is no key itself. -/
theorem expand_spelled_iff (h : Settled p modules final) (hp : p.LeadsUsable)
    (hmerged : merged.Records ((planModules p modules).flatMap ModulePlan.renamings)
      ((planModules p modules).flatMap ModulePlan.hoisted))
    {name : String} (hname : name ∈ spelled modules) :
    (Glossary.ofManifest merged).expand name = name ↔
      ∀ word, .inl word ∈ Glossary.pieces name.toList → word ≠ name →
        (Glossary.ofManifest merged).lookup word = none := by
  rw [Glossary.expand_eq_self_iff fun key text hlookup => h.text_ne_key hp hmerged hlookup]
  refine ⟨fun hnone word hword _ => hnone word hword, fun hnone word hword => ?_⟩
  by_cases hself : word = name
  · rw [Option.eq_none_iff_forall_ne_some]
    intro text hlookup
    exact (h.fresh_of_lookup hmerged hlookup).1 (hself ▸ hname)
  · exact hnone word hword hself

end Settled

/-- **Every short name expands to its name, and every name that a module spells comes back as it is unless
a proper part of it is a key.**  In any run over modules that parse, whatever the profile: a name is taken
apart into ASCII words by the glossary, so a name that is one word always comes back. -/
theorem expand_names {profile : Profile} {p : CompiledProfile} (hp : profile.compile = .ok p)
    (emitMap : Bool) (timestamp : String) {sources : List SourceModule}
    (hparse : ∀ s ∈ sources, (Program.parse? s.text s.dialect).isSome = true) :
    ∃ modules results merged, Stages p emitMap timestamp sources modules results merged ∧
      ∀ x ∈ modules.zip (planModules p modules),
        (∀ name key, x.2.renames.get? name = some key →
          (Glossary.ofManifest merged).expand key = name) ∧
        ∀ name ∈ (x.1.program.survey x.1.source.dialect).namesInUse,
          ((Glossary.ofManifest merged).expand name = name ↔
            ∀ word, .inl word ∈ Glossary.pieces name.toList → word ≠ name →
              (Glossary.ofManifest merged).lookup word = none) := by
  obtain ⟨modules, hread, -⟩ := exists_read hparse
  obtain ⟨final, hsettled⟩ := exists_settled hp modules
  obtain ⟨results, merged, hstages, -, hmerges⟩ := exists_stages hread hsettled emitMap timestamp
  refine ⟨modules, results, merged, hstages, ?_⟩
  rintro ⟨m, plan⟩ hx
  refine ⟨fun name key hkey => hsettled.expand_key hmerges.records hx hkey, fun name hname => ?_⟩
  exact hsettled.expand_spelled_iff (Profile.leadsUsable_of_compile hp) hmerges.records
    (List.mem_flatMap.2 ⟨m, (List.of_mem_zip hx).1, hname⟩)

/-! ## A key inside of a name -/

/-- The program `let a;äk0(a);`: the function is declared nowhere, and its name ends like a short name. -/
def Program.callingHost : Program where
  statements :=
    [.node (.variables .let false) [.node (.declarator false) [.binding "a", .absent, .absent]],
     .node .expression
      [.node (.call false) [.reference "äk0", .absent, .node .group [.reference "a"]]]]

theorem Program.parse?_callingHost : Program.parse? "let a;äk0(a);" {} = some .callingHost := by
  decide +kernel

theorem Program.survey_callingHost :
    Program.callingHost.survey {} =
      { firstRoles := [("a", .declaration), ("äk0", .other)]
        pinned := ["äk0"]
        namesInUse := ["a", "äk0"] } := by
  have hfree : Program.callingHost.unresolved = ["äk0"] := sortNames_eq (by decide +kernel) (by decide)
  apply Program.survey_eq hfree (by decide) <;> decide +kernel

/-- The module of that program. -/
def ReadModule.callingHost : ReadModule :=
  { source := { path := ⟨"a.js"⟩, text := "let a;äk0(a);", dialect := {} }, program := .callingHost }

/-- A run over that module. -/
theorem expand_names_callingHost :
    Profile.eager.compile = .ok .eager ∧
      (∀ s ∈ [ReadModule.callingHost.source], (Program.parse? s.text s.dialect).isSome = true) ∧
      ∃ modules results merged,
        Stages .eager false "t" [ReadModule.callingHost.source] modules results merged ∧
        ∀ x ∈ modules.zip (planModules .eager modules),
          (∀ name key, x.2.renames.get? name = some key →
            (Glossary.ofManifest merged).expand key = name) ∧
          ∀ name ∈ (x.1.program.survey x.1.source.dialect).namesInUse,
            ((Glossary.ofManifest merged).expand name = name ↔
              ∀ word, .inl word ∈ Glossary.pieces name.toList → word ≠ name →
                (Glossary.ofManifest merged).lookup word = none) := by
  have hparse : ∀ s ∈ [ReadModule.callingHost.source], (Program.parse? s.text s.dialect).isSome = true :=
    List.forall_mem_singleton.2 (congrArg Option.isSome Program.parse?_callingHost)
  exact ⟨Profile.compile_eager, hparse, expand_names Profile.compile_eager false "t" hparse⟩

/-- **A name that is kept can be rewritten**: the glossary finds the short name `k0` in `äk0`. -/
theorem kept_name_rewritten :
    Profile.eager.compile = .ok .eager ∧
      ∃ results merged,
        Stages .eager false "t" [ReadModule.callingHost.source] [.callingHost] results merged ∧
        ∃ plan, planModules .eager [.callingHost] = [plan] ∧
          "äk0" ∈ (ReadModule.callingHost.program.survey ReadModule.callingHost.source.dialect).namesInUse ∧
          plan.renames.get? "äk0" = none ∧ (Glossary.ofManifest merged).expand "äk0" = "äa" := by
  refine ⟨Profile.compile_eager, ?_⟩
  obtain ⟨modules, hread, hmodules⟩ := exists_read
    (List.forall_mem_singleton.2 (congrArg Option.isSome Program.parse?_callingHost) :
      ∀ s ∈ [ReadModule.callingHost.source], (Program.parse? s.text s.dialect).isSome = true)
  obtain rfl : modules = [.callingHost] := hmodules.eq_singleton Program.parse?_callingHost
  obtain ⟨final, hsettled⟩ := exists_settled Profile.compile_eager [.callingHost]
  obtain ⟨results, merged, hstages, -, hmerges⟩ := exists_stages hread hsettled false "t"
  obtain ⟨plan, hplan⟩ := List.length_eq_one_iff.1 (length_planModules .eager [.callingHost])
  have hrenames : ((planModules .eager [.callingHost]).all fun plan => plan.renames == [("a", "k0")]) =
      true := by
    simp only [planModules, List.map_cons, List.map_nil, Program.analyse,
      ReadModule.callingHost, Program.survey_callingHost]
    decide +kernel
  rw [hplan, List.all_cons, Bool.and_eq_true] at hrenames
  have hplan' : plan.renames = [("a", "k0")] := by simpa using hrenames.1
  have hx : (ReadModule.callingHost, plan) ∈ [ReadModule.callingHost].zip
      (planModules .eager [.callingHost]) := by
    rw [hplan]
    exact List.mem_singleton.2 rfl
  have hkey : (Glossary.ofManifest merged).expand "k0" = "a" :=
    hsettled.expand_key hmerges.records hx (by rw [hplan']; decide)
  refine ⟨results, merged, hstages, plan, hplan, ?_, by rw [hplan']; decide, ?_⟩
  · change _ ∈ (Program.callingHost.survey {}).namesInUse
    rw [Program.survey_callingHost]
    decide
  · have hlist : "äk0".toList = 'ä' :: "k0".toList := rfl
    rw [← String.toList_inj, Glossary.toList_expand, hlist, Glossary.expandChars_char (by decide),
      ← Glossary.toList_expand, hkey]
    rfl

end Abridge
