import Abridge.Plan.Basic
import Abridge.Proofs.ShortNames
import Abridge.Proofs.Table
import Mathlib.Data.List.Perm.Basic
import Mathlib.Data.List.Nodup

/-!
# Keys over a run

A run gives keys to two sorts of things, names and literal values, out of one allocator.  The state
that remembers them is spread over three places: the renamings of the classifier, the table of literal
keys and the names that the allocator has given out.  `Planner.assigned` is the one list that all of
them describe, and `Planner.Sound` says what holds of it after every step:

* no thing and no key occurs in it twice;
* its keys were given out by the allocator, so they are spelled nowhere in the run, are not protected
  and are whole words of the glossary.

A step of the planner either finds a thing in the list or adds it with a fresh key
(`Planner.Assigns`); it never takes anything away.  So the things that any module of a run got keys
for are all in the list of the last planner (`planAll_final`), and every statement about two modules
is one about that single list.

## What is here

* `Thing`, `Planner.assigned`, `ModulePlan.assigned`: what has a key.
* `planModule_induct`: how a property of plan and planner is carried through a module.
* `planAll_final`: one sound list for a whole run.
-/

set_option autoImplicit false

namespace Abridge

/-! ## Checked profiles -/

/-- All leads of a checked profile can start a short name. -/
structure CompiledProfile.LeadsUsable (p : CompiledProfile) : Prop where
  strings : Profile.isUsableLead p.profile.stringLead = true
  numbers : Profile.isUsableLead p.profile.numberLead = true
  rules : ∀ r ∈ p.rules, Profile.isUsableLead r.rule.lead = true

namespace Profile

theorem rule_mem_of_compileRules :
    ∀ {rules : List CategoryRule} {compiled : List CompiledRule},
      compileRules rules = .ok compiled → ∀ r ∈ compiled, r.rule ∈ rules
  | [], compiled, h, r, hr => by
    rw [compileRules, Except.ok.injEq] at h
    rw [← h] at hr
    exact absurd hr List.not_mem_nil
  | rule :: rules, compiled, h, r, hr => by
    rw [compileRules] at h
    split at h
    · exact absurd h (by simp)
    · split at h
      · rename_i rest hrest
        rw [Except.ok.injEq] at h
        rw [← h] at hr
        rcases List.mem_cons.1 hr with rfl | hr
        · exact List.mem_cons_self
        · exact List.mem_cons_of_mem _ (rule_mem_of_compileRules hrest r hr)
      · exact absurd h (by simp)

/-- What a profile that passes its checks is. -/
theorem compile_eq_ok {profile : Profile} {p : CompiledProfile} (h : profile.compile = .ok p) :
    p.profile = profile ∧ compileRules profile.categoryRules = .ok p.rules ∧
      ∀ lead ∈ profile.leads, isUsableLead lead = true := by
  rw [compile] at h
  split at h
  · exact absurd h (by simp)
  split at h
  · exact absurd h (by simp)
  split at h
  · exact absurd h (by simp)
  rename_i hleads
  split at h
  · exact absurd h (by simp)
  rename_i rules hrules
  split at h
  · exact absurd h (by simp)
  rw [Except.ok.injEq] at h
  subst h
  exact ⟨rfl, hrules, by simpa using hleads⟩

theorem exists_compile {profile : Profile} (h : profile.compile.toOption.isSome = true) :
    ∃ p, profile.compile = .ok p := by
  cases hp : profile.compile with
  | error e => rw [hp] at h; cases h
  | ok p => exact ⟨p, rfl⟩

theorem exists_compile_balanced : ∃ p, balanced.compile = .ok p :=
  exists_compile (by decide +kernel)

theorem leadsUsable_of_compile {profile : Profile} {p : CompiledProfile}
    (h : profile.compile = .ok p) : p.LeadsUsable := by
  obtain ⟨rfl, hrules, hleads⟩ := compile_eq_ok h
  refine ⟨hleads _ (by simp [leads]), hleads _ (by simp [leads]), fun r hr => hleads _ ?_⟩
  have := List.mem_map_of_mem (f := CategoryRule.lead) (rule_mem_of_compileRules hrules r hr)
  simp [leads, this]

end Profile

/-! ## Things and their keys -/

/-- What a key can stand for: a name, or a literal value by its identity. -/
inductive Thing where
  | name (name : String)
  | literal (identity : String)
  deriving DecidableEq, Repr

/-- The thing that a renaming gives a key to, with the key. -/
def Renaming.assigned (r : Renaming) : Thing × String := (.name r.name, r.shortName)

/-- Everything that a planner has a key for, with the key. -/
def Planner.assigned (planner : Planner) : List (Thing × String) :=
  planner.classifier.renamings.map Renaming.assigned ++
    planner.literalKeys.map fun e => (.literal e.1, e.2)

/-- Everything that a plan uses a key for, with the key. -/
def ModulePlan.assigned (plan : ModulePlan) : List (Thing × String) :=
  plan.renames.map (fun e => (.name e.1, e.2)) ++
    plan.hoisted.map fun e => (.literal e.2.identity, e.1)

namespace Planner

/-- What holds of the keys of a run whose modules spell the names in `inUse`. -/
structure Sound (inUse : List String) (planner : Planner) : Prop where
  /-- The allocator avoids what the modules spell. -/
  inUse_eq : planner.short.inUse = inUse
  /-- What was given out is spelled nowhere, not protected, and one word. -/
  fresh : ∀ k ∈ planner.short.taken,
    k ∉ inUse ∧ isProtectedName k = false ∧ Glossary.pieces k.toList = [.inl k]
  /-- What was given out ends in a counter. -/
  counted : ∀ k ∈ planner.short.taken, ∃ lead n, k = ShortNames.candidate lead n
  /-- Every key was given out. -/
  taken : ∀ e ∈ planner.assigned, e.2 ∈ planner.short.taken
  /-- No thing has two keys. -/
  things : (planner.assigned.map Prod.fst).Nodup
  /-- No key stands for two things. -/
  keys : (planner.assigned.map Prod.snd).Nodup

theorem sound_start (analyses : List Analysis) :
    Sound (analyses.flatMap fun a => a.survey.namesInUse) (start analyses) := by
  constructor <;> simp [start, assigned]

/-- One key for one thing: `planner'` is the planner after a thing got its key. -/
inductive Assigns (planner : Planner) (thing : Thing) (key : String) : Planner → Prop
  /-- The thing has the key already. -/
  | known (h : (thing, key) ∈ planner.assigned) : Assigns planner thing key planner
  /-- The thing has no key yet and gets a fresh one. -/
  | fresh {planner' : Planner} (lead : String) (hlead : Profile.isUsableLead lead = true)
      (hnew : thing ∉ planner.assigned.map Prod.fst) (hkey : key = (planner.short.next lead).1)
      (hshort : planner'.short = (planner.short.next lead).2)
      (hassigned : planner'.assigned.Perm ((thing, key) :: planner.assigned)) :
      Assigns planner thing key planner'

theorem Assigns.subset {planner planner' : Planner} {thing : Thing} {key : String}
    (h : Assigns planner thing key planner') : planner.assigned ⊆ planner'.assigned := by
  cases h with
  | known _ => exact List.Subset.refl _
  | fresh lead _ _ _ _ hassigned =>
    exact fun e he => hassigned.mem_iff.2 (List.mem_cons_of_mem _ he)

theorem Assigns.mem {planner planner' : Planner} {thing : Thing} {key : String}
    (h : Assigns planner thing key planner') : (thing, key) ∈ planner'.assigned := by
  cases h with
  | known hmem => exact hmem
  | fresh lead _ _ _ _ hassigned => exact hassigned.mem_iff.2 List.mem_cons_self

/-- **A step keeps the assignment sound**: a fresh key differs from all keys before it because those
were given out by the same allocator. -/
theorem Sound.assigns {inUse : List String} {planner planner' : Planner} {thing : Thing}
    {key : String} (hs : Sound inUse planner) (h : Assigns planner thing key planner') :
    Sound inUse planner' := by
  cases h with
  | known _ => exact hs
  | fresh lead hlead hnew hkey hshort hassigned =>
    subst hkey
    have hfree := (planner.short.isFree_iff _).1 (planner.short.isFree_next lead)
    rw [hs.inUse_eq] at hfree
    refine ⟨?_, ?_, ?_, ?_, ?_, ?_⟩
    · rw [hshort, ShortNames.next_inUse, hs.inUse_eq]
    · intro k hk
      rw [hshort, ShortNames.next_taken] at hk
      rcases List.mem_cons.1 hk with rfl | hk
      · obtain ⟨n, hn⟩ := planner.short.next_eq_candidate lead
        refine ⟨hfree.2.1, hfree.2.2, ?_⟩
        rw [hn]
        exact ShortNames.pieces_candidate hlead n
      · exact hs.fresh k hk
    · intro k hk
      rw [hshort, ShortNames.next_taken] at hk
      rcases List.mem_cons.1 hk with rfl | hk
      · exact ⟨lead, planner.short.next_eq_candidate lead⟩
      · exact hs.counted k hk
    · intro e he
      rw [hshort, ShortNames.next_taken]
      rcases List.mem_cons.1 (hassigned.mem_iff.1 he) with rfl | he
      · exact List.mem_cons_self
      · exact List.mem_cons_of_mem _ (hs.taken e he)
    · rw [(hassigned.map Prod.fst).nodup_iff, List.map_cons]
      exact List.nodup_cons.2 ⟨hnew, hs.things⟩
    · rw [(hassigned.map Prod.snd).nodup_iff, List.map_cons]
      refine List.nodup_cons.2 ⟨fun hmem => ?_, hs.keys⟩
      obtain ⟨e, he, hek⟩ := List.mem_map.1 hmem
      have htaken := hs.taken e he
      rw [hek] at htaken
      exact hfree.1 htaken

/-- In a sound assignment a key and a thing determine each other. -/
theorem Sound.key_eq_iff {inUse : List String} {planner : Planner} (hs : Sound inUse planner)
    {e₁ e₂ : Thing × String} (h₁ : e₁ ∈ planner.assigned) (h₂ : e₂ ∈ planner.assigned) :
    e₁.2 = e₂.2 ↔ e₁.1 = e₂.1 := by
  refine ⟨fun h => ?_, fun h => ?_⟩
  · exact congrArg Prod.fst (List.inj_on_of_nodup_map hs.keys h₁ h₂ h)
  · exact congrArg Prod.snd (List.inj_on_of_nodup_map hs.things h₁ h₂ h)

/-! ## Names -/

/-- The thing of a name that the classifier has a renaming for is assigned. -/
theorem mem_assigned_of_find? {planner : Planner} {name : String} {r : Renaming}
    (h : planner.classifier.find? name = some r) :
    r.name = name ∧ r ∈ planner.classifier.renamings ∧ (Thing.name name, r.shortName) ∈ planner.assigned := by
  have hmem := List.mem_of_find?_eq_some h
  have hname : r.name = name := by simpa using List.find?_some h
  refine ⟨hname, hmem, List.mem_append_left _ ?_⟩
  rw [← hname]
  exact List.mem_map_of_mem (f := Renaming.assigned) hmem

theorem not_mem_assigned_of_find?_eq_none {planner : Planner} {name : String}
    (h : planner.classifier.find? name = none) : Thing.name name ∉ planner.assigned.map Prod.fst := by
  intro hmem
  obtain ⟨e, he, hthing⟩ := List.mem_map.1 hmem
  rcases List.mem_append.1 he with he | he
  · obtain ⟨r, hr, rfl⟩ := List.mem_map.1 he
    have hname : r.name = name := by simpa [Renaming.assigned] using hthing
    have := List.find?_eq_none.1 h r hr
    simp [hname] at this
  · obtain ⟨l, -, rfl⟩ := List.mem_map.1 he
    exact absurd hthing (by simp)

/-- A name that is renamed falls under a rule of the profile and is not pinned, not protected and not
in dynamic scope. -/
theorem verdict_eq_rename {c : Classifier} {p : CompiledProfile} {survey : Survey} {name : String}
    {role : Role} {rule : CompiledRule} (h : c.verdict p survey name role = .rename rule) :
    rule ∈ p.rules ∧ p.isProtected name = false ∧ name ∉ survey.pinned ∧
      survey.dynamicScope = false := by
  unfold Classifier.verdict at h
  split at h
  · exact absurd h (by simp)
  split at h
  · exact absurd h (by simp)
  rename_i hdyn
  split at h
  · exact absurd h (by simp)
  rename_i hprot
  split at h
  · exact absurd h (by simp)
  rename_i hpin
  split at h
  · exact absurd h (by simp)
  split at h
  · exact absurd h (by simp)
  split at h
  · exact absurd h (by simp)
  rename_i found hrule
  split at h
  · exact absurd h (by simp)
  rw [Verdict.rename.injEq] at h
  subst h
  refine ⟨?_, by simpa using hprot, by simpa using hpin, by simpa using hdyn⟩
  unfold Classifier.rule? at hrule
  split at hrule
  · exact List.mem_of_find?_eq_some hrule
  · exact List.mem_of_find?_eq_some hrule

/-- What one name of a module does to the plan and the planner: nothing, or it is renamed under a key
that it had or now gets. -/
theorem planName_cases {p : CompiledProfile} (hp : p.LeadsUsable) (survey : Survey)
    (plan : ModulePlan) (planner : Planner) (entry : String × Role) :
    planName p survey (plan, planner) entry = (plan, planner) ∨
    ∃ (r : Renaming) (planner' : Planner),
      planName p survey (plan, planner) entry =
        ({ plan with renames := plan.renames.put r.name r.shortName
                     renamings := plan.renamings ++ [r] }, planner') ∧
      r.name = entry.1 ∧ r ∈ planner'.classifier.renamings ∧
      planner.classifier.renamings ⊆ planner'.classifier.renamings ∧
      p.isProtected r.name = false ∧ r.name ∉ survey.pinned ∧ survey.dynamicScope = false ∧
      Assigns planner (.name r.name) r.shortName planner' := by
  obtain ⟨name, role⟩ := entry
  cases hverdict : planner.classifier.verdict p survey name role with
  | keep reason =>
    left
    simp [planName, Classifier.bind, hverdict]
  | rename rule =>
    right
    obtain ⟨hrule, hprot, hpin, hdyn⟩ := verdict_eq_rename hverdict
    cases hfind : planner.classifier.find? name with
    | some r =>
      obtain ⟨rfl, hr, hmem⟩ := mem_assigned_of_find? hfind
      refine ⟨r, planner, ?_, rfl, hr, List.Subset.refl _, hprot, hpin, hdyn, .known hmem⟩
      simp [planName, Classifier.bind, hverdict, hfind]
    | none =>
      refine ⟨⟨name, role, rule.rule.name, (planner.short.next rule.rule.lead).1⟩, _,
        by simp [planName, Classifier.bind, hverdict, hfind]; rfl, rfl, ?_, ?_, hprot, hpin, hdyn,
        .fresh rule.rule.lead (hp.rules rule hrule) (not_mem_assigned_of_find?_eq_none hfind) rfl
          rfl ?_⟩
      · simp
      · intro r hr
        simp [hr]
      · simp only [assigned, List.map_append, List.map_cons, List.map_nil, List.append_assoc]
        exact List.perm_middle

/-! ## Literals -/

theorem not_mem_assigned_of_get?_eq_none {planner : Planner} {identity : String}
    (h : planner.literalKeys.get? identity = none) :
    Thing.literal identity ∉ planner.assigned.map Prod.fst := by
  intro hmem
  obtain ⟨e, he, hthing⟩ := List.mem_map.1 hmem
  rcases List.mem_append.1 he with he | he
  · obtain ⟨r, -, rfl⟩ := List.mem_map.1 he
    exact absurd hthing (by simp [Renaming.assigned])
  · obtain ⟨l, hl, rfl⟩ := List.mem_map.1 he
    have hid : l.1 = identity := by simpa using hthing
    exact Table.get?_eq_none_iff.1 h (hid ▸ List.mem_map_of_mem (f := Prod.fst) hl)

/-- The key of a literal value is one that its identity had or now gets; renamings stay as they are. -/
theorem keyOf_assigns {p : CompiledProfile} (hp : p.LeadsUsable) (planner : Planner)
    (value : Literal) :
    Assigns planner (.literal value.identity) (keyOf p planner value).1 (keyOf p planner value).2 ∧
      (keyOf p planner value).2.classifier = planner.classifier := by
  cases hget : planner.literalKeys.get? value.identity with
  | some key =>
    have hkey : keyOf p planner value = (key, planner) := by simp [keyOf, hget]
    rw [hkey]
    refine ⟨.known (List.mem_append_right _ ?_), rfl⟩
    exact List.mem_map_of_mem (f := fun e : String × String => (Thing.literal e.1, e.2))
      (Table.mem_of_get? hget)
  | none =>
    obtain ⟨lead, hlead⟩ : ∃ lead : String,
        lead = if value.isString then p.profile.stringLead else p.profile.numberLead := ⟨_, rfl⟩
    have husable : Profile.isUsableLead lead = true := by
      rw [hlead]
      split
      · exact hp.strings
      · exact hp.numbers
    have hkey : keyOf p planner value = ((planner.short.next lead).1,
        { planner with
          short := (planner.short.next lead).2
          literalKeys := planner.literalKeys.put value.identity (planner.short.next lead).1 }) := by
      simp [keyOf, hget, hlead]
    rw [hkey]
    refine ⟨.fresh lead husable (not_mem_assigned_of_get?_eq_none hget) rfl rfl ?_, rfl⟩
    simp only [assigned, Table.put_of_get?_eq_none hget, List.map_append, List.map_cons,
      List.map_nil]
    rw [← List.append_assoc]
    exact List.perm_append_singleton _ _

/-- Two renamings of one name in a sound planner are the same renaming. -/
theorem Sound.renaming_eq {inUse : List String} {planner : Planner} (hs : Sound inUse planner)
    {r₁ r₂ : Renaming} (h₁ : r₁ ∈ planner.classifier.renamings)
    (h₂ : r₂ ∈ planner.classifier.renamings) (h : r₁.name = r₂.name) : r₁ = r₂ := by
  have hnodup := hs.things
  rw [assigned, List.map_append, List.map_map] at hnodup
  exact List.inj_on_of_nodup_map (List.nodup_append.1 hnodup).1 h₁ h₂ (by simp [Renaming.assigned, h])

/-! ## One module -/

/-- How a property of plan and planner is carried through a module: it holds of the empty plan, and
every name and every hoisted literal keeps it. -/
theorem planModule_induct {p : CompiledProfile} {planner : Planner} {a : Analysis}
    {motive : ModulePlan × Planner → Prop} (init : motive ({}, planner))
    (name : ∀ state, ∀ entry ∈ a.survey.firstRoles, motive state →
      motive (planName p a.survey state entry))
    (literal : ∀ state, ∀ entry ∈ a.literals.filter LiteralEntry.hoist, motive state →
      motive (planLiteral p state entry)) :
    motive (planModule p planner a) := by
  have hfold : ∀ {β : Type} (step : ModulePlan × Planner → β → ModulePlan × Planner)
      (entries : List β) (state : ModulePlan × Planner),
      (∀ s, ∀ e ∈ entries, motive s → motive (step s e)) → motive state →
      motive (entries.foldl step state) := by
    intro β step entries
    induction entries with
    | nil => exact fun state _ h => h
    | cons e rest ih =>
      exact fun state hstep h => ih _ (fun s e he => hstep s e (List.mem_cons_of_mem _ he))
        (hstep state e List.mem_cons_self h)
  exact hfold _ _ _ literal (hfold _ _ _ name init)

/-- What a plan for a module with this survey has to do with the keys of a planner. -/
structure Agrees (p : CompiledProfile) (survey : Survey) (plan : ModulePlan) (planner : Planner) :
    Prop where
  /-- What the plan uses has its key in the run. -/
  assigned : plan.assigned ⊆ planner.assigned
  renamings : plan.renamings ⊆ planner.classifier.renamings
  /-- The table of renames and the list of renamings say the same. -/
  renames : ∀ n k, plan.renames.get? n = some k ↔
    ∃ r ∈ plan.renamings, r.name = n ∧ r.shortName = k
  /-- What is renamed may be renamed. -/
  allowed : ∀ r ∈ plan.renamings, p.isProtected r.name = false ∧ r.name ∉ survey.pinned ∧
    survey.dynamicScope = false

/-- `after` knows all that `before` knows, and is sound. -/
structure Grows (inUse : List String) (before after : Planner) : Prop where
  sound : Sound inUse after
  assigned : before.assigned ⊆ after.assigned
  renamings : before.classifier.renamings ⊆ after.classifier.renamings

theorem Grows.refl {inUse : List String} {planner : Planner} (hs : Sound inUse planner) :
    Grows inUse planner planner :=
  ⟨hs, List.Subset.refl _, List.Subset.refl _⟩

theorem Grows.trans {inUse : List String} {a b c : Planner} (hab : Grows inUse a b)
    (hbc : Grows inUse b c) : Grows inUse a c :=
  ⟨hbc.sound, List.Subset.trans hab.assigned hbc.assigned,
    List.Subset.trans hab.renamings hbc.renamings⟩

/-- A plan goes on to agree with a planner that has learnt more. -/
theorem Agrees.mono {p : CompiledProfile} {survey : Survey} {plan : ModulePlan}
    {inUse : List String} {before after : Planner} (h : Agrees p survey plan before)
    (hg : Grows inUse before after) : Agrees p survey plan after :=
  ⟨List.Subset.trans h.assigned hg.assigned, List.Subset.trans h.renamings hg.renamings, h.renames,
    h.allowed⟩

theorem mem_assigned_of_mem_put {plan : ModulePlan} {n k : String} {e : Thing × String}
    (h : e ∈ ({ plan with renames := plan.renames.put n k } : ModulePlan).assigned) :
    e = (.name n, k) ∨ e ∈ plan.assigned := by
  rcases List.mem_append.1 h with h | h
  · obtain ⟨x, hx, rfl⟩ := List.mem_map.1 h
    have hput : ∀ table : Table String String, x ∈ table.put n k → x = (n, k) ∨ x ∈ table := by
      intro table
      induction table with
      | nil => intro hx; left; simpa [Table.put] using hx
      | cons y rest ih =>
        intro hx
        rw [Table.put] at hx
        split at hx
        · rename_i hy
          have hy' : y.1 = n := by simpa using hy
          rcases List.mem_cons.1 hx with rfl | hx
          · left; rw [hy']
          · right; exact List.mem_cons_of_mem _ hx
        · rcases List.mem_cons.1 hx with rfl | hx
          · right; exact List.mem_cons_self
          · exact (ih hx).imp id fun h => List.mem_cons_of_mem _ h
    rcases hput _ hx with rfl | hx
    · left; rfl
    · right
      exact List.mem_append_left _
        (List.mem_map_of_mem (f := fun e : String × String => (Thing.name e.1, e.2)) hx)
  · right; exact List.mem_append_right _ h

theorem Agrees.planName {p : CompiledProfile} (hp : p.LeadsUsable) {inUse : List String}
    {survey : Survey} {state : ModulePlan × Planner} (hs : Sound inUse state.2)
    (h : Agrees p survey state.1 state.2) (entry : String × Role) :
    Agrees p survey (planName p survey state entry).1 (planName p survey state entry).2 ∧
      Grows inUse state.2 (planName p survey state entry).2 := by
  obtain ⟨plan, planner⟩ := state
  rcases planName_cases hp survey plan planner entry with
    heq | ⟨r, planner', heq, -, hr, hmore, hprot, hpin, hdyn, hassigns⟩
  · rw [heq]
    exact ⟨h, .refl hs⟩
  rw [heq]
  have hgrows : Grows inUse planner planner' := ⟨hs.assigns hassigns, hassigns.subset, hmore⟩
  have hmono := h.mono hgrows
  refine ⟨⟨fun e he => ?_, fun x hx => ?_, fun n k => ?_, fun x hx => ?_⟩, hgrows⟩
  · rcases mem_assigned_of_mem_put he with rfl | he
    · exact hassigns.mem
    · exact hmono.assigned he
  · rcases List.mem_append.1 hx with hx | hx
    · exact hmono.renamings hx
    · rw [List.mem_singleton.1 hx]
      exact hr
  · rw [Table.get?_put]
    split
    · rename_i hn
      have hn' : r.name = n := by simpa using hn
      rw [Option.some_inj]
      constructor
      · rintro rfl
        exact ⟨r, List.mem_append_right _ (List.mem_singleton.2 rfl), hn', rfl⟩
      · rintro ⟨r', hr', hname, rfl⟩
        -- A name has one renaming in the run, so an earlier one of this module is the same.
        have hr'' : r' ∈ planner'.classifier.renamings := by
          rcases List.mem_append.1 hr' with hr' | hr'
          · exact hmono.renamings hr'
          · rw [List.mem_singleton.1 hr']
            exact hr
        rw [hgrows.sound.renaming_eq hr hr'' (hn'.trans hname.symm)]
    · rename_i hn
      rw [h.renames]
      constructor
      · rintro ⟨r', hr', hname, hkey⟩
        exact ⟨r', List.mem_append_left _ hr', hname, hkey⟩
      · rintro ⟨r', hr', hname, hkey⟩
        rcases List.mem_append.1 hr' with hr' | hr'
        · exact ⟨r', hr', hname, hkey⟩
        · rw [List.mem_singleton.1 hr'] at hname
          exact absurd (beq_iff_eq.2 hname) hn
  · rcases List.mem_append.1 hx with hx | hx
    · exact h.allowed x hx
    · rw [List.mem_singleton.1 hx]
      exact ⟨hprot, hpin, hdyn⟩

theorem Agrees.planLiteral {p : CompiledProfile} (hp : p.LeadsUsable) {inUse : List String}
    {survey : Survey} {state : ModulePlan × Planner} (hs : Sound inUse state.2)
    (h : Agrees p survey state.1 state.2) (entry : LiteralEntry) :
    Agrees p survey (planLiteral p state entry).1 (planLiteral p state entry).2 ∧
      Grows inUse state.2 (planLiteral p state entry).2 := by
  obtain ⟨plan, planner⟩ := state
  obtain ⟨hassigns, hclassifier⟩ := keyOf_assigns hp planner entry.value
  have hgrows : Grows inUse planner (keyOf p planner entry.value).2 := by
    refine ⟨hs.assigns hassigns, hassigns.subset, ?_⟩
    rw [hclassifier]
    exact List.Subset.refl _
  have hmono := h.mono hgrows
  refine ⟨⟨fun e he => ?_, hmono.renamings, h.renames, h.allowed⟩, hgrows⟩
  have he' : e ∈ plan.assigned ∨
      e = (.literal entry.value.identity, (keyOf p planner entry.value).1) := by
    simpa [Planner.planLiteral, ModulePlan.assigned, or_assoc] using he
  rcases he' with he | rfl
  · exact hmono.assigned he
  · exact hassigns.mem

/-- **A module's plan uses the keys of the run**, and the planner after it is as sound as before. -/
theorem agrees_planModule {p : CompiledProfile} (hp : p.LeadsUsable) {inUse : List String}
    {planner : Planner} (hs : Sound inUse planner) (a : Analysis) :
    Agrees p a.survey (planModule p planner a).1 (planModule p planner a).2 ∧
      Grows inUse planner (planModule p planner a).2 := by
  refine planModule_induct (motive := fun state =>
    Agrees p a.survey state.1 state.2 ∧ Grows inUse planner state.2) ?_ ?_ ?_
  · exact ⟨⟨by simp [ModulePlan.assigned], by simp, by simp, by simp⟩, .refl hs⟩
  · rintro state entry - ⟨hagrees, hgrows⟩
    obtain ⟨hagrees', hgrows'⟩ := hagrees.planName hp hgrows.sound entry
    exact ⟨hagrees', hgrows.trans hgrows'⟩
  · rintro state entry - ⟨hagrees, hgrows⟩
    obtain ⟨hagrees', hgrows'⟩ := hagrees.planLiteral hp hgrows.sound entry
    exact ⟨hagrees', hgrows.trans hgrows'⟩

/-! ## Where the keys of literals stand -/

/-- The table of sites for literal entries with their keys. -/
def placed (pairs : List (String × LiteralEntry)) (sites : Table Nat String) : Table Nat String :=
  pairs.foldl (fun sites x => x.2.sites.foldl (fun sites site => sites.put site x.1) sites) sites

theorem get?_foldl_put (key : String) (site : Nat) :
    ∀ (new : List Nat) (sites : Table Nat String),
      (new.foldl (fun sites site => sites.put site key) sites).get? site =
        if site ∈ new then some key else sites.get? site
  | [], sites => by simp
  | s :: new, sites => by
    rw [List.foldl_cons, get?_foldl_put key site new, Table.get?_put]
    by_cases hs : s = site
    · subst hs
      simp
    · have hs' : ¬ site = s := fun h => hs h.symm
      simp [hs, hs']

/-- A site has the key of an entry that is written there. -/
theorem placed_eq_some {site : Nat} {key : String} :
    ∀ {pairs : List (String × LiteralEntry)} {sites : Table Nat String},
      (placed pairs sites).get? site = some key →
      (∃ x ∈ pairs, site ∈ x.2.sites ∧ x.1 = key) ∨ sites.get? site = some key
  | [], sites, h => .inr h
  | x :: pairs, sites, h => by
    change (placed pairs _).get? site = some key at h
    rcases placed_eq_some h with ⟨y, hy, hmem, hkey⟩ | h
    · exact .inl ⟨y, List.mem_cons_of_mem _ hy, hmem, hkey⟩
    rw [get?_foldl_put] at h
    split at h
    · rename_i hmem
      exact .inl ⟨x, List.mem_cons_self, hmem, Option.some_inj.1 h⟩
    · exact .inr h

/-- What no later entry is written at stays as it is. -/
theorem placed_of_forall_not_mem {site : Nat} :
    ∀ {pairs : List (String × LiteralEntry)} {sites : Table Nat String},
      (∀ x ∈ pairs, site ∉ x.2.sites) → (placed pairs sites).get? site = sites.get? site
  | [], sites, _ => rfl
  | x :: pairs, sites, h => by
    refine (placed_of_forall_not_mem fun y hy => h y (List.mem_cons_of_mem _ hy)).trans ?_
    rw [get?_foldl_put, if_neg (h x List.mem_cons_self)]

/-- When no two entries are written at one site, every site of an entry has its key. -/
theorem placed_eq_of_mem {site : Nat} {x : String × LiteralEntry} :
    ∀ {pairs : List (String × LiteralEntry)} {sites : Table Nat String},
      pairs.Pairwise (fun y z => y.2.sites.Disjoint z.2.sites) → x ∈ pairs → site ∈ x.2.sites →
      (placed pairs sites).get? site = some x.1
  | y :: pairs, sites, hpair, hx, hsite => by
    obtain ⟨hy, hpair⟩ := List.pairwise_cons.1 hpair
    rcases List.mem_cons.1 hx with rfl | hx
    · refine (placed_of_forall_not_mem fun z hz hmem => hy z hz hsite hmem).trans ?_
      rw [get?_foldl_put, if_pos hsite]
    · change (placed pairs _).get? site = some x.1
      exact placed_eq_of_mem hpair hx hsite

/-- How a plan hoists the literals in a table: `pairs` are the entries to hoist with their keys. -/
structure Hoists (literals : LiteralTable) (plan : ModulePlan) (pairs : List (String × LiteralEntry)) :
    Prop where
  entries : pairs.map Prod.snd = literals.filter LiteralEntry.hoist
  hoisted : plan.hoisted = pairs.map fun x => (x.1, x.2.value)
  sites : plan.sites = placed pairs []

theorem foldl_planName_literals (p : CompiledProfile) (survey : Survey) :
    ∀ (entries : List (String × Role)) (state : ModulePlan × Planner),
      (entries.foldl (planName p survey) state).1.hoisted = state.1.hoisted ∧
        (entries.foldl (planName p survey) state).1.sites = state.1.sites
  | [], state => ⟨rfl, rfl⟩
  | entry :: entries, (plan, planner) => by
    have hstep : (planName p survey (plan, planner) entry).1.hoisted = plan.hoisted ∧
        (planName p survey (plan, planner) entry).1.sites = plan.sites := by
      unfold planName
      dsimp only
      split
      · exact ⟨rfl, rfl⟩
      · exact ⟨rfl, rfl⟩
    obtain ⟨hh, hs⟩ := foldl_planName_literals p survey entries (planName p survey (plan, planner) entry)
    exact ⟨hh.trans hstep.1, hs.trans hstep.2⟩

theorem foldl_planLiteral_literals (p : CompiledProfile) :
    ∀ (entries : List LiteralEntry) (state : ModulePlan × Planner),
      ∃ pairs : List (String × LiteralEntry), pairs.map Prod.snd = entries ∧
        (entries.foldl (planLiteral p) state).1.hoisted =
          state.1.hoisted ++ pairs.map (fun x => (x.1, x.2.value)) ∧
        (entries.foldl (planLiteral p) state).1.sites = placed pairs state.1.sites
  | [], state => ⟨[], rfl, by simp, rfl⟩
  | entry :: entries, (plan, planner) => by
    obtain ⟨pairs, hentries, hh, hs⟩ :=
      foldl_planLiteral_literals p entries (planLiteral p (plan, planner) entry)
    refine ⟨((keyOf p planner entry.value).1, entry) :: pairs, by rw [List.map_cons, hentries], ?_, ?_⟩
    · rw [List.foldl_cons, hh]
      simp [planLiteral]
    · rw [List.foldl_cons, hs]
      rfl

theorem hoists_planModule (p : CompiledProfile) (planner : Planner) (a : Analysis) :
    ∃ pairs, Hoists a.literals (planModule p planner a).1 pairs := by
  obtain ⟨hh, hs⟩ := foldl_planName_literals p a.survey a.survey.firstRoles ({}, planner)
  obtain ⟨pairs, hentries, hh', hs'⟩ := foldl_planLiteral_literals p
    (a.literals.filter LiteralEntry.hoist)
    (a.survey.firstRoles.foldl (planName p a.survey) ({}, planner))
  refine ⟨pairs, hentries, ?_, ?_⟩
  · rw [hh] at hh'
    exact hh'
  · rw [hs] at hs'
    exact hs'

/-! ## A whole run -/

/-- What every plan of a run has to do with the last planner of the run. -/
structure Planned (p : CompiledProfile) (final : Planner) (a : Analysis) (plan : ModulePlan) :
    Prop where
  agrees : Agrees p a.survey plan final
  hoists : ∃ pairs, Hoists a.literals plan pairs

theorem length_planAll (p : CompiledProfile) :
    ∀ (planner : Planner) (calls : List Analysis), (planAll p planner calls).length = calls.length
  | _, [] => rfl
  | planner, a :: calls => by
    rw [planAll, List.length_cons, List.length_cons, length_planAll]

/-- **One sound assignment for a whole run**: the last planner knows every key of every plan. -/
theorem planAll_final {p : CompiledProfile} (hp : p.LeadsUsable) {inUse : List String} :
    ∀ {planner : Planner} (calls : List Analysis), Sound inUse planner →
      ∃ final, Grows inUse planner final ∧
        List.Forall₂ (Planned p final) calls (planAll p planner calls)
  | planner, [], hs => ⟨planner, .refl hs, .nil⟩
  | planner, a :: calls, hs => by
    obtain ⟨hagrees, hgrows⟩ := agrees_planModule hp hs a
    obtain ⟨final, hfinal, hplans⟩ := planAll_final hp calls hgrows.sound
    exact ⟨final, hgrows.trans hfinal,
      .cons ⟨hagrees.mono hfinal, hoists_planModule p planner a⟩ hplans⟩

/-- What the plan of a module with this literal table does with the literals in it. -/
structure Places (literals : LiteralTable) (plan : ModulePlan) : Prop where
  /-- What is hoisted is what the table says, in its order. -/
  values : plan.hoisted.map Prod.snd = (literals.filter LiteralEntry.hoist).map LiteralEntry.value
  /-- No key is declared twice. -/
  keys : (plan.hoisted.map Prod.fst).Nodup
  /-- A literal is replaced by a key exactly where a hoisted entry is written, and the key is the one
  declared with the entry's value. -/
  sites : ∀ site key, plan.sites.get? site = some key ↔
    ∃ e ∈ literals, e.hoist = true ∧ site ∈ e.sites ∧ (key, e.value) ∈ plan.hoisted
  /-- The keys that stand at sites are the keys that are declared. -/
  used : ∀ key, (∃ site, plan.sites.get? site = some key) ↔ key ∈ plan.hoisted.map Prod.fst

end Planner

/-- A literal table as collecting makes it: one entry for each identity, each written somewhere, and
no two at the same place. -/
structure LiteralTable.Keyed (literals : LiteralTable) : Prop where
  identities : (literals.map fun e => e.value.identity).Nodup
  written : ∀ e ∈ literals, e.sites ≠ []
  apart : literals.Pairwise fun e f => e.sites.Disjoint f.sites

namespace Planner

/-- The keys of distinct values are distinct, since a key stands for one thing. -/
theorem nodup_hoisted_keys {inUse : List String} {p : CompiledProfile} {a : Analysis}
    {plan : ModulePlan} {final : Planner} (hs : Sound inUse final)
    (hagrees : Agrees p a.survey plan final)
    (hvalues : (plan.hoisted.map fun e => e.2.identity).Nodup) :
    (plan.hoisted.map Prod.fst).Nodup := by
  refine List.Nodup.map_on (fun e he f hf hkey => ?_) (List.Nodup.of_map _ hvalues)
  have hmem : ∀ e ∈ plan.hoisted, (Thing.literal e.2.identity, e.1) ∈ final.assigned :=
    fun e he => hagrees.assigned (List.mem_append_right _
      (List.mem_map_of_mem (f := fun e : String × Literal => (Thing.literal e.2.identity, e.1)) he))
  have hthing := (hs.key_eq_iff (hmem e he) (hmem f hf)).1 hkey
  have hid : e.2.identity = f.2.identity := by simpa using hthing
  exact List.inj_on_of_nodup_map hvalues he hf hid

/-- **A plan replaces literals by the keys that it declares**, site by site. -/
theorem places_of_planned {inUse : List String} {p : CompiledProfile} {a : Analysis}
    {plan : ModulePlan} {final : Planner} (hs : Sound inUse final) (h : Planned p final a plan)
    (hkeyed : a.literals.Keyed) : Places a.literals plan := by
  obtain ⟨pairs, hentries, hhoisted, hsites⟩ := h.hoists
  have hsub : (pairs.map Prod.snd).Sublist a.literals := by
    rw [hentries]
    exact List.filter_sublist
  have hvalues : plan.hoisted.map Prod.snd =
      (a.literals.filter LiteralEntry.hoist).map LiteralEntry.value := by
    rw [hhoisted, ← hentries, List.map_map, List.map_map]
    rfl
  have hidentities : (plan.hoisted.map fun e => e.2.identity).Nodup := by
    have := hkeyed.identities.sublist (hsub.map fun e => e.value.identity)
    rw [hhoisted]
    rwa [List.map_map] at this ⊢
  have hapart : pairs.Pairwise fun x y => x.2.sites.Disjoint y.2.sites := by
    have := hkeyed.apart.sublist hsub
    rwa [List.pairwise_map] at this
  have hmem : ∀ {x : String × LiteralEntry}, x ∈ pairs → x.2 ∈ a.literals ∧ x.2.hoist = true := by
    intro x hx
    have := List.mem_map_of_mem (f := Prod.snd) hx
    rw [hentries] at this
    simpa using this
  have hpair : ∀ {x : String × LiteralEntry}, x ∈ pairs → (x.1, x.2.value) ∈ plan.hoisted := by
    intro x hx
    rw [hhoisted]
    exact List.mem_map_of_mem (f := fun x : String × LiteralEntry => (x.1, x.2.value)) hx
  have hplace : ∀ site key, plan.sites.get? site = some key ↔
      ∃ e ∈ a.literals, e.hoist = true ∧ site ∈ e.sites ∧ (key, e.value) ∈ plan.hoisted := by
    intro site key
    rw [hsites]
    constructor
    · intro h
      rcases placed_eq_some h with ⟨x, hx, hsite, rfl⟩ | h
      · exact ⟨x.2, (hmem hx).1, (hmem hx).2, hsite, hpair hx⟩
      · exact absurd h (by simp)
    · rintro ⟨e, he, hhoist, hsite, hkey⟩
      have hein : e ∈ pairs.map Prod.snd := by
        rw [hentries]
        exact List.mem_filter.2 ⟨he, hhoist⟩
      obtain ⟨x, hx, rfl⟩ := List.mem_map.1 hein
      -- The entry is hoisted once, so the key found at it is the key given.
      have heq := List.inj_on_of_nodup_map hidentities (hpair hx) hkey rfl
      rw [placed_eq_of_mem hapart hx hsite, congrArg Prod.fst heq]
  refine ⟨hvalues, nodup_hoisted_keys hs h.agrees hidentities, hplace, fun key => ⟨?_, ?_⟩⟩
  · rintro ⟨site, hsite⟩
    obtain ⟨e, -, -, -, hkey⟩ := (hplace site key).1 hsite
    exact List.mem_map_of_mem (f := Prod.fst) hkey
  · intro hkey
    obtain ⟨⟨k, v⟩, he, rfl⟩ := List.mem_map.1 hkey
    rw [hhoisted] at he
    obtain ⟨x, hx, hxe⟩ := List.mem_map.1 he
    obtain ⟨site, hsite⟩ := List.exists_mem_of_ne_nil _ (hkeyed.written _ (hmem hx).1)
    refine ⟨site, ?_⟩
    rw [hsites, placed_eq_of_mem hapart hx hsite, congrArg Prod.fst hxe]

/-- What the keys of a run are: `analyses` are the modules of the run and `plans` the plans that were
made for `calls`. -/
structure RunKeys (analyses calls : List Analysis) (plans : List ModulePlan) : Prop where
  /-- A key is spelled in no module of the run, is not protected, and is one whole word. -/
  fresh : ∀ plan ∈ plans, ∀ e ∈ plan.assigned, (∀ a ∈ analyses, e.2 ∉ a.survey.namesInUse) ∧
    isProtectedName e.2 = false ∧ Glossary.pieces e.2.toList = [.inl e.2]
  /-- Over all plans, a key stands for one thing and a thing has one key. -/
  unique : ∀ plan ∈ plans, ∀ plan' ∈ plans, ∀ e ∈ plan.assigned, ∀ e' ∈ plan'.assigned,
    e.2 = e'.2 ↔ e.1 = e'.1
  /-- A name that is renamed in several modules has one short name and one category. -/
  shared : ∀ plan ∈ plans, ∀ plan' ∈ plans, ∀ r ∈ plan.renamings, ∀ r' ∈ plan'.renamings,
    r.name = r'.name → r.shortName = r'.shortName ∧ r.category = r'.category
  /-- A plan renames by its renamings. -/
  renames : ∀ plan ∈ plans, ∀ n k, plan.renames.get? n = some k ↔
    ∃ r ∈ plan.renamings, r.name = n ∧ r.shortName = k
  /-- A plan replaces the literals of its module by the keys that it declares. -/
  literals : List.Forall₂ (fun a plan => Places a.literals plan) calls plans

/-- **The keys of a run are fresh and one-to-one**, for every checked profile, every list of modules
and every sequence of calls for a plan, with repetitions and in any order. -/
theorem runKeys_planAll {profile : Profile} {p : CompiledProfile} (hp : profile.compile = .ok p)
    (analyses calls : List Analysis) (hkeyed : ∀ a ∈ calls, a.literals.Keyed) :
    RunKeys analyses calls (planAll p (start analyses) calls) := by
  obtain ⟨final, hgrows, hplans⟩ :=
    planAll_final (Profile.leadsUsable_of_compile hp) calls (sound_start analyses)
  have hs := hgrows.sound
  have hplanned : ∀ plan ∈ planAll p (start analyses) calls, ∃ a, Planned p final a plan := by
    intro plan hplan
    obtain ⟨i, hi, rfl⟩ := List.getElem_of_mem hplan
    exact ⟨_, (List.forall₂_iff_get.1 hplans).2 i (by rwa [hplans.length_eq]) hi⟩
  refine ⟨?_, ?_, ?_, ?_, ?_⟩
  · intro plan hplan e he
    obtain ⟨a, ha⟩ := hplanned plan hplan
    obtain ⟨hfresh, hprot, hpieces⟩ := hs.fresh e.2 (hs.taken e (ha.agrees.assigned he))
    exact ⟨fun b hb hmem => hfresh (List.mem_flatMap.2 ⟨b, hb, hmem⟩), hprot, hpieces⟩
  · intro plan hplan plan' hplan' e he e' he'
    obtain ⟨a, ha⟩ := hplanned plan hplan
    obtain ⟨a', ha'⟩ := hplanned plan' hplan'
    exact hs.key_eq_iff (ha.agrees.assigned he) (ha'.agrees.assigned he')
  · intro plan hplan plan' hplan' r hr r' hr' hname
    obtain ⟨a, ha⟩ := hplanned plan hplan
    obtain ⟨a', ha'⟩ := hplanned plan' hplan'
    rw [hs.renaming_eq (ha.agrees.renamings hr) (ha'.agrees.renamings hr') hname]
    exact ⟨rfl, rfl⟩
  · intro plan hplan
    obtain ⟨a, ha⟩ := hplanned plan hplan
    exact ha.agrees.renames
  · rw [List.forall₂_iff_get] at hplans ⊢
    refine ⟨hplans.1, fun i hi hi' => ?_⟩
    exact places_of_planned hs (hplans.2 i hi hi') (hkeyed _ (List.get_mem _ _))

theorem runKeys_planAll_balanced : ∃ p, Profile.balanced.compile = .ok p ∧
    ∃ a : Analysis, a.literals.Keyed ∧ RunKeys [a] [a, a] (planAll p (start [a]) [a, a]) := by
  obtain ⟨p, hp⟩ := Profile.exists_compile_balanced
  have hkeyed : LiteralTable.Keyed [⟨.string "a", 2, [3, 9], true⟩, ⟨.string "b", 1, [5], true⟩] :=
    ⟨by decide, by decide, by simp⟩
  refine ⟨p, hp, ⟨{ firstRoles := [("count", .declaration)], namesInUse := ["count", "v0"] },
    [⟨.string "a", 2, [3, 9], true⟩, ⟨.string "b", 1, [5], true⟩]⟩, hkeyed, ?_⟩
  exact runKeys_planAll hp _ _ (by simpa using hkeyed)

end Planner

end Abridge
