import Abridge.Proofs.Coverage
import Abridge.Proofs.Scopes

/-!
# No name is captured

Renaming goes by spelling alone, and so does resolution.  A renamed program therefore resolves as the
program did when every scope that declared a name declares its new spelling, and no other scope does.
The scopes of a tree under a plan are the scopes that the tree had, respelled, so this comes down to
the plan being one-to-one on the names of the program (`ModulePlan.Tidy`).

Enumerations are the exception: their scopes keep their names.  A member that is written as a name is
pinned and keeps the others in step.  A member that is written as a text is not seen by the survey, and
a plan may mix it up with a name in two ways: it may rename what was a use of the member, and it may
respell something else as the member.  `Form.respects` says that it does neither, and this is as weak
as it can be: only names count that are looked up in the scope of the enumeration.

## What is here

* `Spot.shift`, `Occurrence.under`: the counterpart of an occurrence.
* `Tree.demands`: what a tree wants of the scopes around it.
* `Tree.respects`: the plan does not mix up members of enumerations that are written as texts.
* `Tree.mem_occurrences_apply`: the occurrences of a tree under a plan are the counterparts of those
  that it had, and what the plan put in the place of literals.
-/

set_option autoImplicit false

namespace Abridge

/-! ## Counterparts -/

/-- The place of a node in a program after statements were put before it. -/
def Spot.shift (count : Nat) : Spot → Spot
  | [] => []
  | [i] => [i + count]
  | i :: j :: spot => i :: Spot.shift count (j :: spot)

theorem Spot.shift_cons (count i : Nat) {spot : Spot} (h : spot ≠ []) :
    Spot.shift count (i :: spot) = i :: Spot.shift count spot := by
  cases spot with
  | nil => exact absurd rfl h
  | cons j spot => rfl

theorem Spot.shift_injective (count : Nat) : Function.Injective (Spot.shift count)
  | [], [], _ => rfl
  | [], [_], h => by cases h
  | [], _ :: _ :: _, h => by cases h
  | [_], [], h => by cases h
  | [i], [j], h => by
    have hij : i + count = j + count := List.head_eq_of_cons_eq h
    rw [Nat.add_right_cancel hij]
  | [_], _ :: j :: spot, h => by cases spot <;> cases h
  | _ :: _ :: _, [], h => by cases h
  | _ :: j :: spot, [_], h => by cases spot <;> cases h
  | i :: j :: spot, i' :: j' :: spot', h => by
    have hhead : i = i' := List.head_eq_of_cons_eq h
    have htail := Spot.shift_injective count (List.tail_eq_of_cons_eq h)
    rw [hhead, htail]

/-- The counterpart of an occurrence under a plan, after statements were put before the program. -/
def Occurrence.under (plan : ModulePlan) (count : Nat) (o : Occurrence) : Occurrence :=
  { place := Spot.shift count o.place
    name := plan.rename o.name
    introduces := o.introduces
    scope := o.scope.map (Spot.shift count) }

/-! ## Lookup -/

/-- Whether one of the names answers a use. -/
def answers (names : List Declared) (n : String) (use : Use) : Bool :=
  names.any fun d => d.1 == n && d.2.supports use

theorem answers_iff {names : List Declared} {n : String} {use : Use} :
    answers names n use = true ↔ ∃ d ∈ names, d.1 = n ∧ d.2.supports use = true := by
  simp [answers]

theorem Env.find?_cons (scope : Spot) (names : List Declared) (env : Env) (n : String) (use : Use) :
    Env.find? (⟨scope, names⟩ :: env) n use =
      if answers names n use then some scope else env.find? n use := by
  unfold Env.find?
  by_cases h : answers names n use = true
  · have hfind := List.find?_cons_of_pos (p := fun frame : Frame => frame.declares n use)
      (a := ⟨scope, names⟩) (l := env) h
    rw [hfind, if_pos h]
    rfl
  · have hfind := List.find?_cons_of_neg (p := fun frame : Frame => frame.declares n use)
      (a := ⟨scope, names⟩) (l := env) h
    rw [hfind, if_neg h]

theorem Env.find?_inside (env : Env) (f : Form) (ps : List Tree) (spot : Spot) (i : Nat) (n : String)
    (use : Use) : (env.inside f ps spot i).find? n use =
      if answers (scopeNames f ps i) n use then some spot
      else if answers (ownName f ps) n use then some (0 :: spot) else env.find? n use := by
  unfold Env.inside scopeNames
  dsimp only
  cases scopeOf f ps i with
  | none =>
    cases ownName f ps with
    | nil => rfl
    | cons own names => exact Env.find?_cons _ _ _ _ _
  | some names =>
    dsimp only [Option.getD_some]
    rw [Env.find?_cons]
    cases ownName f ps with
    | nil => rfl
    | cons own names => exact congrArg (ite _ _) (Env.find?_cons _ _ _ _ _)

/-- A name is declared under a plan where it was declared before. -/
theorem Reads.answers_eq {plan : ModulePlan} {before after : List Declared} {names : List String}
    (h : Reads plan before after names) {n : String}
    (hinj : ∀ m ∈ names, plan.rename m = plan.rename n → m = n) (use : Use) :
    answers after (plan.rename n) use = answers before n use := by
  rw [Bool.eq_iff_iff, answers_iff, answers_iff, h.eq]
  constructor
  · rintro ⟨d', hd', hname, hsupports⟩
    obtain ⟨d, hd, rfl⟩ := List.mem_map.1 hd'
    exact ⟨d, hd, hinj _ (h.mem d hd) hname, hsupports⟩
  · rintro ⟨d, hd, rfl, hsupports⟩
    exact ⟨_, List.mem_map_of_mem hd, rfl, hsupports⟩

/-- What no name is respelled as is not declared under a plan. -/
theorem Reads.answers_eq_false {plan : ModulePlan} {before after : List Declared} {names : List String}
    (h : Reads plan before after names) {key : String} (hkey : ∀ m ∈ names, plan.rename m ≠ key)
    (use : Use) : answers after key use = false := by
  rw [Bool.eq_false_iff, Ne, answers_iff, h.eq]
  rintro ⟨d', hd', hname, -⟩
  obtain ⟨d, hd, rfl⟩ := List.mem_map.1 hd'
  exact hkey _ (h.mem d hd) hname

/-! ## What a tree wants of the scopes around it -/

namespace Tree

mutual

/-- The names that are looked up outside a tree, each with its use. -/
def demands (use : Use) : Tree → List (String × Use)
  | .binding n => [(n, .any)]
  | .reference n => [(n, use)]
  | .node f ps => demandsOf f ps use 0 ps
  | _ => []

/-- The names that are looked up outside a node from its parts from a position on. -/
def demandsOf (f : Form) (all : List Tree) (use : Use) (i : Nat) : List Tree → List (String × Use)
  | [] => []
  | t :: ts =>
    (t.demands (useOf use f i)).filter
        (fun d => ((Env.inside [] f all [] i).find? d.1 d.2).isNone) ++
      demandsOf f all use (i + 1) ts

end

mutual

/-- The keys that a plan puts in the place of literals of a tree. -/
def keys (plan : ModulePlan) : Tree → List String
  | .string lit => (plan.sites.get? lit.start).toList
  | .number lit => (plan.sites.get? lit.start).toList
  | .node _ ps => keysOf plan ps
  | _ => []

/-- The keys that a plan puts in the place of literals of trees. -/
def keysOf (plan : ModulePlan) : List Tree → List String
  | [] => []
  | t :: ts => t.keys plan ++ keysOf plan ts

end

/-- The members of an enumeration that are written as texts. -/
def quotedMembers (members : List Tree) : List String :=
  members.filterMap fun
    | .node (.enumMember _) (.quoted lit :: _) => some lit.value
    | _ => none

mutual

theorem mem_leafNames_of_mem_demands {d : String × Use} :
    ∀ {t : Tree} {use : Use}, d ∈ t.demands use → d.1 ∈ t.leafNames
  | .node f ps, _, h => mem_leafNamesOf_of_mem_demandsOf h
  | .binding _, _, h => by rw [List.mem_singleton.1 h]; exact List.mem_singleton.2 rfl
  | .reference _, _, h => by rw [List.mem_singleton.1 h]; exact List.mem_singleton.2 rfl
  | .absent, _, h | .name _, _, h | .markupName _, _, h | .label _, _, h | .privateName _, _, h
  | .quoted _, _, h | .string _, _, h | .number _, _, h => absurd h List.not_mem_nil

theorem mem_leafNamesOf_of_mem_demandsOf {d : String × Use} {f : Form} {all : List Tree} {use : Use} :
    ∀ {i : Nat} {ts : List Tree}, d ∈ demandsOf f all use i ts → d.1 ∈ leafNamesOf ts
  | _, [], h => absurd h List.not_mem_nil
  | _, t :: ts, h => by
    rcases List.mem_append.1 h with h | h
    · exact List.mem_append_left _ (mem_leafNames_of_mem_demands (List.mem_filter.1 h).1)
    · exact List.mem_append_right _ (mem_leafNamesOf_of_mem_demandsOf h)

end

mutual

theorem exists_site_of_mem_keys {plan : ModulePlan} {key : String} :
    ∀ {t : Tree}, key ∈ t.keys plan → ∃ site, plan.sites.get? site = some key
  | .node _ _, h => exists_site_of_mem_keysOf h
  | .string lit, h => ⟨lit.start, Option.mem_toList.1 h⟩
  | .number lit, h => ⟨lit.start, Option.mem_toList.1 h⟩
  | .binding _, h | .reference _, h | .absent, h | .name _, h | .markupName _, h | .label _, h
  | .privateName _, h | .quoted _, h => absurd h List.not_mem_nil

theorem exists_site_of_mem_keysOf {plan : ModulePlan} {key : String} :
    ∀ {ts : List Tree}, key ∈ keysOf plan ts → ∃ site, plan.sites.get? site = some key
  | [], h => absurd h List.not_mem_nil
  | _ :: _, h => (List.mem_append.1 h).elim exists_site_of_mem_keys exists_site_of_mem_keysOf

end

end Tree

/-! ## Plans that respect members -/

/-- A plan does not mix up the members of an enumeration that are written as texts with the names that
are looked up among them, and it replaces no literal that stands for a type. -/
def Form.respects (plan : ModulePlan) : Form → List Tree → Bool
  | .enum _ _, [_, .node .group ms] =>
    (Tree.demandsOf .group ms .value 0 ms).all
        (fun d => (Tree.quotedMembers ms).contains d.1 ==
          (Tree.quotedMembers ms).contains (plan.rename d.1)) &&
      (Tree.keysOf plan ms).all fun key => !(Tree.memberNames ms).contains key
  | .heritage, t :: _ => !t.isLiteral || (t.keys plan).isEmpty
  | _, _ => true

namespace Tree

mutual

/-- A plan respects every form in a tree. -/
def respects (plan : ModulePlan) : Tree → Bool
  | .node f ps => f.respects plan ps && respectsAll plan ps
  | _ => true

/-- A plan respects every form in trees. -/
def respectsAll (plan : ModulePlan) : List Tree → Bool
  | [] => true
  | t :: ts => t.respects plan && respectsAll plan ts

end

end Tree

/-- Under a plan the scopes of a form answer as they did. -/
structure Form.Steady (plan : ModulePlan) (f : Form) (ps : List Tree) : Prop where
  names : ∀ i t use, ps[i]? = some t → ∀ d ∈ t.demands (useOf use f i),
    answers (scopeNames f (Tree.applyAll plan ps) i) (plan.rename d.1) d.2 =
      answers (scopeNames f ps i) d.1 d.2
  keys : ∀ i t, ps[i]? = some t → ∀ key ∈ t.keys plan, ∀ use,
    answers (scopeNames f (Tree.applyAll plan ps) i) key use = false
  literals : ∀ i t use, ps[i]? = some t → t.isLiteral = true → t.keys plan ≠ [] →
    Nature.value.supports (useOf use f i) = true

namespace Tree

mutual

/-- Under a plan all scopes of a tree answer as they did. -/
def Steady (plan : ModulePlan) : Tree → Prop
  | .node f ps => f.Steady plan ps ∧ AllSteady plan ps
  | _ => True

/-- Under a plan all scopes of trees answer as they did. -/
def AllSteady (plan : ModulePlan) : List Tree → Prop
  | [] => True
  | t :: ts => t.Steady plan ∧ AllSteady plan ts

end

end Tree

/-- A plan does not write two names alike, nor a name like the key of a literal. -/
structure ModulePlan.Tidy (plan : ModulePlan) (names : List String) : Prop where
  inj : ∀ m ∈ names, ∀ n ∈ names, plan.rename m = plan.rename n → m = n
  fresh : ∀ site key, plan.sites.get? site = some key → ∀ n ∈ names, plan.rename n ≠ key

theorem answers_enum_iff {c a : Bool} {ps : List Tree} {i : Nat} {n : String} {use : Use} :
    answers (scopeNames (.enum c a) ps i) n use = true ↔
      ∃ name ms, ps = [name, .node .group ms] ∧ i ≠ 0 ∧ n ∈ Tree.memberNames ms := by
  rw [answers_iff]
  constructor
  · rintro ⟨d, hd, rfl, -⟩
    obtain ⟨name, ms, hps, hi, -, hm⟩ := mem_scopeNames_enum.1 hd
    exact ⟨name, ms, hps, hi, hm⟩
  · rintro ⟨name, ms, hps, hi, hm⟩
    refine ⟨(n, .both), mem_scopeNames_enum.2 ⟨name, ms, hps, hi, rfl, hm⟩, rfl, ?_⟩
    cases use <;> rfl

theorem answers_enum_applyAll {plan : ModulePlan} {c a : Bool} {ps : List Tree} {i : Nat} {n : String}
    {use : Use} : answers (scopeNames (.enum c a) (Tree.applyAll plan ps) i) n use =
      answers (scopeNames (.enum c a) ps i) n use := by
  rw [Bool.eq_iff_iff, answers_iff, answers_iff]
  simp only [mem_scopeNames_enum_applyAll]

namespace Tree

/-- A member of an enumeration that is written as a name. -/
def IsPlainMember (ms : List Tree) (n : String) : Prop :=
  ∃ c ts, Tree.node (.enumMember c) (.name n :: ts) ∈ ms

theorem mem_memberNames_iff {ms : List Tree} {n : String} :
    n ∈ memberNames ms ↔ n ∈ quotedMembers ms ∨ IsPlainMember ms n := by
  rw [mem_memberNames]
  constructor
  · rintro ⟨m, hm, (_ | _)⟩
    · exact .inr ⟨_, _, hm⟩
    · exact .inl (List.mem_filterMap.2 ⟨_, hm, rfl⟩)
  · rintro (h | ⟨c, ts, hm⟩)
    · obtain ⟨m, hm, hn⟩ := List.mem_filterMap.1 h
      split at hn
      · cases hn
        exact ⟨_, hm, .quoted _ _ _⟩
      · cases hn
    · exact ⟨_, hm, .name _ _ _⟩

end Tree

theorem eq_of_getElem?_pair {t u v : Tree} {i : Nat} (hi : i ≠ 0) (ht : [u, v][i]? = some t) :
    i = 1 ∧ t = v := by
  match i, hi, ht with
  | 1, _, ht => exact ⟨rfl, (Option.some_inj.1 ht).symm⟩

namespace Form

variable {plan : ModulePlan} {names : List String} {f : Form} {ps : List Tree}

theorem useOf_supports (hfits : f.Fits ps) (hrespects : f.respects plan ps = true) {i : Nat} {t : Tree}
    (use : Use) (ht : ps[i]? = some t) (hlit : t.isLiteral = true) (hkeys : t.keys plan ≠ []) :
    Nature.value.supports (useOf use f i) = true := by
  have hhead : i = 0 → ps.head? = some t := fun hi => by rw [← ht, hi, List.head?_eq_getElem?]
  unfold useOf
  split
  · exact absurd (hlit.symm.trans (hfits t (hhead rfl))) (by decide)
  · cases ps with
    | nil => cases ht
    | cons u ps =>
      cases ht
      simp [respects, hlit, hkeys] at hrespects
  · rfl
  · exact absurd (hlit.symm.trans (hfits t (hhead rfl))) (by decide)
  all_goals rfl

/-- **A form that is no enumeration** answers as it did, because its names are respelled. -/
theorem steady_of_ne_enum (htidy : plan.Tidy names) (hps : Tree.leafNamesOf ps ⊆ names)
    (hfits : f.Fits ps) (hrespects : f.respects plan ps = true) (hf : ∀ c a, f ≠ .enum c a) :
    f.Steady plan ps := by
  have hpart : ∀ {i : Nat} {t : Tree} {n : String}, ps[i]? = some t → n ∈ t.leafNames → n ∈ names :=
    fun ht hn => hps (Tree.mem_leafNamesOf.2 ⟨_, List.mem_of_getElem? ht, hn⟩)
  constructor
  · intro i t use ht d hd
    have hd' := hpart ht (Tree.mem_leafNames_of_mem_demands hd)
    exact (reads_scopeNames plan hf ps i).answers_eq (fun m hm => htidy.inj m (hps hm) _ hd') d.2
  · intro i t ht key hkey use
    obtain ⟨site, hsite⟩ := Tree.exists_site_of_mem_keys hkey
    exact (reads_scopeNames plan hf ps i).answers_eq_false
      (fun m hm => htidy.fresh site key hsite m (hps hm)) use
  · exact fun i t use ht => useOf_supports hfits hrespects use ht

/-- **An enumeration** answers as it did, because its members keep their names and no other name is
written like one of them. -/
theorem steady_enum {c a : Bool} (hrespects : (Form.enum c a).respects plan ps = true)
    (hplain : ∀ name ms, ps = [name, .node .group ms] → ∀ m, Tree.IsPlainMember ms m →
      ∀ n ∈ Tree.leafNamesOf ms, plan.rename n = m ↔ n = m) : (Form.enum c a).Steady plan ps := by
  constructor
  · intro i t use ht d hd
    rw [answers_enum_applyAll, Bool.eq_iff_iff, answers_enum_iff, answers_enum_iff]
    refine exists_congr fun name => exists_congr fun ms => and_congr_right ?_
    rintro rfl
    refine and_congr_right fun hi => ?_
    -- The part can only be the group of members.
    obtain ⟨rfl, rfl⟩ := eq_of_getElem?_pair hi ht
    have hd' : d ∈ Tree.demandsOf .group ms .value 0 ms := hd
    simp only [respects, Bool.and_eq_true, List.all_eq_true] at hrespects
    have hquoted := hrespects.1 d hd'
    rw [beq_iff_eq, Bool.eq_iff_iff, List.contains_iff_mem, List.contains_iff_mem] at hquoted
    rw [Tree.mem_memberNames_iff, Tree.mem_memberNames_iff, ← hquoted]
    refine or_congr_right ?_
    have hleaf := Tree.mem_leafNamesOf_of_mem_demandsOf hd'
    constructor
    · intro h
      exact ((hplain name ms rfl _ h d.1 hleaf).1 rfl) ▸ h
    · intro h
      exact ((hplain name ms rfl _ h d.1 hleaf).2 rfl).symm ▸ h
  · intro i t ht key hkey use
    rw [answers_enum_applyAll, Bool.eq_false_iff, Ne, answers_enum_iff]
    rintro ⟨name, ms, rfl, hi, hm⟩
    obtain ⟨rfl, rfl⟩ := eq_of_getElem?_pair hi ht
    simp only [respects, Bool.and_eq_true, List.all_eq_true] at hrespects
    have hkey' := hrespects.2 key hkey
    simp [hm] at hkey'
  · intro i t use _ _ _
    rfl

end Form

/-! ## What the survey promises -/

/-- What was seen of a tree holds for a plan: names that are pinned are kept, and names that are spelled
are among those given. -/
structure Watched (plan : ModulePlan) (names : List String) (sightings : List Sighting) : Prop where
  pinned : ∀ n, .pinned n ∈ sightings → plan.rename n = n
  spelled : ∀ n ∈ Survey.spellingsOf sightings, n ∈ names

theorem Watched.mono {plan : ModulePlan} {names : List String} {seen seen' : List Sighting}
    (h : Watched plan names seen) (hsub : seen' ⊆ seen) : Watched plan names seen' := by
  refine ⟨fun n hn => h.pinned n (hsub hn), fun n hn => h.spelled n ?_⟩
  obtain ⟨x, hx, hn⟩ := List.mem_filterMap.1 hn
  exact List.mem_filterMap.2 ⟨x, hsub hx, hn⟩

namespace Tree

theorem sightings_subset_sightingsOf {f : Form} {params : Bool} {t : Tree} :
    ∀ {ts : List Tree} {i j : Nat}, ts[j]? = some t → isSurveyed f (i + j) = true →
      t.sightings (inParameters params f (i + j)) ⊆ sightingsOf f params i ts
  | [], _, _, ht, _ => by cases ht
  | u :: ts, i, 0, ht, hs => by
    cases ht
    rw [Nat.add_zero] at hs ⊢
    rw [sightingsOf, if_pos hs]
    exact List.subset_append_left _ _
  | u :: ts, i, j + 1, ht, hs => by
    rw [List.getElem?_cons_succ] at ht
    rw [← Nat.succ_add_eq_add_succ] at hs ⊢
    rw [sightingsOf]
    exact fun x hx => List.mem_append_right _ (sightings_subset_sightingsOf ht hs hx)

/-- What is seen of a part that the survey walks is seen of the node. -/
theorem sightings_subset_node {f : Form} {ps : List Tree} {params : Bool} {i : Nat} {t : Tree}
    (ht : ps[i]? = some t) (hs : isSurveyed f i = true) :
    t.sightings (inParameters params f i) ⊆ (Tree.node f ps).sightings params := by
  have hsub : t.sightings (inParameters params f (0 + i)) ⊆ sightingsOf f params 0 ps :=
    sightings_subset_sightingsOf ht (by rwa [Nat.zero_add])
  rw [Nat.zero_add] at hsub
  rw [sightings]
  exact fun x hx => List.mem_append_left _ (List.mem_append_right _ (hsub hx))

/-- What was seen of a node was seen of the parts that the survey walks. -/
theorem watched_part {plan : ModulePlan} {names : List String} {f : Form} {ps : List Tree}
    {params : Bool} (h : Watched plan names ((Tree.node f ps).sightings params)) {i : Nat} {t : Tree}
    (ht : ps[i]? = some t) (hs : isSurveyed f i = true) :
    Watched plan names (t.sightings (inParameters params f i)) :=
  h.mono (sightings_subset_node ht hs)

/-- Either what was seen of a tree holds for a plan, or the plan keeps all names in it. -/
def Minded (plan : ModulePlan) (names : List String) (t : Tree) : Prop :=
  (∃ params, Watched plan names (t.sightings params)) ∨ ∀ n ∈ t.leafNames, plan.rename n = n

/-- A plan that minds a node minds its parts.  The parts that the survey leaves out hold no names but
those that it pins for them. -/
theorem Minded.part {plan : ModulePlan} {names : List String} {f : Form} {ps : List Tree}
    (h : Minded plan names (.node f ps)) (hfits : f.Fits ps) {i : Nat} {t : Tree}
    (ht : ps[i]? = some t) : Minded plan names t := by
  rcases h with ⟨params, h⟩ | h
  · by_cases hs : isSurveyed f i = true
    · exact .inl ⟨_, watched_part h ht hs⟩
    · right
      intro n hn
      have hleaf : n ∈ leafNamesOf ps := mem_leafNamesOf.2 ⟨t, List.mem_of_getElem? ht, hn⟩
      have hpin : ∀ role ns, sightingsBefore f ps = Sighting.pinAll role ns → n ∈ ns →
          plan.rename n = n := by
        intro role ns hbefore hns
        refine h.pinned n ?_
        rw [sightings, hbefore]
        refine List.mem_append_left _ (List.mem_append_left _ (List.mem_flatMap.2 ⟨n, hns, ?_⟩))
        exact List.mem_cons_of_mem _ (List.mem_singleton.2 rfl)
      cases f with
      | «import» typeOnly phase => exact hpin _ _ rfl (hfits.1 n hleaf)
      | exportSpecifier typeOnly =>
        obtain ⟨l, e, rfl, hl, he, -⟩ := hfits
        refine hpin _ _ rfl (hl n ?_)
        simpa [leafNamesOf, he] using hleaf
      | property info =>
        cases hshort : info.shorthand with
        | false => exact absurd (by simp [isSurveyed, hshort]) hs
        | true =>
          rw [Form.Fits, hshort] at hfits
          obtain ⟨k, v, rfl, -⟩ := hfits
          cases i with
          | zero =>
            cases ht
            exact absurd hn List.not_mem_nil
          | succ i => exact absurd (by simp [isSurveyed]) hs
      | bindingProperty shorthand computed =>
        cases shorthand with
        | false => exact absurd (by simp [isSurveyed]) hs
        | true =>
          obtain ⟨k, v, rfl, -⟩ := hfits
          cases i with
          | zero =>
            cases ht
            exact absurd hn List.not_mem_nil
          | succ i => exact absurd (by simp [isSurveyed]) hs
      | _ => exact absurd rfl hs
  · exact .inr fun n hn => h n (mem_leafNamesOf.2 ⟨t, List.mem_of_getElem? ht, hn⟩)

/-- A plan that minds an enumeration keeps its plain members apart from all other names. -/
theorem Minded.plain {plan : ModulePlan} {names : List String} (htidy : plan.Tidy names) {c a : Bool}
    {name : Tree} {ms : List Tree} (h : Minded plan names (.node (.enum c a) [name, .node .group ms]))
    (hshaped : AllShaped ms) (hnames : leafNamesOf ms ⊆ names) {m : String} (hm : IsPlainMember ms m)
    {n : String} (hn : n ∈ leafNamesOf ms) : plan.rename n = m ↔ n = m := by
  rcases h with ⟨params, h⟩ | h
  · obtain ⟨computed, ts, hmember⟩ := hm
    obtain ⟨i, hi⟩ := List.getElem?_of_mem hmember
    have hgroup := watched_part h (i := 1) rfl rfl
    have hwatched := watched_part hgroup hi rfl
    have hcomputed : computed = false := by
      cases computed with
      | false => rfl
      | true => exact absurd rfl ((allShaped_iff.1 hshaped _ hmember).1 m)
    subst hcomputed
    have hkept : plan.rename m = m :=
      hwatched.pinned m (List.mem_append_right _ (List.mem_singleton.2 rfl))
    have hspelled : m ∈ names := hwatched.spelled m (List.mem_filterMap.2 ⟨.seen m .memberProperty,
      List.mem_append_left _ (List.mem_append_right _ (List.mem_append_left _ List.mem_cons_self)), rfl⟩)
    constructor
    · intro hrename
      exact htidy.inj n (hnames hn) m hspelled (hrename.trans hkept.symm)
    · rintro rfl
      exact hkept
  · have hkept := h n (by simp [leafNames, leafNamesOf, hn])
    rw [hkept]

theorem allSteady_iff {plan : ModulePlan} {ts : List Tree} :
    AllSteady plan ts ↔ ∀ t ∈ ts, t.Steady plan := by
  induction ts with
  | nil => simp [AllSteady]
  | cons t ts ih => simp [AllSteady, ih]

theorem respectsAll_iff {plan : ModulePlan} {ts : List Tree} :
    respectsAll plan ts = true ↔ ∀ t ∈ ts, t.respects plan = true := by
  induction ts with
  | nil => simp [respectsAll]
  | cons t ts ih => simp [respectsAll, ih]

/-- **All scopes of a tree answer as they did**, under a plan that respects it. -/
theorem steady_of_respects {plan : ModulePlan} {names : List String} (htidy : plan.Tidy names) :
    ∀ {t : Tree}, t.Shaped → t.leafNames ⊆ names → t.respects plan = true → Minded plan names t →
      t.Steady plan
  | .node f ps, hshaped, hnames, hrespects, hminded => by
    obtain ⟨hform, hparts⟩ := Bool.and_eq_true_iff.1 hrespects
    obtain ⟨hfits, hps⟩ := hshaped
    refine ⟨?_, allSteady_iff.2 fun t ht => ?_⟩
    · by_cases hf : ∀ c a, f ≠ .enum c a
      · exact Form.steady_of_ne_enum htidy hnames hfits hform hf
      · cases f with
        | enum c a =>
          refine Form.steady_enum hform ?_
          rintro name ms rfl m hm n hn
          have hsub : leafNamesOf ms ⊆ names :=
            fun n hn => hnames (by simp [leafNames, leafNamesOf, hn])
          exact hminded.plain htidy hps.2.1.2 hsub hm hn
        | _ => exact absurd (fun _ _ h => by cases h) hf
    · obtain ⟨i, hi⟩ := List.getElem?_of_mem ht
      have : sizeOf t < sizeOf ps := List.sizeOf_lt_of_mem ht
      exact steady_of_respects htidy (allShaped_iff.1 hps t ht)
        (fun n hn => hnames (mem_leafNamesOf.2 ⟨t, ht, hn⟩)) (respectsAll_iff.1 hparts t ht)
        (hminded.part hfits hi)
  | .binding _, _, _, _, _ | .reference _, _, _, _, _ | .absent, _, _, _, _ | .name _, _, _, _, _
  | .markupName _, _, _, _, _ | .label _, _, _, _, _ | .privateName _, _, _, _, _
  | .string _, _, _, _, _ | .number _, _, _, _, _ | .quoted _, _, _, _, _ => trivial
termination_by t => sizeOf t

end Tree

/-! ## Occurrences under a plan -/

namespace Tree

mutual

/-- The literals of a tree that stands at a place, each with its own place and its offset. -/
def literalPlaces (spot : Spot) : Tree → List (Spot × Nat)
  | .string lit => [(spot, lit.start)]
  | .number lit => [(spot, lit.start)]
  | .node _ ps => literalPlacesOf spot 0 ps
  | _ => []

/-- The literals in the parts of a node from a position on. -/
def literalPlacesOf (spot : Spot) (i : Nat) : List Tree → List (Spot × Nat)
  | [] => []
  | t :: ts => t.literalPlaces (i :: spot) ++ literalPlacesOf spot (i + 1) ts

end

end Tree

/-- An occurrence that a plan put in the place of one of the literals given. -/
def Occurrence.Replaces (plan : ModulePlan) (count : Nat) (literals : List (Spot × Nat))
    (o : Occurrence) : Prop :=
  ∃ x ∈ literals, ∃ key, plan.sites.get? x.2 = some key ∧ o = ⟨Spot.shift count x.1, key, false, some []⟩

/-- The scopes around a place before and after a plan is applied answer alike what is wanted of them, and
those after it know the keys as names of the whole program. -/
structure Env.Follows (plan : ModulePlan) (count : Nat) (env env' : Env)
    (demands : List (String × Use)) (keys : List String) : Prop where
  names : ∀ d ∈ demands,
    env'.find? (plan.rename d.1) d.2 = (env.find? d.1 d.2).map (Spot.shift count)
  keys : ∀ key ∈ keys, ∀ use, Nature.value.supports use = true → env'.find? key use = some []

theorem Env.Follows.mono {plan : ModulePlan} {count : Nat} {env env' : Env}
    {demands demands' : List (String × Use)} {keys keys' : List String}
    (h : Env.Follows plan count env env' demands keys) (hd : demands' ⊆ demands)
    (hk : keys' ⊆ keys) : Env.Follows plan count env env' demands' keys' :=
  ⟨fun d hd' => h.names d (hd hd'), fun key hkey => h.keys key (hk hkey)⟩

/-- **One step into a node**: the scopes around its parts answer alike when those around it do. -/
theorem Env.Follows.inside {plan : ModulePlan} {names : List String} (htidy : plan.Tidy names)
    {count : Nat} {env env' : Env} {f : Form} {ps : List Tree} (hsteady : f.Steady plan ps)
    (hps : Tree.leafNamesOf ps ⊆ names) {use : Use} {i : Nat} {t : Tree} (ht : ps[i]? = some t)
    {ts : List Tree} {spot : Spot} (hspot : spot ≠ [])
    (h : Env.Follows plan count env env' (Tree.demandsOf f ps use i (t :: ts)) (t.keys plan)) :
    Env.Follows plan count (env.inside f ps spot i)
      (env'.inside (f.settle (Tree.applyAll plan ps)) (Tree.applyAll plan ps) (Spot.shift count spot) i)
      (t.demands (useOf use f i)) (t.keys plan) := by
  constructor
  · intro d hd
    have hd' : d.1 ∈ names := hps (Tree.mem_leafNamesOf.2
      ⟨t, List.mem_of_getElem? ht, Tree.mem_leafNames_of_mem_demands hd⟩)
    have hown := (reads_ownName plan f ps).answers_eq (fun m hm => htidy.inj m (hps hm) _ hd') d.2
    rw [Env.find?_inside, Env.find?_inside, scopeNames_settle, ownName_settle,
      hsteady.names i t use ht d hd, hown]
    by_cases hscope : answers (scopeNames f ps i) d.1 d.2 = true
    · rw [if_pos hscope, if_pos hscope]
      rfl
    · rw [if_neg hscope, if_neg hscope]
      by_cases hown' : answers (ownName f ps) d.1 d.2 = true
      · rw [if_pos hown', if_pos hown', Option.map_some, Spot.shift_cons count 0 hspot]
      · rw [if_neg hown', if_neg hown']
        refine h.names d (List.mem_append_left _ (List.mem_filter.2 ⟨hd, ?_⟩))
        rw [Env.find?_inside, if_neg hscope, if_neg hown']
        rfl
  · intro key hkey use hsupports
    obtain ⟨site, hsite⟩ := Tree.exists_site_of_mem_keys hkey
    have hown := (reads_ownName plan f ps).answers_eq_false
      (fun m hm => htidy.fresh site key hsite m (hps hm)) use
    rw [Env.find?_inside, scopeNames_settle, ownName_settle, hsteady.keys i t ht key hkey use, hown]
    exact h.keys key hkey use hsupports

namespace Tree

/-- What stands in the place of a literal. -/
theorem mem_occurrences_replace {plan : ModulePlan} {count : Nat} {o : Occurrence} {env' : Env}
    {use : Use} {spot : Spot} {site : Nat} {t : Tree}
    (hnone : t.occurrences env' use (Spot.shift count spot) = [])
    (hkeys : ∀ key, plan.sites.get? site = some key → env'.find? key use = some []) :
    o ∈ (plan.replace site t).occurrences env' use (Spot.shift count spot) ↔
      o.Replaces plan count [(spot, site)] := by
  unfold ModulePlan.replace Occurrence.Replaces
  simp only [List.mem_singleton, exists_eq_left]
  cases hsite : plan.sites.get? site with
  | none => simp [hnone]
  | some key =>
    rw [occurrences, hkeys key hsite]
    simp

mutual

/-- **The occurrences of a tree under a plan** are the counterparts of those that it had, and the
references that the plan put in the place of literals. -/
theorem mem_occurrences_apply {plan : ModulePlan} {names : List String} (htidy : plan.Tidy names)
    {count : Nat} {o : Occurrence} :
    ∀ {t : Tree} {env env' : Env} {use : Use} {spot : Spot}, spot ≠ [] → t.Steady plan →
      t.leafNames ⊆ names → Env.Follows plan count env env' (t.demands use) (t.keys plan) →
      (t.isLiteral = true → t.keys plan ≠ [] → Nature.value.supports use = true) →
      (o ∈ (t.apply plan).occurrences env' use (Spot.shift count spot) ↔
        (∃ o' ∈ t.occurrences env use spot, o = o'.under plan count) ∨
          o.Replaces plan count (t.literalPlaces spot))
  | .node f ps, env, env', use, spot, hspot, hsteady, hnames, hfollows, _ =>
    mem_occurrencesOf_applyAll htidy hsteady.1 hnames hspot (List.drop_zero) hsteady.2 hfollows
  | .binding n, env, env', use, spot, _, _, _, hfollows, _ => by
    have hfind := hfollows.names (n, .any) (List.mem_singleton.2 rfl)
    simp [apply, occurrences, literalPlaces, Occurrence.Replaces, Occurrence.under, hfind]
  | .reference n, env, env', use, spot, _, _, _, hfollows, _ => by
    have hfind := hfollows.names (n, use) (List.mem_singleton.2 rfl)
    simp [apply, occurrences, literalPlaces, Occurrence.Replaces, Occurrence.under, hfind]
  | .string lit, env, env', use, spot, _, _, _, hfollows, huse => by
    refine (mem_occurrences_replace rfl fun key hkey => ?_).trans
      (or_iff_right fun ⟨_, ho', _⟩ => absurd ho' List.not_mem_nil).symm
    have hmem : key ∈ (Tree.string lit).keys plan := Option.mem_toList.2 hkey
    exact hfollows.keys key hmem use (huse rfl (List.ne_nil_of_mem hmem))
  | .number lit, env, env', use, spot, _, _, _, hfollows, huse => by
    refine (mem_occurrences_replace rfl fun key hkey => ?_).trans
      (or_iff_right fun ⟨_, ho', _⟩ => absurd ho' List.not_mem_nil).symm
    have hmem : key ∈ (Tree.number lit).keys plan := Option.mem_toList.2 hkey
    exact hfollows.keys key hmem use (huse rfl (List.ne_nil_of_mem hmem))
  | .absent, _, _, _, _, _, _, _, _, _ | .name _, _, _, _, _, _, _, _, _, _
  | .markupName _, _, _, _, _, _, _, _, _, _ | .label _, _, _, _, _, _, _, _, _, _
  | .privateName _, _, _, _, _, _, _, _, _, _ | .quoted _, _, _, _, _, _, _, _, _, _ => by
    simp [apply, occurrences, literalPlaces, Occurrence.Replaces]

theorem mem_occurrencesOf_applyAll {plan : ModulePlan} {names : List String} (htidy : plan.Tidy names)
    {count : Nat} {o : Occurrence} {f : Form} {all : List Tree} (hform : f.Steady plan all)
    (hall : leafNamesOf all ⊆ names) {env env' : Env} {use : Use} {spot : Spot} (hspot : spot ≠ []) :
    ∀ {ts : List Tree} {i : Nat}, all.drop i = ts → AllSteady plan ts →
      Env.Follows plan count env env' (demandsOf f all use i ts) (keysOf plan ts) →
      (o ∈ occurrencesOf (f.settle (applyAll plan all)) (applyAll plan all) env' use
          (Spot.shift count spot) i (applyAll plan ts) ↔
        (∃ o' ∈ occurrencesOf f all env use spot i ts, o = o'.under plan count) ∨
          o.Replaces plan count (literalPlacesOf spot i ts))
  | [], i, _, _, _ => by simp [occurrencesOf, literalPlacesOf, Occurrence.Replaces]
  | t :: ts, i, hdrop, hsteady, hfollows => by
    have ht : all[i]? = some t := by rw [← List.head?_drop, hdrop, List.head?_cons]
    have hdrop' : all.drop (i + 1) = ts := by rw [← List.tail_drop, hdrop, List.tail_cons]
    have hnames : t.leafNames ⊆ names :=
      fun n hn => hall (mem_leafNamesOf.2 ⟨t, List.mem_of_getElem? ht, hn⟩)
    have hinside := Env.Follows.inside htidy hform hall ht hspot
      (hfollows.mono (List.Subset.refl _) (List.subset_append_left _ _))
    have hfirst := mem_occurrences_apply htidy (o := o) (List.cons_ne_nil i spot) hsteady.1 hnames
      hinside (hform.literals i t use ht)
    have hrest := mem_occurrencesOf_applyAll htidy hform hall hspot (o := o) hdrop' hsteady.2
      (hfollows.mono (List.subset_append_right _ _) (List.subset_append_right _ _))
    rw [applyAll_cons, occurrencesOf, useOf_settle, ← Spot.shift_cons count i hspot, List.mem_append,
      hfirst, hrest, occurrencesOf, literalPlacesOf]
    simp only [Occurrence.Replaces, List.mem_append, or_and_right, exists_or]
    exact or_or_or_comm

end

end Tree

end Abridge
