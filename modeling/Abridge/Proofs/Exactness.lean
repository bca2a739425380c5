import Abridge.Proofs.Bindings

/-!
# When shortening keeps what names mean

A plan that respects the members of enumerations keeps what names mean (`keepsBindings_of_respects`).
This file shows the converse, so that the condition is exact: where a plan does not respect a form, some
name is looked up in the wrong scope.

The argument goes down the tree with the scopes of both programs side by side.  Whatever is found for a
name is told apart by where it was found: a scope that a form opens has the place of the form, and no
scope around a form has that place (`Env.Around`).  So a name that was found among the members of an
enumeration has to be found there again, and a name that was found further out has to be found further
out.

## What is here

* `Tree.Agrees`: every leaf of a tree is looked up to the same effect in both programs.
* `Tree.agrees_of_mem`: this is so where every occurrence has its counterpart.
* `Tree.respects_of_agrees`: a plan respects a tree whose leaves agree.
* `keepsBindings_iff_respects`: a module keeps its bindings exactly when its plan respects it.
* `quoted_member_not_kept`: a module that does not, since a member is written as a text.
-/

set_option autoImplicit false

namespace Abridge

/-! ## Leaves that agree -/

namespace Tree

mutual

/-- Every leaf of a tree is looked up to the same effect before and after a plan is applied. -/
def Agrees (plan : ModulePlan) (count : Nat) (env env' : Env) (use : Use) (spot : Spot) : Tree → Prop
  | .binding n => env'.find? (plan.rename n) .any = (env.find? n .any).map (Spot.shift count)
  | .reference n => env'.find? (plan.rename n) use = (env.find? n use).map (Spot.shift count)
  | .string lit => ∀ key, plan.sites.get? lit.start = some key → env'.find? key use = some []
  | .number lit => ∀ key, plan.sites.get? lit.start = some key → env'.find? key use = some []
  | .node f ps => AgreesOf plan count f ps env env' use spot 0 ps
  | _ => True

/-- Every leaf of the parts of a node from a position on is looked up to the same effect. -/
def AgreesOf (plan : ModulePlan) (count : Nat) (f : Form) (all : List Tree) (env env' : Env) (use : Use)
    (spot : Spot) (i : Nat) : List Tree → Prop
  | [] => True
  | t :: ts =>
    t.Agrees plan count (env.inside f all spot i)
        (env'.inside (f.settle (applyAll plan all)) (applyAll plan all) (Spot.shift count spot) i)
        (useOf use f i) (i :: spot) ∧
      AgreesOf plan count f all env env' use spot (i + 1) ts

end

theorem AgreesOf.get {plan : ModulePlan} {count : Nat} {f : Form} {all : List Tree} {env env' : Env}
    {use : Use} {spot : Spot} {t : Tree} : ∀ {ts : List Tree} {i j : Nat},
      AgreesOf plan count f all env env' use spot i ts → ts[j]? = some t →
      t.Agrees plan count (env.inside f all spot (i + j))
        (env'.inside (f.settle (applyAll plan all)) (applyAll plan all) (Spot.shift count spot) (i + j))
        (useOf use f (i + j)) ((i + j) :: spot)
  | [], _, _, _, ht => by cases ht
  | u :: ts, i, 0, h, ht => by
    cases ht
    exact h.1
  | u :: ts, i, j + 1, h, ht => by
    rw [List.getElem?_cons_succ] at ht
    rw [← Nat.succ_add_eq_add_succ]
    exact h.2.get ht

/-- An occurrence under a part of a node is an occurrence of the part. -/
theorem mem_occurrences_of_place {o : Occurrence} {f : Form} {all : List Tree} {env : Env} {use : Use}
    {spot : Spot} {t : Tree} : ∀ {ts : List Tree} {i j : Nat},
      o ∈ occurrencesOf f all env use spot i ts → ts[j]? = some t →
      ((i + j) :: spot) <:+ o.place →
      o ∈ t.occurrences (env.inside f all spot (i + j)) (useOf use f (i + j)) ((i + j) :: spot)
  | [], _, _, _, ht, _ => by cases ht
  | u :: ts, i, j, ho, ht, hplace => by
    have hsame : ∀ {k : Nat}, (k :: spot) <:+ o.place → k = i + j := by
      intro k hk
      have hsuffix := List.suffix_of_suffix_length_le hk hplace (Nat.le_refl _)
      exact List.head_eq_of_cons_eq (hsuffix.eq_of_length rfl)
    rcases List.mem_append.1 ho with ho | ho
    · have hj : i = i + j := hsame (place_of_mem_occurrences ho)
      obtain rfl : j = 0 := by omega
      cases ht
      exact ho
    · obtain ⟨k, hk, hk'⟩ := place_of_mem_occurrencesOf ho
      have hj := hsame hk'
      obtain ⟨j, rfl⟩ : ∃ j', j = j' + 1 := ⟨j - 1, by omega⟩
      rw [List.getElem?_cons_succ] at ht
      rw [← Nat.succ_add_eq_add_succ] at hplace ⊢
      exact mem_occurrences_of_place ho ht hplace

end Tree

theorem Spot.length_shift (count : Nat) : ∀ spot : Spot, (Spot.shift count spot).length = spot.length
  | [] => rfl
  | [_] => rfl
  | i :: j :: spot => by
    rw [Spot.shift, List.length_cons, Spot.length_shift count (j :: spot)]
    rfl

theorem Spot.shift_ne_nil (count : Nat) {spot : Spot} (hspot : spot ≠ []) :
    Spot.shift count spot ≠ [] := by
  intro hnil
  have hlength := congrArg List.length hnil
  rw [Spot.length_shift] at hlength
  exact hspot (List.length_eq_zero_iff.1 hlength)

theorem Spot.shift_suffix (count : Nat) {spot : Spot} (hspot : spot ≠ []) :
    ∀ {spot' : Spot}, spot <:+ spot' → Spot.shift count spot <:+ Spot.shift count spot'
  | [], h => absurd (List.suffix_nil.1 h) hspot
  | i :: spot', h => by
    rcases List.suffix_cons_iff.1 h with rfl | h
    · exact List.suffix_refl _
    · have hne : spot' ≠ [] := by
        rintro rfl
        exact hspot (List.suffix_nil.1 h)
      rw [Spot.shift_cons count i hne]
      exact (Spot.shift_suffix count hspot h).trans (List.suffix_cons _ _)

namespace Tree

theorem occurrences_subset_occurrencesOf {f : Form} {all : List Tree} {env : Env} {use : Use}
    {spot : Spot} {t : Tree} : ∀ {ts : List Tree} {i j : Nat}, ts[j]? = some t →
      t.occurrences (env.inside f all spot (i + j)) (useOf use f (i + j)) ((i + j) :: spot) ⊆
        occurrencesOf f all env use spot i ts
  | [], _, _, ht => by cases ht
  | u :: ts, i, 0, ht => by
    cases ht
    exact List.subset_append_left _ _
  | u :: ts, i, j + 1, ht => by
    rw [List.getElem?_cons_succ] at ht
    rw [← Nat.succ_add_eq_add_succ]
    exact fun o ho => List.mem_append_right _ (occurrences_subset_occurrencesOf ht ho)

theorem literalPlaces_subset_literalPlacesOf {spot : Spot} {t : Tree} :
    ∀ {ts : List Tree} {i j : Nat}, ts[j]? = some t →
      t.literalPlaces ((i + j) :: spot) ⊆ literalPlacesOf spot i ts
  | [], _, _, ht => by cases ht
  | u :: ts, i, 0, ht => by
    cases ht
    exact List.subset_append_left _ _
  | u :: ts, i, j + 1, ht => by
    rw [List.getElem?_cons_succ] at ht
    rw [← Nat.succ_add_eq_add_succ]
    exact fun x hx => List.mem_append_right _ (literalPlaces_subset_literalPlacesOf ht hx)

mutual

theorem place_of_mem_literalPlaces {x : Spot × Nat} :
    ∀ {t : Tree} {spot : Spot}, x ∈ t.literalPlaces spot → spot <:+ x.1
  | .node _ _, _, h => place_of_mem_literalPlacesOf h
  | .string _, spot, h => List.mem_singleton.1 h ▸ List.suffix_refl spot
  | .number _, spot, h => List.mem_singleton.1 h ▸ List.suffix_refl spot
  | .binding _, _, h | .reference _, _, h | .absent, _, h | .name _, _, h | .markupName _, _, h
  | .label _, _, h | .privateName _, _, h | .quoted _, _, h => absurd h List.not_mem_nil

theorem place_of_mem_literalPlacesOf {x : Spot × Nat} {spot : Spot} :
    ∀ {ts : List Tree} {i : Nat}, x ∈ literalPlacesOf spot i ts → spot <:+ x.1
  | [], _, h => absurd h List.not_mem_nil
  | t :: ts, i, h => by
    rcases List.mem_append.1 h with h | h
    · exact (List.suffix_cons i spot).trans (place_of_mem_literalPlaces h)
    · exact place_of_mem_literalPlacesOf h

end

theorem getElem?_applyAll {plan : ModulePlan} {t : Tree} :
    ∀ {ts : List Tree} {i : Nat}, ts[i]? = some t → (applyAll plan ts)[i]? = some (t.apply plan)
  | [], _, ht => by cases ht
  | _ :: _, 0, ht => by
    cases ht
    rfl
  | _ :: ts, i + 1, ht => by
    rw [List.getElem?_cons_succ] at ht
    rw [applyAll_cons, List.getElem?_cons_succ]
    exact getElem?_applyAll ht

mutual

/-- Where every occurrence has its counterpart, all leaves agree. -/
theorem agrees_of_mem {plan : ModulePlan} {count : Nat} :
    ∀ {t : Tree} {env env' : Env} {use : Use} {spot : Spot}, spot ≠ [] →
      (∀ o ∈ t.occurrences env use spot,
        o.under plan count ∈ (t.apply plan).occurrences env' use (Spot.shift count spot)) →
      (∀ x ∈ t.literalPlaces spot, ∀ key, plan.sites.get? x.2 = some key →
        ⟨Spot.shift count x.1, key, false, some []⟩ ∈
          (t.apply plan).occurrences env' use (Spot.shift count spot)) →
      t.Agrees plan count env env' use spot
  | .binding n, env, env', use, spot, _, ho, _ => by
    have heq := List.mem_singleton.1 (ho _ (List.mem_singleton.2 rfl))
    exact (congrArg Occurrence.scope heq).symm
  | .reference n, env, env', use, spot, _, ho, _ => by
    have heq := List.mem_singleton.1 (ho _ (List.mem_singleton.2 rfl))
    exact (congrArg Occurrence.scope heq).symm
  | .string lit, env, env', use, spot, _, _, hx => by
    intro key hkey
    have hmem := hx _ (List.mem_singleton.2 rfl) key hkey
    rw [apply, ModulePlan.replace, hkey] at hmem
    exact (congrArg Occurrence.scope (List.mem_singleton.1 hmem)).symm
  | .number lit, env, env', use, spot, _, _, hx => by
    intro key hkey
    have hmem := hx _ (List.mem_singleton.2 rfl) key hkey
    rw [apply, ModulePlan.replace, hkey] at hmem
    exact (congrArg Occurrence.scope (List.mem_singleton.1 hmem)).symm
  | .node f ps, env, env', use, spot, hspot, ho, hx => agreesOf_of_mem hspot ho hx (List.drop_zero)
  | .absent, _, _, _, _, _, _, _ | .name _, _, _, _, _, _, _, _ | .markupName _, _, _, _, _, _, _, _
  | .label _, _, _, _, _, _, _, _ | .privateName _, _, _, _, _, _, _, _
  | .quoted _, _, _, _, _, _, _, _ => trivial

theorem agreesOf_of_mem {plan : ModulePlan} {count : Nat} {f : Form} {all : List Tree} {env env' : Env}
    {use : Use} {spot : Spot} (hspot : spot ≠ [])
    (ho : ∀ o ∈ occurrencesOf f all env use spot 0 all, o.under plan count ∈
      occurrencesOf (f.settle (applyAll plan all)) (applyAll plan all) env' use
        (Spot.shift count spot) 0 (applyAll plan all))
    (hx : ∀ x ∈ literalPlacesOf spot 0 all, ∀ key, plan.sites.get? x.2 = some key →
      ⟨Spot.shift count x.1, key, false, some []⟩ ∈
        occurrencesOf (f.settle (applyAll plan all)) (applyAll plan all) env' use
          (Spot.shift count spot) 0 (applyAll plan all)) :
    ∀ {ts : List Tree} {i : Nat}, all.drop i = ts → AgreesOf plan count f all env env' use spot i ts
  | [], _, _ => trivial
  | t :: ts, i, hdrop => by
    have ht : all[i]? = some t := by rw [← List.head?_drop, hdrop, List.head?_cons]
    have hdrop' : all.drop (i + 1) = ts := by rw [← List.tail_drop, hdrop, List.tail_cons]
    have hpart : ∀ {o : Occurrence}, o ∈ occurrencesOf (f.settle (applyAll plan all))
        (applyAll plan all) env' use (Spot.shift count spot) 0 (applyAll plan all) →
        Spot.shift count (i :: spot) <:+ o.place →
        o ∈ (t.apply plan).occurrences (env'.inside (f.settle (applyAll plan all))
          (applyAll plan all) (Spot.shift count spot) i) (useOf use f i)
          (Spot.shift count (i :: spot)) := by
      intro o hmem hplace
      rw [Spot.shift_cons count i hspot] at hplace ⊢
      rw [← Nat.zero_add i] at hplace
      have h := mem_occurrences_of_place hmem (getElem?_applyAll ht) hplace
      rwa [Nat.zero_add, useOf_settle] at h
    have hsub : ∀ o ∈ t.occurrences (env.inside f all spot i) (useOf use f i) (i :: spot),
        o ∈ occurrencesOf f all env use spot 0 all := by
      rw [← Nat.zero_add i]
      exact fun o ho => occurrences_subset_occurrencesOf ht ho
    have hsub' : ∀ x ∈ t.literalPlaces (i :: spot), x ∈ literalPlacesOf spot 0 all := by
      rw [← Nat.zero_add i]
      exact fun x hx => literalPlaces_subset_literalPlacesOf ht hx
    refine ⟨agrees_of_mem (List.cons_ne_nil i spot) ?_ ?_, agreesOf_of_mem hspot ho hx hdrop'⟩
    · intro o hmem
      refine hpart (ho o (hsub o hmem)) ?_
      exact Spot.shift_suffix count (List.cons_ne_nil i spot) (place_of_mem_occurrences hmem)
    · intro x hmem key hkey
      refine hpart (hx x (hsub' x hmem) key hkey) ?_
      exact Spot.shift_suffix count (List.cons_ne_nil i spot) (place_of_mem_literalPlaces hmem)

end

end Tree

/-! ## Where names are found -/

/-- Nothing is found in a scope that lies deeper than a number of steps. -/
def Env.Within (env : Env) (depth : Nat) : Prop :=
  ∀ n use s, env.find? n use = some s → s.length ≤ depth

/-- Nothing is found in the scope that is opened at a place. -/
def Env.Misses (env : Env) (spot : Spot) : Prop := ∀ n use, env.find? n use ≠ some spot

theorem Env.Within.inside {env : Env} {spot : Spot} (h : env.Within spot.length) (f : Form)
    (ps : List Tree) (i : Nat) : (env.inside f ps spot i).Within (i :: spot).length := by
  intro n use s hs
  rw [Env.find?_inside] at hs
  split_ifs at hs
  · cases hs
    exact Nat.le_succ _
  · cases hs
    exact Nat.le_refl _
  · exact Nat.le_succ_of_le (h n use s hs)

theorem Env.Misses.inside {env : Env} {spot : Spot} (h : env.Within spot.length) {f : Form}
    {ps : List Tree} {i : Nat} (hown : i = 0 → ownName f ps = []) :
    (env.inside f ps spot i).Misses (i :: spot) := by
  intro n use hs
  rw [Env.find?_inside] at hs
  split_ifs at hs with hscope hname
  · exact absurd (congrArg List.length (Option.some_inj.1 hs)) (Nat.succ_ne_self _).symm
  · have hi : 0 = i := List.head_eq_of_cons_eq (Option.some_inj.1 hs)
    rw [hown hi.symm] at hname
    cases hname
  · exact absurd (h n use _ hs) (Nat.not_succ_le_self _)

theorem ownName_eq_nil {f : Form} {ps : List Tree} {t : Tree} (ht : ps[0]? = some t)
    (hbound : t.boundNames = []) : ownName f ps = [] := by
  cases f with
  | function info =>
    cases ps with
    | nil => cases ht
    | cons u ps =>
      cases ht
      rw [ownName, hbound]
      split <;> rfl
  | _ => rfl

/-- What is known of the scopes around a tree in both programs. -/
structure Env.Around (plan : ModulePlan) (count : Nat) (env env' : Env) (spot : Spot) (t : Tree) :
    Prop where
  within : env.Within spot.length
  within' : env'.Within spot.length
  misses : t.boundNames = [] → env.Misses spot ∧ env'.Misses (Spot.shift count spot)
  keys : ∀ site key, plan.sites.get? site = some key → env'.find? key .type ≠ some []

theorem Env.Around.inside {plan : ModulePlan} {count : Nat} {env env' : Env} {spot : Spot} {f : Form}
    {ps : List Tree} (h : Env.Around plan count env env' spot (.node f ps)) (hspot : spot ≠ [])
    {i : Nat} {t : Tree} (ht : ps[i]? = some t) :
    Env.Around plan count (env.inside f ps spot i)
      (env'.inside (f.settle (Tree.applyAll plan ps)) (Tree.applyAll plan ps) (Spot.shift count spot) i)
      (i :: spot) t := by
  have hwithin' : env'.Within (Spot.shift count spot).length := by
    rw [Spot.length_shift]
    exact h.within'
  constructor
  · exact h.within.inside f ps i
  · have hin := hwithin'.inside (f.settle (Tree.applyAll plan ps)) (Tree.applyAll plan ps) i
    rwa [List.length_cons, Spot.length_shift] at hin
  · intro hbound
    have hown : i = 0 → ownName f ps = [] := by
      rintro rfl
      exact ownName_eq_nil ht hbound
    refine ⟨Env.Misses.inside h.within hown, ?_⟩
    rw [Spot.shift_cons count i hspot]
    refine Env.Misses.inside hwithin' fun hi => ?_
    rw [ownName_settle, (reads_ownName plan f ps).eq, hown hi]
    rfl
  · intro site key hsite hfind
    rw [Env.find?_inside] at hfind
    split_ifs at hfind
    · exact Spot.shift_ne_nil count hspot (Option.some_inj.1 hfind)
    · cases hfind
    · exact h.keys site key hsite hfind

namespace Tree

mutual

/-- What is found in a scope around a tree, whatever it is used as, is no key that agrees. -/
theorem notMem_keys_of_agrees {plan : ModulePlan} {count : Nat} {key : String} :
    ∀ {t : Tree} {env env' : Env} {use : Use} {spot : Spot}, spot ≠ [] →
      (∀ use, ∃ s, s ≠ [] ∧ env'.find? key use = some s) → t.Agrees plan count env env' use spot →
      key ∉ t.keys plan
  | .string lit, env, env', use, spot, _, hcaught, h, hkey => by
    obtain ⟨s, hs, hfind⟩ := hcaught use
    exact hs (Option.some_inj.1 (hfind.symm.trans (h key (Option.mem_toList.1 hkey))))
  | .number lit, env, env', use, spot, _, hcaught, h, hkey => by
    obtain ⟨s, hs, hfind⟩ := hcaught use
    exact hs (Option.some_inj.1 (hfind.symm.trans (h key (Option.mem_toList.1 hkey))))
  | .node _ _, _, _, _, _, hspot, hcaught, h, hkey => notMem_keysOf_of_agrees hspot hcaught h hkey
  | .binding _, _, _, _, _, _, _, _, hkey | .reference _, _, _, _, _, _, _, _, hkey
  | .absent, _, _, _, _, _, _, _, hkey | .name _, _, _, _, _, _, _, _, hkey
  | .markupName _, _, _, _, _, _, _, _, hkey | .label _, _, _, _, _, _, _, _, hkey
  | .privateName _, _, _, _, _, _, _, _, hkey | .quoted _, _, _, _, _, _, _, _, hkey =>
    List.not_mem_nil hkey

theorem notMem_keysOf_of_agrees {plan : ModulePlan} {count : Nat} {key : String} {f : Form}
    {all : List Tree} {env env' : Env} {use : Use} {spot : Spot} (hspot : spot ≠ [])
    (hcaught : ∀ use, ∃ s, s ≠ [] ∧ env'.find? key use = some s) :
    ∀ {ts : List Tree} {i : Nat}, AgreesOf plan count f all env env' use spot i ts →
      key ∉ keysOf plan ts
  | [], _, _, hkey => List.not_mem_nil hkey
  | t :: ts, i, h, hkey => by
    rcases List.mem_append.1 hkey with hkey | hkey
    · refine notMem_keys_of_agrees (List.cons_ne_nil i spot) (fun use => ?_) h.1 hkey
      rw [Env.find?_inside]
      split_ifs
      · exact ⟨_, Spot.shift_ne_nil count hspot, rfl⟩
      · exact ⟨_, List.cons_ne_nil _ _, rfl⟩
      · exact hcaught use
    · exact notMem_keysOf_of_agrees hspot hcaught h.2 hkey

end

mutual

/-- **What a tree with agreeing leaves wants of the scopes around it** is found there to the same effect,
unless it is found in a scope as deep as the tree. -/
theorem find?_of_agrees {plan : ModulePlan} {count : Nat} {d : String × Use} :
    ∀ {t : Tree} {env env' : Env} {use : Use} {spot : Spot},
      t.Agrees plan count env env' use spot → d ∈ t.demands use →
      env'.find? (plan.rename d.1) d.2 = (env.find? d.1 d.2).map (Spot.shift count) ∨
        ∃ s, env.find? d.1 d.2 = some s ∧ spot.length ≤ s.length
  | .binding n, _, _, _, _, h, hd => by
    rw [List.mem_singleton.1 hd]
    exact .inl h
  | .reference n, _, _, _, _, h, hd => by
    rw [List.mem_singleton.1 hd]
    exact .inl h
  | .node _ _, _, _, _, _, h, hd => find?_of_agreesOf h hd
  | .absent, _, _, _, _, _, hd | .name _, _, _, _, _, _, hd | .markupName _, _, _, _, _, _, hd
  | .label _, _, _, _, _, _, hd | .privateName _, _, _, _, _, _, hd | .quoted _, _, _, _, _, _, hd
  | .string _, _, _, _, _, _, hd | .number _, _, _, _, _, _, hd => absurd hd List.not_mem_nil

theorem find?_of_agreesOf {plan : ModulePlan} {count : Nat} {d : String × Use} {f : Form}
    {all : List Tree} {env env' : Env} {use : Use} {spot : Spot} :
    ∀ {ts : List Tree} {i : Nat}, AgreesOf plan count f all env env' use spot i ts →
      d ∈ demandsOf f all use i ts →
      env'.find? (plan.rename d.1) d.2 = (env.find? d.1 d.2).map (Spot.shift count) ∨
        ∃ s, env.find? d.1 d.2 = some s ∧ spot.length ≤ s.length
  | [], _, _, hd => absurd hd List.not_mem_nil
  | t :: ts, i, h, hd => by
    rcases List.mem_append.1 hd with hd | hd
    · obtain ⟨hd, hnone⟩ := List.mem_filter.1 hd
      have hpass : (env.inside f all spot i).find? d.1 d.2 = env.find? d.1 d.2 := by
        rw [Env.find?_inside] at hnone ⊢
        split_ifs at hnone ⊢
        · cases hnone
        · cases hnone
        · rfl
      have hpart := find?_of_agrees h.1 hd
      rw [hpass] at hpart
      rcases hpart with hpart | ⟨s, hs, hlength⟩
      · rw [Env.find?_inside] at hpart
        split_ifs at hpart
        · obtain ⟨s, hs, hshift⟩ := Option.map_eq_some_iff.1 hpart.symm
          refine .inr ⟨s, hs, ?_⟩
          rw [← Spot.length_shift count s, hshift, Spot.length_shift]
        · obtain ⟨s, hs, hshift⟩ := Option.map_eq_some_iff.1 hpart.symm
          refine .inr ⟨s, hs, ?_⟩
          rw [← Spot.length_shift count s, hshift, List.length_cons, Spot.length_shift]
          exact Nat.le_succ _
        · exact .inl hpart
      · exact .inr ⟨s, hs, Nat.le_of_succ_le hlength⟩
    · exact find?_of_agreesOf h.2 hd

end

end Tree

/-! ## Forms -/

namespace Form

variable {plan : ModulePlan} {count : Nat} {env env' : Env} {use : Use} {spot : Spot}

/-- A literal that stands for a type is not replaced, since no inserted name is a type. -/
theorem respects_heritage {ps : List Tree}
    (haround : Env.Around plan count env env' spot (.node .heritage ps)) (hspot : spot ≠ [])
    (hagrees : Tree.AgreesOf plan count .heritage ps env env' use spot 0 ps) :
    Form.heritage.respects plan ps = true := by
  cases ps with
  | nil => rfl
  | cons t ts =>
    have hkeys := (haround.inside hspot (i := 0) rfl).keys
    have hpart := hagrees.1
    unfold respects
    cases t with
    | string lit =>
      cases hsite : plan.sites.get? lit.start with
      | none => simp [Tree.keys, hsite]
      | some key => exact absurd (hpart key hsite) (hkeys _ key hsite)
    | number lit =>
      cases hsite : plan.sites.get? lit.start with
      | none => simp [Tree.keys, hsite]
      | some key => exact absurd (hpart key hsite) (hkeys _ key hsite)
    | _ => rfl

/-- What is found in the scope of an enumeration. -/
theorem find?_inside_enum {c a : Bool} {name : Tree} {ms : List Tree} (env : Env) (spot : Spot)
    (n : String) (use : Use) :
    (env.inside (.enum c a) [name, .node .group ms] spot 1).find? n use =
      if n ∈ Tree.memberNames ms then some spot else env.find? n use := by
  have hiff : answers (scopeNames (.enum c a) [name, .node .group ms] 1) n use = true ↔
      n ∈ Tree.memberNames ms := by
    rw [answers_enum_iff]
    constructor
    · rintro ⟨_, _, hps, -, hm⟩
      cases hps
      exact hm
    · exact fun hm => ⟨name, ms, rfl, one_ne_zero, hm⟩
  rw [Env.find?_inside]
  exact if_congr hiff rfl rfl

/-- What is found in the scope of an enumeration under a plan. -/
theorem find?_inside_enum_applyAll {c a : Bool} {name : Tree} {ms : List Tree} (env : Env)
    (spot : Spot) (n : String) (use : Use) :
    (env.inside ((Form.enum c a).settle (Tree.applyAll plan [name, .node .group ms]))
        (Tree.applyAll plan [name, .node .group ms]) spot 1).find? n use =
      if n ∈ Tree.memberNames ms then some spot else env.find? n use := by
  have hbefore : (env.inside (.enum c a) [name, .node .group ms] spot 1).find? n use =
      if n ∈ Tree.memberNames ms then some spot else env.find? n use :=
    find?_inside_enum env spot n use
  rw [← hbefore, Env.find?_inside, Env.find?_inside, scopeNames_settle, ownName_settle,
    answers_enum_applyAll]
  rfl

/-- **Names find the members of an enumeration** under a plan exactly when they did before, where leaves
agree. -/
theorem mem_memberNames_of_agrees {c a : Bool} {name : Tree} {ms : List Tree}
    (haround : Env.Around plan count env env' spot (.node (.enum c a) [name, .node .group ms]))
    (hagrees : Tree.AgreesOf plan count (.enum c a) [name, .node .group ms] env env' use spot 0
      [name, .node .group ms]) {d : String × Use} (hd : d ∈ Tree.demandsOf .group ms .value 0 ms) :
    d.1 ∈ Tree.memberNames ms ↔ plan.rename d.1 ∈ Tree.memberNames ms := by
  obtain ⟨hmisses, hmisses'⟩ := haround.misses rfl
  have hfind := Tree.find?_of_agrees hagrees.2.1 hd
  rw [find?_inside_enum, find?_inside_enum_applyAll] at hfind
  rcases hfind with hfind | ⟨s, hs, hlength⟩
  · constructor
    · intro hm
      by_contra hm'
      rw [if_pos hm, if_neg hm'] at hfind
      exact hmisses' _ _ hfind
    · intro hm'
      by_contra hm
      rw [if_neg hm, if_pos hm'] at hfind
      obtain ⟨s, hs, hshift⟩ := Option.map_eq_some_iff.1 hfind.symm
      exact hmisses _ _ (Spot.shift_injective count hshift ▸ hs)
  · -- Nothing around the group lies as deep as the group.
    exfalso
    split_ifs at hs
    · cases hs
      exact Nat.not_succ_le_self _ hlength
    · exact Nat.not_succ_le_self _ (hlength.trans (haround.within _ _ s hs))

/-- **An enumeration is respected** where leaves agree. -/
theorem respects_enum {c a : Bool} {ps : List Tree}
    (haround : Env.Around plan count env env' spot (.node (.enum c a) ps)) (hspot : spot ≠ [])
    (hagrees : Tree.AgreesOf plan count (.enum c a) ps env env' use spot 0 ps)
    (hplain : ∀ name ms, ps = [name, .node .group ms] → ∀ m, Tree.IsPlainMember ms m →
      ∀ n ∈ Tree.leafNamesOf ms, plan.rename n = m ↔ n = m) :
    (Form.enum c a).respects plan ps = true := by
  unfold respects
  split
  · rename_i name ms hform
    rw [Bool.and_eq_true, List.all_eq_true, List.all_eq_true]
    constructor
    · intro d hd
      have hmembers := mem_memberNames_of_agrees haround hagrees hd
      have hplain' := fun m hm =>
        hplain name ms rfl m hm d.1 (Tree.mem_leafNamesOf_of_mem_demandsOf hd)
      rw [beq_iff_eq, Bool.eq_iff_iff, List.contains_iff_mem, List.contains_iff_mem]
      rw [Tree.mem_memberNames_iff, Tree.mem_memberNames_iff] at hmembers
      -- A name that is renamed is no plain member, and is not written like one.
      by_cases hkept : plan.rename d.1 = d.1
      · rw [hkept]
      · have hbefore : ¬ Tree.IsPlainMember ms d.1 := fun hm => hkept ((hplain' _ hm).2 rfl)
        have hafter : ¬ Tree.IsPlainMember ms (plan.rename d.1) :=
          fun hm => hkept ((hplain' _ hm).1 rfl).symm
        rwa [or_iff_left hbefore, or_iff_left hafter] at hmembers
    · intro key hkey
      rw [Bool.not_eq_true', Bool.eq_false_iff, Ne, List.contains_iff_mem]
      intro hm
      have hcaught : ∀ use, ∃ s, s ≠ [] ∧ (env'.inside ((Form.enum c a).settle
          (Tree.applyAll plan [name, .node .group ms])) (Tree.applyAll plan [name, .node .group ms])
          (Spot.shift count spot) 1).find? key use = some s := by
        intro use
        rw [find?_inside_enum_applyAll, if_pos hm]
        exact ⟨_, Spot.shift_ne_nil count hspot, rfl⟩
      exact Tree.notMem_keys_of_agrees (List.cons_ne_nil 1 spot) hcaught hagrees.2.1 hkey
  · rename_i hform
    cases hform
  · rfl

end Form

namespace Tree

/-- **A plan respects a tree whose leaves agree.** -/
theorem respects_of_agrees {plan : ModulePlan} {names : List String} (htidy : plan.Tidy names)
    {count : Nat} : ∀ {t : Tree} {env env' : Env} {use : Use} {spot : Spot}, spot ≠ [] → t.Shaped →
      t.leafNames ⊆ names → Minded plan names t → Env.Around plan count env env' spot t →
      t.Agrees plan count env env' use spot → t.respects plan = true
  | .node f ps, env, env', use, spot, hspot, ⟨hfits, hps⟩, hnames, hminded, haround, hagrees => by
    refine Bool.and_eq_true_iff.2 ⟨?_, respectsAll_iff.2 fun t ht => ?_⟩
    · cases f with
      | enum c a =>
        refine Form.respects_enum haround hspot hagrees ?_
        rintro name ms rfl m hm n hn
        have hsub : leafNamesOf ms ⊆ names :=
          fun n hn => hnames (by simp [leafNames, leafNamesOf, hn])
        exact hminded.plain htidy hps.2.1.2 hsub hm hn
      | heritage => exact Form.respects_heritage haround hspot hagrees
      | _ => rfl
    · obtain ⟨i, hi⟩ := List.getElem?_of_mem ht
      have hpart := AgreesOf.get hagrees hi
      rw [Nat.zero_add] at hpart
      have : sizeOf t < sizeOf ps := List.sizeOf_lt_of_mem ht
      exact respects_of_agrees htidy (List.cons_ne_nil i spot) (allShaped_iff.1 hps t ht)
        (fun n hn => hnames (mem_leafNamesOf.2 ⟨t, ht, hn⟩)) (hminded.part hfits hi)
        (haround.inside hspot hi) hpart
  | .binding _, _, _, _, _, _, _, _, _, _, _ | .reference _, _, _, _, _, _, _, _, _, _, _
  | .absent, _, _, _, _, _, _, _, _, _, _ | .name _, _, _, _, _, _, _, _, _, _, _
  | .markupName _, _, _, _, _, _, _, _, _, _, _ | .label _, _, _, _, _, _, _, _, _, _, _
  | .privateName _, _, _, _, _, _, _, _, _, _, _ | .string _, _, _, _, _, _, _, _, _, _, _
  | .number _, _, _, _, _, _, _, _, _, _, _ | .quoted _, _, _, _, _, _, _, _, _, _, _ => rfl
termination_by t => sizeOf t

end Tree

/-! ## Programs and runs -/

namespace Inserts

variable {plan : ModulePlan} {names : List String} {before after : Program} {pre : List Tree}

/-- The statements of a program agree where the program keeps its bindings. -/
theorem agrees (h : Inserts plan before after pre) (hkeeps : KeepsBindings plan before after) {i : Nat}
    {t : Tree} (ht : before.statements[i]? = some t) :
    t.Agrees plan plan.inserted [before.topFrame] [after.topFrame] .value [i] := by
  have ht' : after.statements[plan.inserted + i]? = some (t.apply plan) := by
    rw [h.statements, ← h.length, List.getElem?_append_right (Nat.le_add_right _ _),
      Nat.add_sub_cancel_left]
    exact Tree.getElem?_applyAll ht
  have hshift : Spot.shift plan.inserted [i] = [0 + (plan.inserted + i)] := by
    rw [Nat.zero_add, Nat.add_comm]
    rfl
  have hpart : ∀ {o : Occurrence}, o ∈ after.occurrences →
      Spot.shift plan.inserted [i] <:+ o.place →
      o ∈ (t.apply plan).occurrences [after.topFrame] .value (Spot.shift plan.inserted [i]) := by
    intro o ho hplace
    rw [hshift] at hplace ⊢
    exact Tree.mem_occurrences_of_place ho ht' hplace
  have hsub : ∀ o ∈ t.occurrences [before.topFrame] .value [i], o ∈ before.occurrences := by
    rw [← Nat.zero_add i]
    exact fun o ho => Tree.occurrences_subset_occurrencesOf (f := .group) ht ho
  have hsub' : ∀ x ∈ t.literalPlaces [i], x ∈ before.literalPlaces := by
    rw [← Nat.zero_add i]
    exact fun x hx => Tree.literalPlaces_subset_literalPlacesOf ht hx
  refine Tree.agrees_of_mem (List.cons_ne_nil i []) ?_ ?_
  · intro o ho
    refine hpart (hkeeps.counterparts o (hsub o ho)) ?_
    exact Spot.shift_suffix _ (List.cons_ne_nil i []) (Tree.place_of_mem_occurrences ho)
  · intro x hx key hkey
    refine hpart (hkeeps.replaced x (hsub' x hx) key hkey).1 ?_
    exact Spot.shift_suffix _ (List.cons_ne_nil i []) (Tree.place_of_mem_literalPlaces hx)

/-- The scope of the whole program is the only one around its statements, and no key is a type in it. -/
theorem around (h : Inserts plan before after pre) (htidy : plan.Tidy names)
    (hnames : Tree.leafNamesOf before.statements ⊆ names) (i : Nat) (t : Tree) :
    Env.Around plan plan.inserted [before.topFrame] [after.topFrame] [i] t := by
  have htop : ∀ (p : Program) {n use s}, Env.find? [p.topFrame] n use = some s → s = [] := by
    intro p n use s hs
    rw [Program.topFrame, Env.find?_cons] at hs
    split_ifs at hs
    · exact (Option.some_inj.1 hs).symm
    · cases hs
  have hwithin : ∀ p : Program, Env.Within [p.topFrame] [i].length := by
    intro p n use s hs
    rw [htop p hs]
    exact Nat.zero_le _
  refine ⟨hwithin before, hwithin after, fun _ => ⟨?_, ?_⟩, ?_⟩
  · exact fun n use hs => absurd (htop before hs) (List.cons_ne_nil i [])
  · exact fun n use hs => absurd (htop after hs) (List.cons_ne_nil _ [])
  · intro site key hsite hfind
    rw [Program.topFrame, Env.find?_cons] at hfind
    split_ifs at hfind with hanswers
    · obtain ⟨d, hd, hname, hsupports⟩ := answers_iff.1 hanswers
      rcases (h.scope d).1 hd with ⟨hvalue, -⟩ | hd
      · rw [hvalue] at hsupports
        cases hsupports
      · have hnone := (Tree.reads_functionScope plan before.statements).answers_eq_false
          (fun m hm => htidy.fresh site key hsite m (hnames hm)) .type
        rw [answers_iff.2 ⟨d, hd, hname, hsupports⟩] at hnone
        cases hnone
    · cases hfind

end Inserts

/-- A plan respects a module that keeps its bindings under it. -/
theorem Settled.respectsAll {p : CompiledProfile} {modules : List ReadModule} {final : Planner}
    (h : Settled p modules final)
    (hread : ∀ m ∈ modules, Program.parse? m.source.text m.source.dialect = some m.program)
    {m : ReadModule} {plan : ModulePlan} (hx : (m, plan) ∈ modules.zip (planModules p modules))
    {program : Program} (hprogram : m.rewrite plan = some program)
    (hkeeps : KeepsBindings plan m.program program) :
    Tree.respectsAll plan m.program.statements = true := by
  obtain ⟨program', pre, hprogram', hinserts⟩ := h.inserts hx
  obtain rfl : program' = program := Option.some_inj.1 (hprogram'.symm.trans hprogram)
  have hshaped : Tree.AllShaped m.program.statements :=
    Program.shaped_of_parse? (hread m (List.of_mem_zip hx).1)
  have hnames : Tree.leafNamesOf m.program.statements ⊆
      (m.program.survey m.source.dialect).namesInUse :=
    fun n hn => Program.mem_namesInUse hshaped hn _
  have htidy := h.tidy hx
  refine Tree.respectsAll_iff.2 fun t ht => ?_
  obtain ⟨i, hi⟩ := List.getElem?_of_mem ht
  exact Tree.respects_of_agrees htidy (List.cons_ne_nil i []) (Tree.allShaped_iff.1 hshaped t ht)
    (fun n hn => hnames (Tree.mem_leafNamesOf.2 ⟨t, ht, hn⟩)) (h.minded hx ht)
    (hinserts.around htidy hnames i t) (hinserts.agrees hkeeps hi)

/-- **Every module of every run keeps its bindings exactly when its plan respects it.**  A module that was
read is shortened under its plan to a program in which every occurrence has its counterpart, two of them
mean the same declaration exactly when they did, names that are declared nowhere stay as they are, and what
replaces a literal means the statement that was put before the program.  This is so unless the plan mixes
up a member of an enumeration that is written as a text with a name that is used among the members, or
replaces a literal that stands for a type. -/
theorem keepsBindings_iff_respects {profile : Profile} {p : CompiledProfile}
    (hp : profile.compile = .ok p) {modules : List ReadModule}
    (hread : ∀ m ∈ modules, Program.parse? m.source.text m.source.dialect = some m.program)
    {m : ReadModule} {plan : ModulePlan} (hx : (m, plan) ∈ modules.zip (planModules p modules)) :
    (∃ program, m.rewrite plan = some program ∧ KeepsBindings plan m.program program) ↔
      Tree.respectsAll plan m.program.statements = true := by
  refine ⟨?_, keepsBindings_of_respects hp hread hx⟩
  rintro ⟨program, hprogram, hkeeps⟩
  obtain ⟨final, h⟩ := exists_settled hp modules
  exact h.respectsAll hread hx hprogram hkeeps

/-- A module whose enumeration has a member that is written as a name. -/
theorem keepsBindings_iff_respects_named :
    ∃ p program, Profile.balanced.compile = .ok p ∧
      Program.parse? "enum Level{Alpha=1,Beta=Alpha}" { jsx := false, typescript := true } =
        some program ∧
      ∀ m : ReadModule, m = ⟨⟨⟨"a.ts"⟩, "enum Level{Alpha=1,Beta=Alpha}",
          { jsx := false, typescript := true }⟩, program⟩ →
        ∀ plan, (m, plan) ∈ [m].zip (planModules p [m]) →
          ((∃ after, m.rewrite plan = some after ∧ KeepsBindings plan m.program after) ↔
            Tree.respectsAll plan m.program.statements = true) := by
  obtain ⟨p, hp⟩ := Profile.exists_compile_balanced
  obtain ⟨program, hprogram⟩ := Option.isSome_iff_exists.1
    (show (Program.parse? "enum Level{Alpha=1,Beta=Alpha}"
      { jsx := false, typescript := true }).isSome = true by decide +kernel)
  refine ⟨p, program, hp, hprogram, ?_⟩
  rintro m rfl plan hx
  exact keepsBindings_iff_respects hp (by simpa using hprogram) hx

/-! ## A member that is written as a text -/

/-- A profile that shortens every name. -/
def Profile.eager : Profile :=
  { minIdentifierLength := 0
    categoryRules := [{ name := "name", lead := "k", pattern := "" }] }

/-- The profile that shortens every name, checked. -/
def CompiledProfile.eager : CompiledProfile :=
  { profile := .eager
    rules := [{ rule := { name := "name", lead := "k", pattern := "" }, pattern := .empty }]
    critical := [] }

theorem Profile.compile_eager : Profile.eager.compile = .ok .eager := by
  have hbound : Profile.eager.hasReductionBound = true := by decide +kernel
  have hleads : (Profile.eager.leads.find? fun text => !isUsableLead text) = none := by decide +kernel
  rw [compile, hbound, hleads]
  rfl

/-- The program `enum E{"A"=1,B=A}const A=2;`: the initialiser of `B` means the member `A` and not the
constant. -/
def Program.withQuotedMember : Program where
  statements :=
    [.node (.enum false false)
      [.binding "E", .group
        [.node (.enumMember false)
          [.quoted { value := "A", start := 7 },
           .number { value := .finite false 4503599627370496 (-52) (by decide), raw := "1", start := 11 }],
         .node (.enumMember false) [.name "B", .reference "A"]]],
     .node (.variables .const false)
      [.node (.declarator false)
        [.binding "A", .absent,
         .number { value := .finite false 4503599627370496 (-51) (by decide), raw := "2", start := 25 }]]]

theorem Program.parse?_withQuotedMember :
    Program.parse? "enum E\x7b\"A\"=1,B=A\x7dconst A=2;" { jsx := false, typescript := true } =
      some .withQuotedMember := by
  decide +kernel

/-- The survey pins `B` alone: it passes over members that are written as texts. -/
theorem Program.survey_withQuotedMember :
    Program.withQuotedMember.survey { jsx := false, typescript := true } =
      { firstRoles := [("E", .declaration), ("B", .memberProperty), ("A", .other)]
        pinned := ["B"]
        namesInUse := ["A", "B", "E"] } := by
  have hfree : Program.withQuotedMember.unresolved = [] :=
    sortNames_eq (by decide +kernel) (by decide)
  apply Program.survey_eq hfree (by decide) <;> decide +kernel

/-- The module of that program. -/
def ReadModule.withQuotedMember : ReadModule :=
  { source :=
      { path := ⟨"a.ts"⟩, text := "enum E\x7b\"A\"=1,B=A\x7dconst A=2;"
        dialect := { jsx := false, typescript := true } }
    program := .withQuotedMember }

/-- **A member that is written as a text can lose the names that mean it**: the constant `A` is renamed,
and the use of the member `A` along with it. -/
theorem quoted_member_not_kept :
    Profile.eager.compile = .ok .eager ∧
      Program.parse? ReadModule.withQuotedMember.source.text ReadModule.withQuotedMember.source.dialect =
        some ReadModule.withQuotedMember.program ∧
      ∃ plan, planModules .eager [.withQuotedMember] = [plan] ∧
        ¬ ∃ program, ReadModule.withQuotedMember.rewrite plan = some program ∧
          KeepsBindings plan ReadModule.withQuotedMember.program program := by
  refine ⟨Profile.compile_eager, Program.parse?_withQuotedMember, ?_⟩
  obtain ⟨plan, hplan⟩ := List.length_eq_one_iff.1 (length_planModules .eager [.withQuotedMember])
  have hdisregards : ((planModules .eager [.withQuotedMember]).all fun plan =>
      !Tree.respectsAll plan Program.withQuotedMember.statements) = true := by
    simp only [planModules, List.map_cons, List.map_nil, Program.analyse,
      ReadModule.withQuotedMember, Program.survey_withQuotedMember]
    decide +kernel
  refine ⟨plan, hplan, ?_⟩
  rintro ⟨program, hprogram, hkeeps⟩
  obtain ⟨final, h⟩ := exists_settled Profile.compile_eager [.withQuotedMember]
  have hrespects := h.respectsAll (List.forall_mem_singleton.2 Program.parse?_withQuotedMember)
    (by rw [hplan]; exact List.mem_singleton.2 rfl) hprogram hkeeps
  rw [hplan, List.all_cons, Bool.and_eq_true, Bool.not_eq_true'] at hdisregards
  exact Bool.false_ne_true (hdisregards.1.symm.trans hrespects)

end Abridge
