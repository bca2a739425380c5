import Abridge.Proofs.Interface

/-!
# What is collected

The literal table of a module says which values its literals have, how often each occurs and where.
Replacing a literal is only safe where an expression may stand, so some places are left out: keys, members
of enumerations, sources of imports and exports and all of what an `import()` says, calls of `require` and
bodies of `with` statements.  The search does not have to avoid the sources of imports and exports: the
grammar reads them as texts of the module interface, which are no literals, and it does the same with
directives and with strings in markup attributes.

A type is no place for an expression either, but types are not left out: they hold no literals, with few
exceptions.  The number after a minus sign in a type is one, and so is what the options of an import type
say.  The table has these along with the others.

## What is here

* `LiteralTable.Lists`: a table that says of a list of literals what it should, one entry for each identity.
* `Form.Bars`, `Tree.Stands`: the places that are left out, and where literals stand otherwise, in types and
  outside of them.
* `collected_iff`: the table of a program has exactly the large literals that stand at no place left out,
  each of them once.
* `negative_type_collected`: the table has a number that stands in a type.
-/

set_option autoImplicit false

namespace Abridge

/-! ## Recording -/

/-- An entry says of the literals found so far what it should: where those with its identity were found, in
that order, and how many they are. -/
structure LiteralEntry.Lists (e : LiteralEntry) (found : List (Literal × Nat)) : Prop where
  sites : e.sites = (found.filter fun x => x.1.identity == e.value.identity).map Prod.snd
  occurrences : e.occurrences = e.sites.length
  written : e.sites ≠ []

namespace LiteralEntry.Lists

variable {e : LiteralEntry} {found : List (Literal × Nat)} {value : Literal} {site : Nat}

/-- What else is found does not concern an entry with another identity. -/
theorem of_ne (h : e.Lists found) (he : e.value.identity ≠ value.identity) :
    e.Lists (found ++ [(value, site)]) := by
  refine ⟨?_, h.occurrences, h.written⟩
  rw [List.filter_append, List.filter_cons_of_neg (by simpa using Ne.symm he), List.filter_nil,
    List.append_nil]
  exact h.sites

theorem add (h : e.Lists found) (he : e.value.identity = value.identity) :
    Lists { e with occurrences := e.occurrences + 1, sites := e.sites ++ [site] }
      (found ++ [(value, site)]) := by
  refine ⟨?_, ?_, List.append_ne_nil_of_right_ne_nil _ (List.cons_ne_nil _ _)⟩
  · rw [List.filter_append, List.filter_cons_of_pos (by simp [he]), List.filter_nil, List.map_append,
      ← h.sites]
    rfl
  · rw [List.length_append, ← h.occurrences]
    rfl

theorem new (hnew : ∀ x ∈ found, x.1.identity ≠ value.identity) :
    Lists { value, occurrences := 1, sites := [site] } (found ++ [(value, site)]) := by
  have hfound : (found.filter fun x => x.1.identity == value.identity) = [] :=
    List.filter_eq_nil_iff.2 fun x hx heq => hnew x hx (eq_of_beq heq)
  refine ⟨?_, rfl, List.cons_ne_nil _ _⟩
  rw [List.filter_append, hfound, List.filter_cons_of_pos (by simp)]
  rfl

theorem mem_sites_iff (h : e.Lists found) :
    site ∈ e.sites ↔ ∃ x ∈ found, x.1.identity = e.value.identity ∧ x.2 = site := by
  simp only [h.sites, List.mem_map, List.mem_filter, beq_iff_eq, and_assoc]

end LiteralEntry.Lists

namespace LiteralTable

/-- Recording adds a site to the one entry with the identity of the value, or an entry of its own. -/
theorem record_cases (value : Literal) (site : Nat) : ∀ table : LiteralTable,
    (∃ before e after, table = before ++ e :: after ∧ e.value.identity = value.identity ∧
      table.record value site = before ++
        { e with occurrences := e.occurrences + 1, sites := e.sites ++ [site] } :: after) ∨
    (∀ e ∈ table, e.value.identity ≠ value.identity) ∧
      table.record value site = table ++ [{ value, occurrences := 1, sites := [site] }]
  | [] => .inr ⟨fun _ he => absurd he List.not_mem_nil, rfl⟩
  | x :: table => by
    by_cases hx : x.value.identity = value.identity
    · refine .inl ⟨[], x, table, rfl, hx, ?_⟩
      rw [record, if_pos (beq_iff_eq.2 hx)]
      rfl
    · have hrecord : record value site (x :: table) = x :: record value site table := by
        rw [record, if_neg (by rwa [beq_iff_eq])]
      rcases record_cases value site table with ⟨before, e, after, rfl, he, heq⟩ | ⟨hnew, heq⟩
      · exact .inl ⟨x :: before, e, after, rfl, he, by rw [hrecord, heq]; rfl⟩
      · exact .inr ⟨List.forall_mem_cons.2 ⟨hx, hnew⟩, by rw [hrecord, heq]; rfl⟩

/-- A table lists the literals found so far: it has one entry for each identity among them. -/
structure Lists (table : LiteralTable) (found : List (Literal × Nat)) : Prop where
  identities : (table.map fun e => e.value.identity).Nodup
  covers : ∀ x ∈ found, x.1.identity ∈ table.map fun e => e.value.identity
  entries : ∀ e ∈ table, e.Lists found

namespace Lists

variable {table : LiteralTable} {found : List (Literal × Nat)}

theorem nil : Lists [] [] :=
  ⟨List.nodup_nil, fun _ h => absurd h List.not_mem_nil, fun _ h => absurd h List.not_mem_nil⟩

/-- **One more literal**: a table that lists what was found lists this one too, once it is recorded. -/
theorem record (h : table.Lists found) (value : Literal) (site : Nat) :
    (table.record value site).Lists (found ++ [(value, site)]) := by
  have hcovers : ∀ {identities : List String},
      (table.map fun e => e.value.identity) ⊆ identities → value.identity ∈ identities →
      ∀ x ∈ found ++ [(value, site)], x.1.identity ∈ identities := by
    intro identities hsub hvalue x hx
    rcases List.mem_append.1 hx with hx | hx
    · exact hsub (h.covers x hx)
    · rwa [List.mem_singleton.1 hx]
  rcases record_cases value site table with ⟨before, e, after, rfl, he, heq⟩ | ⟨hnew, heq⟩
  · have hidentities := h.identities
    rw [List.map_append, List.map_cons] at hidentities
    -- The other entries have other identities.
    have hother : ∀ x ∈ before ++ after, x.value.identity ≠ value.identity := by
      intro x hx heq
      have hnodup := List.nodup_middle.1 hidentities
      rw [← List.map_append, List.nodup_cons] at hnodup
      exact hnodup.1 (List.mem_map.2 ⟨x, hx, heq.trans he.symm⟩)
    rw [heq]
    refine ⟨by rwa [List.map_append, List.map_cons], hcovers ?_ ?_, ?_⟩
    · rw [List.map_append, List.map_append, List.map_cons, List.map_cons]
      exact List.Subset.refl _
    · exact List.mem_map.2 ⟨_, List.mem_append_right _ List.mem_cons_self, he⟩
    · intro x hx
      rcases List.mem_append.1 hx with hx | hx
      · exact (h.entries x (List.mem_append_left _ hx)).of_ne (hother x (List.mem_append_left _ hx))
      rcases List.mem_cons.1 hx with rfl | hx
      · exact (h.entries e (List.mem_append_right _ List.mem_cons_self)).add he
      · exact (h.entries x (List.mem_append_right _ (List.mem_cons_of_mem _ hx))).of_ne
          (hother x (List.mem_append_right _ hx))
  · have hfound : ∀ x ∈ found, x.1.identity ≠ value.identity := by
      intro x hx hidentity
      obtain ⟨e, he, heq⟩ := List.mem_map.1 (h.covers x hx)
      exact hnew e he (heq.trans hidentity)
    rw [heq]
    refine ⟨?_, hcovers ?_ ?_, ?_⟩
    · rw [List.map_append, List.nodup_append]
      refine ⟨h.identities, List.nodup_singleton _, ?_⟩
      rintro _ ha _ hb rfl
      obtain ⟨e, he, heq⟩ := List.mem_map.1 ha
      exact hnew e he (heq.trans (List.mem_singleton.1 hb))
    · rw [List.map_append]
      exact List.subset_append_left _ _
    · exact List.mem_map.2 ⟨_, List.mem_append_right _ (List.mem_singleton.2 rfl), rfl⟩
    · intro x hx
      rcases List.mem_append.1 hx with hx | hx
      · exact (h.entries x hx).of_ne (hnew x hx)
      · rw [List.mem_singleton.1 hx]
        exact .new hfound

/-- **A whole list of literals**: recording one after the other lists them all. -/
theorem foldl (h : table.Lists found) (more : List (Literal × Nat)) :
    Lists (more.foldl (fun table x => LiteralTable.record x.1 x.2 table) table) (found ++ more) := by
  induction more generalizing table found with
  | nil => rwa [List.append_nil]
  | cons x more ih =>
    rw [List.append_cons]
    exact ih (h.record x.1 x.2)

/-- No two sites in a table are the same if no two literals are written at the same place. -/
theorem nodup_sites (h : table.Lists found) (hfound : (found.map Prod.snd).Nodup) :
    (table.flatMap LiteralEntry.sites).Nodup := by
  rw [List.nodup_flatMap]
  constructor
  · intro e he
    rw [(h.entries e he).sites]
    exact hfound.sublist (List.filter_sublist.map _)
  · refine (List.pairwise_map.1 h.identities).imp_of_mem fun {e e'} he he' hne site hsite hsite' => ?_
    obtain ⟨x, hx, hidentity, rfl⟩ := (h.entries e he).mem_sites_iff.1 hsite
    obtain ⟨x', hx', hidentity', heq⟩ := (h.entries e' he').mem_sites_iff.1 hsite'
    obtain rfl := List.inj_on_of_nodup_map hfound hx' hx heq
    exact hne (hidentity.symm.trans hidentity')

end Lists

end LiteralTable

namespace Program

/-- The literals of a program that a profile admits, with their places. -/
def found (p : Program) (profile : Profile) : List (Literal × Nat) :=
  p.literals.filter fun x => profile.admits x.1

/-- **The literal table of a program lists the literals that the profile admits.** -/
theorem lists_literalTable (p : Program) (profile : Profile) :
    (p.literalTable profile).Lists (p.found profile) := by
  have h := LiteralTable.Lists.nil.foldl (p.found profile)
  rw [List.nil_append] at h
  -- Whether an entry is hoisted does not matter for what it lists.
  have hidentities : ((p.literalTable profile).map fun e => e.value.identity) =
      ((p.found profile).foldl (fun table x => LiteralTable.record x.1 x.2 table) []).map
        fun e => e.value.identity := List.map_map
  refine ⟨hidentities ▸ h.identities, fun x hx => hidentities ▸ h.covers x hx, fun e he => ?_⟩
  obtain ⟨e', he', rfl⟩ := List.mem_map.1 he
  exact ⟨(h.entries e' he').sites, (h.entries e' he').occurrences, (h.entries e' he').written⟩

/-- An entry of the table has a value and a site exactly where a literal of that value was found. -/
theorem mem_found_iff {p : Program} {profile : Profile} {l : Literal} {site : Nat} :
    (∃ e ∈ p.literalTable profile, e.value = l ∧ site ∈ e.sites) ↔ (l, site) ∈ p.found profile := by
  constructor
  · rintro ⟨e, he, rfl, hsite⟩
    exact List.mem_filter.2 ⟨mem_literals_of_site he hsite, admits_of_mem_literalTable he⟩
  · intro hx
    have h := p.lists_literalTable profile
    obtain ⟨e, he, hidentity⟩ := List.mem_map.1 (h.covers _ hx)
    have hvalue : e.value = l := Literal.identity_injective
      (Profile.isFinite_of_admits (admits_of_mem_literalTable he))
      (Profile.isFinite_of_admits (List.mem_filter.1 hx).2) hidentity
    exact ⟨e, he, hvalue, (h.entries e he).mem_sites_iff.2 ⟨_, hx, hidentity.symm, rfl⟩⟩

end Program

/-! ## Places -/

/-- A part of a node is a place where no literal is looked for. -/
inductive Form.Bars : Form → List Tree → Nat → Prop
  | propertyKey {info : PropertyInfo} {ps : List Tree} : Bars (.property info) ps 0
  | bindingKey {shorthand computed : Bool} {ps : List Tree} : Bars (.bindingProperty shorthand computed) ps 0
  | targetKey {computed : Bool} {ps : List Tree} : Bars (.targetProperty computed) ps 0
  | methodKey {kind : MethodKind} {info : MemberInfo} {ps : List Tree} : Bars (.method kind info) ps 1
  | fieldKey {info : MemberInfo} {ps : List Tree} : Bars (.field info) ps 1
  | propertySignatureKey {computed optional readonly : Bool} {ps : List Tree} :
    Bars (.propertySignature computed optional readonly) ps 0
  | methodSignatureKey {kind : PropertyKind} {computed optional : Bool} {ps : List Tree} :
    Bars (.methodSignature kind computed optional) ps 0
  | enumMember {computed : Bool} {ps : List Tree} {i : Nat} : Bars (.enumMember computed) ps i
  | importCall {phase : Option String} {ps : List Tree} {i : Nat} : Bars (.importCall phase) ps i
  | requireCall {optional : Bool} {ps : List Tree} {i : Nat} :
    Bars (.call optional) (.reference "require" :: ps) i
  | withBody {ps : List Tree} {i : Nat} : Bars .with ps (i + 1)
  | importSource {typeOnly : Bool} {phase : Option String} {ps : List Tree} {i : Nat} :
    Bars (.import typeOnly phase) ps i
  | aliasSource {ps : List Tree} {i : Nat} : Bars .externalModule ps i
  | exportSource {typeOnly : Bool} {ps : List Tree} {i : Nat} : Bars (.exportNamed typeOnly) ps (i + 2)
  | exportAllSource {typeOnly : Bool} {ps : List Tree} {i : Nat} : Bars (.exportAll typeOnly) ps i

/-- Whether a part of a node says what is imported or exported, and from where. -/
def Form.holdsSource : Form → Nat → Bool
  | .import _ _, _ => true
  | .externalModule, _ => true
  | .exportNamed _, i => 2 ≤ i
  | .exportAll _, _ => true
  | _, _ => false

theorem Form.bars_iff {f : Form} {ps : List Tree} {i : Nat} :
    f.Bars ps i ↔ f.isSearched ps i = false ∨ f.holdsSource i = true := by
  constructor
  · intro h
    cases h with
    | importSource | aliasSource | exportAllSource => exact .inr rfl
    | @exportSource _ _ i => exact .inr (decide_eq_true (Nat.le_add_left 2 i))
    | _ => exact .inl rfl
  · rintro (h | h)
    · unfold isSearched at h
      split at h
      case h_10 =>
        rw [bne_eq_false_iff_eq] at h
        rw [h]
        exact .requireCall
      case h_11 =>
        cases i with
        | zero => cases h
        | succ i => exact .withBody
      case h_8 => exact .enumMember
      case h_9 => exact .importCall
      case h_12 => cases h
      all_goals
        obtain rfl := bne_eq_false_iff_eq.1 h
        constructor
    · unfold holdsSource at h
      split at h
      · exact .importSource
      · exact .aliasSource
      · obtain ⟨j, rfl⟩ := Nat.exists_eq_add_of_le' (of_decide_eq_true h)
        exact .exportSource
      · exact .exportAllSource
      · cases h

/-- Sources are clauses of the module interface. -/
theorem Form.isClause_of_holdsSource {f : Form} {ps : List Tree} (hfits : f.Fits ps) {i : Nat} {p : Tree}
    (hp : ps[i]? = some p) (h : f.holdsSource i = true) : p.isClause = true := by
  unfold holdsSource at h
  split at h
  · exact Tree.allClauses_iff.1 hfits.2 p (List.mem_of_getElem? hp)
  · exact Tree.allClauses_iff.1 hfits p (List.mem_of_getElem? hp)
  · obtain ⟨j, rfl⟩ := Nat.exists_eq_add_of_le (of_decide_eq_true h)
    rw [← List.getElem?_drop] at hp
    exact Tree.allClauses_iff.1 hfits p (List.mem_of_getElem? hp)
  · exact Tree.allClauses_iff.1 hfits p (List.mem_of_getElem? hp)
  · cases h

/-- The forms of types and of what declares them. -/
def Form.isType : Form → Bool
  | .typeAlias _ | .interface _ | .keywordType _ | .thisType | .typeRef | .qualified | .typeQuery
  | .typeLiteral | .arrayType | .indexedType | .tupleType | .optionalType | .restType | .namedMember _
  | .unionType | .intersectionType | .parenType | .conditionalType | .inferType | .operatorType _
  | .mappedType _ _ | .literalType | .numberType _ | .templateType _ | .functionType | .constructorType _
  | .importType | .predicate _ | .typeParams | .typeParam _ | .typeArgs | .nullableType _
  | .propertySignature _ _ _ | .methodSignature _ _ _ | .callSignature | .constructSignature
  | .indexSignature _ _ _ => true
  | _ => false

namespace Tree

/-- A tree stands in another one at a place that is not left out; `typed` tells whether that is in a type. -/
inductive Stands : Bool → Tree → Tree → Prop
  | here {t : Tree} : Stands false t t
  | inside {f : Form} {ps : List Tree} {i : Nat} {p t : Tree} {typed : Bool} :
    ps[i]? = some p → ¬ f.Bars ps i → Stands typed p t → Stands (f.isType || typed) (.node f ps) t

/-- Whatever else stands in a type is in a type. -/
theorem Stands.eq_of_isType {f : Form} {ps : List Tree} {t : Tree} {typed : Bool}
    (h : Stands typed (.node f ps) t) (hf : f.isType = true) (htyped : typed = false) : t = .node f ps := by
  cases h with
  | here => rfl
  | inside => simp [hf] at htyped

theorem mem_literalsOf_iff {x : Literal × Nat} {f : Form} {all ts : List Tree} {i : Nat} :
    x ∈ literalsOf f all i ts ↔ ∃ j t, ts[j]? = some t ∧ f.isSearched all (i + j) = true ∧ x ∈ t.literals := by
  refine ⟨mem_literalsOf, ?_⟩
  rintro ⟨j, t, ht, hsearched, hx⟩
  induction ts generalizing i j with
  | nil => cases ht
  | cons u ts ih =>
    cases j with
    | zero =>
      cases ht
      rw [Nat.add_zero] at hsearched
      rw [literalsOf, if_pos hsearched]
      exact List.mem_append_left _ hx
    | succ j =>
      rw [literalsOf]
      refine List.mem_append_right _ (ih j ht ?_)
      rwa [Nat.add_right_comm i 1 j]

/-- A clause of the module interface has no literals. -/
theorem literals_of_isClause : ∀ {t : Tree}, t.isClause = true → t.literals = []
  | .node f ps, h => by
    refine List.eq_nil_iff_forall_not_mem.2 fun x hx => ?_
    obtain ⟨i, p, hp, -, hx⟩ := mem_literalsOf_iff.1 hx
    have := List.mem_of_getElem? hp
    rw [isClause, Bool.and_eq_true] at h
    rw [literals_of_isClause (allClauses_iff.1 h.2 p this)] at hx
    exact List.not_mem_nil hx
  | .string _, h | .number _, h => by cases h
  | .absent, _ | .binding _, _ | .reference _, _ | .name _, _ | .markupName _, _ | .label _, _
  | .privateName _, _ | .quoted _, _ => rfl

theorem mem_literals_node {x : Literal × Nat} {f : Form} {ps : List Tree} (hfits : f.Fits ps) :
    x ∈ (Tree.node f ps).literals ↔ ∃ (i : Nat) (p : Tree), ps[i]? = some p ∧ ¬ f.Bars ps i ∧ x ∈ p.literals := by
  rw [literals, mem_literalsOf_iff]
  simp only [Nat.zero_add, Form.bars_iff, not_or, Bool.not_eq_false, Bool.not_eq_true]
  refine exists_congr fun i => exists_congr fun p => and_congr_right fun hp => ?_
  refine ⟨fun ⟨hsearched, hx⟩ => ⟨⟨hsearched, ?_⟩, hx⟩, fun ⟨hsearched, hx⟩ => ⟨hsearched.1, hx⟩⟩
  rw [← Bool.not_eq_true]
  intro hsource
  rw [literals_of_isClause (Form.isClause_of_holdsSource hfits hp hsource)] at hx
  exact List.not_mem_nil hx

theorem exists_stands {l : Literal} {site : Nat} : ∀ {t : Tree}, t.Shaped → (l, site) ∈ t.literals →
    ∃ typed u, Stands typed t u ∧ u.value? = some l ∧ u.offset? = some site
  | .string lit, _, h => by
    cases List.mem_singleton.1 h
    exact ⟨_, _, .here, rfl, rfl⟩
  | .number lit, _, h => by
    cases List.mem_singleton.1 h
    exact ⟨_, _, .here, rfl, rfl⟩
  | .node f ps, hshaped, h => by
    obtain ⟨i, p, hp, hbars, hx⟩ := (mem_literals_node hshaped.1).1 h
    have := List.mem_of_getElem? hp
    obtain ⟨typed, u, hu, hrest⟩ := exists_stands (allShaped_iff.1 hshaped.2 p this) hx
    exact ⟨_, u, .inside hp hbars hu, hrest⟩
  | .absent, _, h | .binding _, _, h | .reference _, _, h | .name _, _, h | .markupName _, _, h
  | .label _, _, h | .privateName _, _, h | .quoted _, _, h => absurd h List.not_mem_nil

/-- **The literals of a tree are those that stand at no place left out.** -/
theorem mem_literals_iff {l : Literal} {site : Nat} {t : Tree} (h : t.Shaped) :
    (l, site) ∈ t.literals ↔ ∃ typed u, Stands typed t u ∧ u.value? = some l ∧ u.offset? = some site := by
  refine ⟨exists_stands h, ?_⟩
  rintro ⟨typed, u, hstands, hvalue, hoffset⟩
  induction hstands with
  | @here t =>
    cases t with
    | string lit | number lit =>
      cases hvalue
      cases hoffset
      exact List.mem_singleton.2 rfl
    | _ => cases hvalue
  | inside hp hbars _ ih =>
    have hx := ih (allShaped_iff.1 h.2 _ (List.mem_of_getElem? hp)) hvalue hoffset
    exact (mem_literals_node h.1).2 ⟨_, _, hp, hbars, hx⟩

mutual

/-- What is collected stands at offsets of its own, since all literals do. -/
theorem literals_sublist : ∀ t : Tree, (t.literals.map Prod.snd).Sublist t.offsets
  | .node f ps => literalsOf_sublist f ps 0 ps
  | .string _ | .number _ => List.Sublist.refl _
  | .absent | .binding _ | .reference _ | .name _ | .markupName _ | .label _ | .privateName _
  | .quoted _ => List.Sublist.refl _

theorem literalsOf_sublist (f : Form) (all : List Tree) (i : Nat) :
    ∀ ts : List Tree, ((literalsOf f all i ts).map Prod.snd).Sublist (offsetsOf ts)
  | [] => List.Sublist.refl _
  | t :: ts => by
    rw [literalsOf, List.map_append, offsetsOf]
    refine List.Sublist.append ?_ (literalsOf_sublist f all (i + 1) ts)
    split
    · exact literals_sublist t
    · exact List.nil_sublist _

end

end Tree

namespace Program

/-- A tree stands in a program at a place that is not left out. -/
def Stands (p : Program) (typed : Bool) (t : Tree) : Prop := ∃ s ∈ p.statements, s.Stands typed t

theorem mem_literals_iff {p : Program} {l : Literal} {site : Nat} (h : Tree.AllShaped p.statements) :
    (l, site) ∈ p.literals ↔ ∃ typed t, p.Stands typed t ∧ t.value? = some l ∧ t.offset? = some site := by
  have hshaped := Tree.allShaped_iff.1 h
  constructor
  · intro hx
    obtain ⟨i, s, hs, -, hx⟩ := Tree.mem_literalsOf_iff.1 hx
    have hmem := List.mem_of_getElem? hs
    obtain ⟨typed, t, ht, hrest⟩ := (Tree.mem_literals_iff (hshaped s hmem)).1 hx
    exact ⟨typed, t, ⟨s, hmem, ht⟩, hrest⟩
  · rintro ⟨typed, t, ⟨s, hs, ht⟩, hrest⟩
    obtain ⟨i, hi⟩ := List.getElem?_of_mem hs
    have hx := (Tree.mem_literals_iff (hshaped s hs)).2 ⟨typed, t, ht, hrest⟩
    exact Tree.mem_literalsOf_iff.2 ⟨i, s, hi, rfl, hx⟩

/-- No two literals of a program are recorded at the same site. -/
theorem nodup_sites {text : String} {d : Dialect} {p : Program} (h : Program.parse? text d = some p)
    (profile : Profile) : ((p.literalTable profile).flatMap LiteralEntry.sites).Nodup := by
  have hfound : ((p.found profile).map Prod.snd).Sublist (Tree.offsetsOf p.statements) :=
    (List.filter_sublist.map _).trans (Tree.literalsOf_sublist _ _ _ _)
  exact (p.lists_literalTable profile).nodup_sites ((nodup_offsets h).sublist hfound)

/-- **The literal table of a parsed program is keyed**: by identity, and by site. -/
theorem keyed_literalTable {text : String} {d : Dialect} {p : Program} (h : Program.parse? text d = some p)
    (profile : Profile) : (p.literalTable profile).Keyed where
  identities := (p.lists_literalTable profile).identities
  written e he := ((p.lists_literalTable profile).entries e he).written
  apart := (List.nodup_flatMap.1 (nodup_sites h profile)).2

end Program

theorem Profile.admits_iff {profile : Profile} {l : Literal} : profile.admits l = true ↔
    (∃ s, l = .string s ∧ profile.minStringLength ≤ s.length) ∨
      ∃ x, l = .number x ∧ x.isFinite = true ∧ Double.le profile.minNumberMagnitude x.abs = true := by
  cases l with
  | string s => simp [admits]
  | number x => simp [admits]

/-- **The literal table has the large literals of a program, each of them once.**  A string is large by
its length and a finite number by its magnitude.  A literal is in the table, with its value and its site,
exactly when it stands at no place that is left out, outside of types or in one.  There is one entry for
each identity, no site occurs twice in the table, and what an entry says of its occurrences is the number
of its sites. -/
theorem collected_iff {text : String} {d : Dialect} {p : Program} (h : Program.parse? text d = some p)
    (profile : Profile) :
    (∀ l site, (∃ e ∈ p.literalTable profile, e.value = l ∧ site ∈ e.sites) ↔
      ((∃ s, l = .string s ∧ profile.minStringLength ≤ s.length) ∨
        ∃ x, l = .number x ∧ x.isFinite = true ∧ Double.le profile.minNumberMagnitude x.abs = true) ∧
      ∃ typed t, p.Stands typed t ∧ t.value? = some l ∧ t.offset? = some site) ∧
    ((p.literalTable profile).map fun e => e.value.identity).Nodup ∧
    ((p.literalTable profile).flatMap LiteralEntry.sites).Nodup ∧
    ∀ e ∈ p.literalTable profile, e.occurrences = e.sites.length := by
  have hlists := p.lists_literalTable profile
  refine ⟨fun l site => ?_, hlists.identities, Program.nodup_sites h profile,
    fun e he => (hlists.entries e he).occurrences⟩
  rw [Program.mem_found_iff, Program.found, List.mem_filter, Profile.admits_iff,
    Program.mem_literals_iff (Program.shaped_of_parse? h), and_comm]

/-- The program `f({"quoted-key":"loading-spinner"},require("library-name"));`. -/
def Program.withSpinner : Program where
  statements :=
    [.node .expression
      [.node (.call false)
        [.reference "f", .absent,
         .group
          [.node (.object false)
            [.node (.property {})
              [.string { value := "quoted-key", start := 3 },
               .string { value := "loading-spinner", start := 16 }]],
           .node (.call false)
            [.reference "require", .absent, .group [.string { value := "library-name", start := 43 }]]]]]]

theorem Program.parse?_withSpinner :
    Program.parse? "f(\x7b\"quoted-key\":\"loading-spinner\"\x7d,require(\"library-name\"));" {} =
      some .withSpinner := by
  decide +kernel

/-- Of three strings the one that is neither a key nor an argument of `require` is collected. -/
theorem collected_iff_value :
    Program.parse? "f(\x7b\"quoted-key\":\"loading-spinner\"\x7d,require(\"library-name\"));" {} =
        some .withSpinner ∧
      ∃ e ∈ Program.withSpinner.literalTable .balanced,
        e.value = .string "loading-spinner" ∧ 16 ∈ e.sites ∧ e.occurrences = e.sites.length := by
  obtain ⟨hsites, -, -, hoccurrences⟩ := collected_iff Program.parse?_withSpinner .balanced
  -- The way to the string leads through the call, its arguments and the object.
  have hstands : Program.withSpinner.Stands false
      (.string { value := "loading-spinner", start := 16 }) := by
    refine ⟨_, List.mem_singleton.2 rfl, ?_⟩
    refine .inside (f := .expression) (i := 0) rfl nofun ?_
    refine .inside (f := .call false) (i := 2) rfl (by rw [Form.bars_iff]; decide) ?_
    refine .inside (f := .group) (i := 0) rfl nofun ?_
    refine .inside (f := .object false) (i := 0) rfl nofun ?_
    exact .inside (f := .property {}) (i := 1) rfl nofun .here
  obtain ⟨e, he, hvalue, hsite⟩ := (hsites (.string "loading-spinner") 16).2
    ⟨.inl ⟨_, rfl, by decide +kernel⟩, false, _, hstands, rfl, rfl⟩
  exact ⟨Program.parse?_withSpinner, e, he, hvalue, hsite, hoccurrences e he⟩

/-- The program `type A=-5000;`. -/
def Program.withNegativeType : Program where
  statements :=
    [.node (.typeAlias false)
      [.binding "A", .absent,
       .node .literalType
        [.node (.unary .minus)
          [.number { value := .finite false 5497558138880000 (-40) (by decide), raw := "5000", start := 8 }]]]]

theorem Program.parse?_withNegativeType :
    Program.parse? "type A=-5000;" { jsx := false, typescript := true } = some .withNegativeType := by
  decide +kernel

/-- **The number of a negative type is collected**, although a type is no place for an expression. -/
theorem negative_type_collected :
    Program.parse? "type A=-5000;" { jsx := false, typescript := true } = some .withNegativeType ∧
      (∃ e ∈ Program.withNegativeType.literalTable .balanced, 8 ∈ e.sites) ∧
      ∀ t, Program.withNegativeType.Stands false t → t.offset? ≠ some 8 := by
  refine ⟨Program.parse?_withNegativeType, by decide +kernel, ?_⟩
  rintro t ⟨s, hs, ht⟩
  obtain rfl := List.mem_singleton.1 hs
  rw [ht.eq_of_isType rfl rfl]
  exact nofun

end Abridge
