import Abridge.Names.Survey
import Abridge.Proofs.Offsets
import Abridge.Syntax.Parse
import Mathlib.Logic.Basic

/-!
# The shape of trees that were read

A tree is a form with a list of parts, and nothing in its type says which parts a form may have.  The
survey of a module does not look everywhere: it takes the names of an import from its specifiers, it
never walks the parts of an export specifier or the key of a property in short form, and what it finds
is complete only because the grammar builds these forms in one way.  `Form.Fits` says what that way
is, and `Tree.Shaped` says it of a whole tree.  A tree that was read has its literals from the text on top
of that (`Tree.Read`).

That every tree that is read is so is shown along the grammar, one fact for each of its functions
(`Abridge.Proofs.Grammar`).  Nearly all of them only put together what other rules gave, so the facts
are instances of a class and are found by search: `Expectation` says what a result of a given type has
to be, `Meets` that a value is so, and `Parse.Yields` that a reading gives only such values and stays in
the text.  A reading of a word, a flag or a token promises nothing but the latter.

## What is here

* `Tree.leafNames`: the names at the leaves of a tree that are resolved.
* `Form.Fits`, `Tree.Shaped`, `Tree.Read`: the shape, and where the literals come from.
* `Parse.Gives`, `Parse.Yields`: what a reading gives, for rules that give such trees.
-/

set_option autoImplicit false

namespace Abridge

namespace Tree

/-! ## Leaves -/

mutual

/-- The names that are introduced or used in a tree, in source order. -/
def leafNames : Tree → List String
  | .binding n => [n]
  | .reference n => [n]
  | .node _ ps => leafNamesOf ps
  | _ => []

/-- The names that are introduced or used in trees, in source order. -/
def leafNamesOf : List Tree → List String
  | [] => []
  | t :: ts => t.leafNames ++ leafNamesOf ts

end

theorem mem_leafNamesOf {n : String} {ts : List Tree} :
    n ∈ leafNamesOf ts ↔ ∃ t ∈ ts, n ∈ t.leafNames := by
  induction ts with
  | nil => simp [leafNamesOf]
  | cons t ts ih => simp [leafNamesOf, ih]

/-- Whether a tree is a literal that a plan may replace. -/
def isLiteral : Tree → Bool
  | .string _ => true
  | .number _ => true
  | _ => false

/-- The forms that the clauses of imports and export specifiers are made of. -/
def isClauseForm : Form → Bool
  | .group | .importDefault | .importAll | .importNamed _ | .attributes _ | .attributeEntry => true
  | _ => false

mutual

/-- Whether a tree has no forms but those of clauses, and no literal. -/
def isClause : Tree → Bool
  | .node f ps => isClauseForm f && allClauses ps
  | .string _ | .number _ => false
  | _ => true

/-- Whether trees have no forms but those of clauses, and no literals. -/
def allClauses : List Tree → Bool
  | [] => true
  | t :: ts => t.isClause && allClauses ts

end

theorem allClauses_iff {ts : List Tree} : allClauses ts = true ↔ ∀ t ∈ ts, t.isClause = true := by
  induction ts with
  | nil => simp [allClauses]
  | cons t ts ih => simp [allClauses, ih]

/-- The name that the value of a short form has: a name may have a default with it. -/
def shortName? : Tree → Option String
  | .reference n => some n
  | .binding n => some n
  | .node .defaulted (.binding n :: _) => some n
  | _ => none

end Tree

/-! ## Shapes -/

/-- What the grammar guarantees of the parts of a form, as far as it matters for names. -/
@[reducible] def Form.Fits : Form → List Tree → Prop
  -- The names of an import are those that its specifiers introduce.
  | .import _ _, ps =>
    (∀ n ∈ Tree.leafNamesOf ps, n ∈ Tree.introducedNames (.node (.import false none) ps)) ∧
      Tree.allClauses ps = true
  | .exportSpecifier _, ps =>
    ∃ l e, ps = [l, e] ∧ (∀ n ∈ l.leafNames, n ∈ l.exportedLocal) ∧ e.leafNames = [] ∧
      Tree.allClauses ps = true
  -- What an export or an alias comes from is a text, and its attributes are texts.
  | .exportNamed _, ps => Tree.allClauses (ps.drop 2) = true
  | .exportAll _, ps => Tree.allClauses ps = true
  | .externalModule, ps => Tree.allClauses ps = true
  -- A short form has a plain name as its key and the same name as its value, and no literal.
  | .property info, ps =>
    match info.shorthand with
    | true => ∃ n v, ps = [.name n, v] ∧ v.isLiteral = false ∧ ∀ m, v.shortName? = some m → m = n
    | false => True
  | .bindingProperty true _, ps =>
    ∃ n v, ps = [.name n, v] ∧ v.isLiteral = false ∧ ∀ m, v.shortName? = some m → m = n
  -- So does a short form that becomes a target.
  | .coverDefault, ps => ∀ t, ps.head? = some t → t.isLiteral = false
  | .targetShorthand, ps => ∀ t, ps.head? = some t → t.isLiteral = false
  -- What is used as a type or as its container is a name.
  | .typeRef, ps => ∀ t, ps.head? = some t → t.isLiteral = false
  | .qualified, ps => ∀ t, ps.head? = some t → t.isLiteral = false
  -- A member in brackets is a text.
  | .enumMember true, ps => ∀ n, ps.head? ≠ some (.name n)
  | _, _ => True

namespace Tree

mutual

/-- Every form in the tree fits its parts. -/
def Shaped : Tree → Prop
  | .node f ps => f.Fits ps ∧ AllShaped ps
  | _ => True

/-- Every form in the trees fits its parts. -/
def AllShaped : List Tree → Prop
  | [] => True
  | t :: ts => t.Shaped ∧ AllShaped ts

end

theorem allShaped_iff {ts : List Tree} : AllShaped ts ↔ ∀ t ∈ ts, t.Shaped := by
  induction ts with
  | nil => simp [AllShaped]
  | cons t ts ih => simp [AllShaped, ih]

end Tree

/-! ## Trees that were read -/

/-- The text that is read; all that is said about the grammar is said about one. -/
class Original where
  text : List Char

section

variable [Original]

namespace Tree

mutual

/-- A tree as the grammar gives it: every form fits its parts, and every literal is what the text says at
its offset. -/
def Read : Tree → Prop
  | .node f ps => f.Fits ps ∧ AllRead ps
  | .string lit => lit.IsIn Original.text
  | .number lit => lit.IsIn Original.text
  | _ => True

/-- Trees as the grammar gives them. -/
def AllRead : List Tree → Prop
  | [] => True
  | t :: ts => t.Read ∧ AllRead ts

end

theorem allRead_iff {ts : List Tree} : AllRead ts ↔ ∀ t ∈ ts, t.Read := by
  induction ts with
  | nil => simp [AllRead]
  | cons t ts ih => simp [AllRead, ih]

mutual

theorem Read.shaped : ∀ {t : Tree}, t.Read → t.Shaped
  | .node _ _, h => ⟨h.1, AllRead.shaped h.2⟩
  | .absent, _ | .binding _, _ | .reference _, _ | .name _, _ | .markupName _, _ | .label _, _
  | .privateName _, _ | .string _, _ | .number _, _ | .quoted _, _ => trivial

theorem AllRead.shaped : ∀ {ts : List Tree}, AllRead ts → AllShaped ts
  | [], _ => trivial
  | _ :: _, h => ⟨h.1.shaped, AllRead.shaped h.2⟩

end

end Tree

/-- A state of the reader whose token is from the text. -/
def State.InText (s : State) : Prop := s.reading.StandsIn Original.text

/-! ## What is expected of results -/

/-- What a result of a type has to be. -/
class Expectation (α : Type) where
  meets : α → Prop

/-- A value is as it has to be. -/
class Meets {α : Type} [Expectation α] (a : α) : Prop where
  meets : Expectation.meets a

/-- The values of a type that are as they have to be. -/
abbrev Met (α : Type) [Expectation α] : Type := { a : α // Expectation.meets a }

instance {α : Type} [Expectation α] (a : Met α) : Meets a.val := ⟨a.property⟩

/-- Nothing is expected of a value without trees. -/
instance (priority := low) noExpectation {α : Type} : Expectation α := ⟨fun _ => True⟩

instance {α : Type} (a : α) : @Meets α noExpectation a := ⟨trivial⟩

instance : Expectation Tree := ⟨Tree.Read⟩

instance : Expectation (List Tree) := ⟨Tree.AllRead⟩

instance {α β : Type} [Expectation α] [Expectation β] : Expectation (α × β) :=
  ⟨fun x => Expectation.meets x.1 ∧ Expectation.meets x.2⟩

instance {α β : Type} [Expectation α] [Expectation β] : Expectation (α ⊕ β) :=
  ⟨Sum.elim Expectation.meets Expectation.meets⟩

instance expectOption {α : Type} [Expectation α] : Expectation (Option α) :=
  ⟨fun x => ∀ a, x = some a → Expectation.meets a⟩

section

variable {α β : Type} [Expectation α] [Expectation β]

instance {a : α} {b : β} [ha : Meets a] [hb : Meets b] : Meets (a, b) := ⟨ha.meets, hb.meets⟩

instance {x : α × β} [hx : Meets x] : Meets x.1 := ⟨hx.meets.1⟩

instance {x : α × β} [hx : Meets x] : Meets x.2 := ⟨hx.meets.2⟩

instance {a : α} [ha : Meets a] : Meets (Sum.inl a : α ⊕ β) := ⟨ha.meets⟩

instance {b : β} [hb : Meets b] : Meets (Sum.inr b : α ⊕ β) := ⟨hb.meets⟩

instance {α : Type} (x : Option α) : @Meets (Option α) (@expectOption α noExpectation) x :=
  ⟨fun _ _ => trivial⟩

instance : Meets (none : Option α) := ⟨fun _ h => by cases h⟩

instance {a : α} [ha : Meets a] : Meets (some a) := ⟨fun _ h => by cases h; exact ha.meets⟩

instance {x : Option α} {a : α} [hx : Meets x] [ha : Meets a] : Meets (x.getD a) := by
  cases x with
  | none => exact ha
  | some b => exact ⟨hx.meets b rfl⟩

instance {c : Prop} [Decidable c] {a b : α} [ha : Meets a] [hb : Meets b] :
    Meets (if c then a else b) := by
  split
  · exact ha
  · exact hb

end

/-- The first component of a pair that is as it has to be. -/
def Met.first {α β : Type} [Expectation α] [Expectation β] (x : Met (α × β)) : Met α :=
  ⟨x.val.1, x.property.1⟩

/-- The second component of a pair that is as it has to be. -/
def Met.second {α β : Type} [Expectation α] [Expectation β] (x : Met (α × β)) : Met β :=
  ⟨x.val.2, x.property.2⟩

/-! ### Trees -/

instance factTrue : Fact True := ⟨trivial⟩

instance {f : Form} {ps : List Tree} [hf : Fact (f.Fits ps)] [hps : Meets ps] :
    Meets (Tree.node f ps) :=
  ⟨hf.out, hps.meets⟩

instance : Meets ([] : List Tree) := ⟨trivial⟩

instance {t : Tree} {ts : List Tree} [ht : Meets t] [hts : Meets ts] : Meets (t :: ts) :=
  ⟨ht.meets, hts.meets⟩

instance {ts ts' : List Tree} [hts : Meets ts] [hts' : Meets ts'] : Meets (ts ++ ts') := by
  refine ⟨Tree.allRead_iff.2 fun t ht => ?_⟩
  rcases List.mem_append.1 ht with ht | ht
  · exact Tree.allRead_iff.1 hts.meets t ht
  · exact Tree.allRead_iff.1 hts'.meets t ht

instance {ts : List Tree} [hts : Meets ts] : Meets ts.reverse :=
  ⟨Tree.allRead_iff.2 fun t ht => Tree.allRead_iff.1 hts.meets t (List.mem_reverse.1 ht)⟩

instance {ps : List Tree} [hps : Meets ps] : Meets (Tree.group ps) := ⟨trivial, hps.meets⟩

instance {t : Tree} [ht : Meets t] : Meets t.parts := by
  cases t with
  | node f ps => exact ⟨ht.meets.2⟩
  | _ => exact ⟨trivial⟩

instance : Meets Tree.absent := ⟨trivial⟩

instance {n : String} : Meets (Tree.binding n) := ⟨trivial⟩

instance {n : String} : Meets (Tree.reference n) := ⟨trivial⟩

instance {n : String} : Meets (Tree.name n) := ⟨trivial⟩

instance {n : String} : Meets (Tree.markupName n) := ⟨trivial⟩

instance {n : String} : Meets (Tree.label n) := ⟨trivial⟩

instance {n : String} : Meets (Tree.privateName n) := ⟨trivial⟩

instance {lit : StringLiteral} : Meets (Tree.quoted lit) := ⟨trivial⟩

-- Whoever makes a literal of the current token has to say that it is in the text.

instance {lit : StringLiteral} [h : Fact (lit.IsIn Original.text)] : Meets (Tree.string lit) :=
  ⟨h.out⟩

instance {lit : NumberLiteral} [h : Fact (lit.IsIn Original.text)] : Meets (Tree.number lit) :=
  ⟨h.out⟩

/-- The first part of a node that was read was read. -/
theorem Meets.head {f : Form} {t : Tree} {ts : List Tree} (h : Meets (Tree.node f (t :: ts))) :
    Meets t :=
  ⟨h.meets.2.1⟩

/-- The second part of a node that was read was read. -/
theorem Meets.second {f : Form} {t u : Tree} {ts : List Tree}
    (h : Meets (Tree.node f (t :: u :: ts))) : Meets u :=
  ⟨h.meets.2.2.1⟩

/-! ## Rules -/

/-- What a rule needs before it may be read by: what it is given was read. -/
@[reducible] def Rule.Ready : Rule → Prop
  | .class _ ds _ => ds.Read
  | _ => True

instance {expression : Bool} {ds : Tree} {ms : Modifiers} [h : Meets ds] :
    Fact (Rule.Ready (.class expression ds ms)) :=
  ⟨h.meets⟩

/-- Rules that give trees as they have to be, and stay in the text. -/
def RulesSound (rules : Rule → Step Tree) : Prop :=
  ∀ r, r.Ready → ∀ s t s', s.InText → rules r s = some (t, s') → t.Read ∧ s'.InText

namespace Parse

/-- A reading stays in the text and all its results have a property, as long as the rules are sound. -/
def Gives {α : Type} (p : Parse α) (Q : α → Prop) : Prop :=
  ∀ rules, RulesSound rules → ∀ s a s', s.InText → p rules s = some (a, s') → Q a ∧ s'.InText

/-- A reading stays in the text and all its results are as they have to be. -/
class Yields {α : Type} [Expectation α] (p : Parse α) : Prop where
  gives : p.Gives Expectation.meets

section

variable {α β γ δ : Type}

theorem Gives.mono {p : Parse α} {Q Q' : α → Prop} (h : p.Gives Q) (hQ : ∀ a, Q a → Q' a) :
    p.Gives Q' := by
  intro rules hrules s a s' hs hp
  have hgives := h rules hrules s a s' hs hp
  exact ⟨hQ a hgives.1, hgives.2⟩

/-- Of some results nothing has to be known. -/
theorem Gives.any [Expectation α] (p : Parse α) [hp : Yields p] : p.Gives fun _ => True :=
  hp.gives.mono fun _ _ => trivial

theorem Gives.pure {a : α} {Q : α → Prop} (h : Q a) : (Pure.pure a : Parse α).Gives Q := by
  intro rules _ s b s' hs hp
  have heq : some (a, s) = some (b, s') := hp
  cases heq
  exact ⟨h, hs⟩

theorem Gives.fail {Q : α → Prop} : (Parse.fail : Parse α).Gives Q :=
  fun _ _ _ _ _ _ hp => by cases hp

/-- What the state says, which does not change. -/
theorem Gives.get {Q : State → Prop} (h : ∀ s, s.InText → Q s) : (MonadState.get : Parse State).Gives Q := by
  intro rules _ s b s' hs hp
  have heq : some (s, s) = some (b, s') := hp
  cases heq
  exact ⟨h s hs, hs⟩

/-- A change of the state that stays in the text. -/
theorem Gives.change {f : State → State} (h : ∀ s, s.InText → (f s).InText) :
    (modify f : Parse Unit).Gives fun _ => True := by
  intro rules _ s b s' hs hp
  have heq : some ((), f s) = some (b, s') := hp
  cases heq
  exact ⟨trivial, h s hs⟩

omit [Original] in
/-- A reading that starts with another. -/
theorem bind_eq_some {p : Parse α} {f : α → Parse β} {rules : Rule → Step Tree} {s s' : State} {b : β} :
    (p >>= f) rules s = some (b, s') ↔ ∃ a s₁, p rules s = some (a, s₁) ∧ f a rules s₁ = some (b, s') := by
  change (p rules s).bind (fun x => f x.1 rules x.2) = some (b, s') ↔ _
  rw [Option.bind_eq_some_iff]
  constructor
  · rintro ⟨⟨a, s₁⟩, hp, hf⟩
    exact ⟨a, s₁, hp, hf⟩
  · rintro ⟨a, s₁, hp, hf⟩
    exact ⟨(a, s₁), hp, hf⟩

theorem Gives.bind {p : Parse α} {f : α → Parse β} {Q : α → Prop} {Q' : β → Prop} (h : p.Gives Q)
    (hf : ∀ a, Q a → (f a).Gives Q') : (p >>= f).Gives Q' := by
  intro rules hrules s b s' hs hp
  obtain ⟨a, s₁, hp, hfa⟩ := bind_eq_some.1 hp
  obtain ⟨ha, hs₁⟩ := h rules hrules s a s₁ hs hp
  exact hf a ha rules hrules s₁ b s' hs₁ hfa

/-- What a loop keeps at every turn, and gives at the last. -/
theorem Gives.repeatAtMost {I : α → Prop} {Q : β → Prop} {step : α → Parse (α ⊕ β)}
    (hstep : ∀ a, I a → (step a).Gives (Sum.elim I Q)) :
    ∀ n a, I a → (Parse.repeatAtMost step n a).Gives Q
  | 0, _, _ => .fail
  | n + 1, a, ha => by
    refine (hstep a ha).bind fun x hx => ?_
    cases x with
    | inl a => exact repeatAtMost hstep n a hx
    | inr b => exact .pure hx

theorem Gives.iterate {I : α → Prop} {Q : β → Prop} {a : α} {step : α → Parse (α ⊕ β)} (ha : I a)
    (hstep : ∀ a, I a → (step a).Gives (Sum.elim I Q)) : (Parse.iterate a step).Gives Q :=
  (Gives.get fun _ _ => trivial).bind fun _ (_ : True) => .repeatAtMost hstep _ a ha

theorem Gives.within {p : Parse α} {Q : α → Prop} {change : Setting → Setting} (h : p.Gives Q) :
    (Parse.within change p).Gives Q := by
  have hsetting : Parse.setting.Gives fun _ => True :=
    (Gives.get fun _ _ => trivial).bind fun _ (_ : True) => .pure trivial
  refine hsetting.bind fun saved _ => Gives.bind (.change ?_) fun _ _ => h.bind fun a ha =>
    Gives.bind (.change ?_) fun _ _ => .pure ha
  · exact fun _ hs => hs
  · exact fun _ hs => hs

theorem Gives.many {p : Parse α} {Q : α → Prop} (h : p.Gives Q) {more : Parse Bool}
    (hmore : more.Gives fun _ => True) : (Parse.many more p).Gives fun as => ∀ a ∈ as, Q a := by
  refine .iterate (I := fun as => ∀ a ∈ as, Q a) (by simp) fun items hitems => ?_
  refine hmore.bind fun goOn _ => ?_
  split
  · exact h.bind fun a ha => .pure (List.forall_mem_cons.2 ⟨ha, hitems⟩)
  · exact .pure fun a ha => hitems a (List.mem_reverse.1 ha)

theorem Gives.attempt {p : Parse α} {Q : α → Prop} (h : p.Gives Q) :
    (Parse.attempt p).Gives fun x => ∀ a, x = some a → Q a := by
  intro rules hrules s x s' hs hp
  unfold Parse.attempt at hp
  split at hp
  · rename_i b s₁ hpb
    cases hp
    have hgives := h rules hrules s b _ hs hpb
    exact ⟨fun a ha => Option.some_inj.1 ha ▸ hgives.1, hgives.2⟩
  · cases hp
    exact ⟨by simp, hs⟩

/-- Looking ahead does not move. -/
theorem Gives.lookahead? {p : Parse α} {Q : α → Prop} (h : p.Gives Q) :
    (Parse.lookahead? p).Gives fun x => ∀ a, x = some a → Q a := by
  intro rules hrules s x s' hs hp
  unfold Parse.lookahead? at hp
  split at hp
  · rename_i b s₁ hpb
    cases hp
    exact ⟨fun a ha => Option.some_inj.1 ha ▸ (h rules hrules _ b s₁ hs hpb).1, hs⟩
  · cases hp
    exact ⟨by simp, hs⟩

/-- A literal that is the current token is in the text. -/
@[reducible] def IsTokenAt (start : Nat) : Token → Prop
  | .string lit _ => lit.IsIn Original.text
  | .number value raw => NumberLiteral.IsIn Original.text ⟨value, raw, start⟩
  | _ => True

/-- A reading that looks at the current token and its offset. -/
theorem Gives.tokenAt {f : Nat → Token → Parse α} {Q : α → Prop}
    (hf : ∀ start t, IsTokenAt start t → (f start t).Gives Q) :
    (position >>= fun start => token >>= f start).Gives Q := by
  intro rules hrules s a s' hs hp
  have hfa : f s.reading.start.offset s.reading.token rules s = some (a, s') := hp
  refine hf _ _ ?_ rules hrules s a s' hs hfa
  cases htoken : s.reading.token with
  | string lit raw => exact hs.string htoken
  | number value raw => exact hs.number htoken
  | _ => trivial

variable [Expectation α] [Expectation β] [Expectation γ] [Expectation δ]

theorem Yields.bind {p : Parse α} {f : α → Parse β} [hp : Yields p]
    (hf : ∀ a : Met α, Yields (f a.val)) : Yields (p >>= f) :=
  ⟨hp.gives.bind fun a ha => (hf ⟨a, ha⟩).gives⟩

instance yields_pure {a : α} [ha : Meets a] : Yields (Pure.pure a : Parse α) := ⟨.pure ha.meets⟩

instance yields_fail : Yields (Parse.fail : Parse α) := ⟨.fail⟩

instance yields_call {r : Rule} [hr : Fact r.Ready] : Yields (Parse.call r) :=
  ⟨fun _ hrules s t s' hs h => hrules r hr.out s t s' hs h⟩

instance yields_bind {p : Parse α} {f : α → Parse β} [Yields p]
    [hf : ∀ a : Met α, Yields (f a.val)] : Yields (p >>= f) :=
  .bind hf

-- Results that are taken apart at once come as their components, so that the search can go on.

instance yields_bind_pair {p : Parse (α × β)} {f : α × β → Parse γ} [Yields p]
    [hf : ∀ (a : Met α) (b : Met β), Yields (f (a.val, b.val))] : Yields (p >>= f) :=
  .bind fun x : Met (α × β) => hf (Met.first x) (Met.second x)

instance yields_bind_triple {p : Parse (α × β × γ)} {f : α × β × γ → Parse δ} [Yields p]
    [hf : ∀ (a : Met α) (b : Met β) (c : Met γ), Yields (f (a.val, b.val, c.val))] :
    Yields (p >>= f) :=
  .bind fun x : Met (α × β × γ) =>
    hf (Met.first x) (Met.first (Met.second x)) (Met.second (Met.second x))

instance yields_bind_option {p : Parse (Option α)} {f : Option α → Parse β} [Yields p]
    [hnone : Yields (f none)] [hsome : ∀ a : Met α, Yields (f (some a.val))] : Yields (p >>= f) := by
  refine .bind fun x => ?_
  obtain ⟨x, hx⟩ := x
  cases x with
  | none => exact hnone
  | some a => exact hsome ⟨a, hx a rfl⟩

theorem Yields.ite {c : Prop} [Decidable c] {p q : Parse α} (hp : Yields p) (hq : Yields q) :
    Yields (if c then p else q) := by
  split
  · exact hp
  · exact hq

instance yields_ite {c : Prop} [Decidable c] {p q : Parse α} [hp : Yields p] [hq : Yields q] :
    Yields (if c then p else q) :=
  .ite hp hq

instance yields_some {p : Parse α} [hp : Yields p] : Yields (some <$> p) := by
  refine ⟨?_⟩
  have h : (p >>= fun a => Pure.pure (some a) : Parse (Option α)).Gives Expectation.meets :=
    hp.gives.bind fun a ha => .pure fun b hb => by cases hb; exact ha
  exact h

theorem Yields.iterate {a : α} {step : α → Parse (α ⊕ β)} [ha : Meets a]
    (hstep : ∀ a : Met α, Yields (step a.val)) : Yields (Parse.iterate a step) := by
  refine ⟨.iterate ha.meets fun a ha => ?_⟩
  exact (hstep ⟨a, ha⟩).gives

instance yields_iterate {a : α} {step : α → Parse (α ⊕ β)} [Meets a]
    [hstep : ∀ a : Met α, Yields (step a.val)] : Yields (Parse.iterate a step) :=
  .iterate hstep

instance yields_iterate_pair {x : α × β} {step : α × β → Parse (α × β ⊕ γ)} [Meets x]
    [hstep : ∀ (a : Met α) (b : Met β), Yields (step (a.val, b.val))] :
    Yields (Parse.iterate x step) :=
  .iterate fun y : Met (α × β) => hstep (Met.first y) (Met.second y)

instance yields_iterate_triple {x : α × β × γ} {step : α × β × γ → Parse (α × β × γ ⊕ δ)} [Meets x]
    [hstep : ∀ (a : Met α) (b : Met β) (c : Met γ), Yields (step (a.val, b.val, c.val))] :
    Yields (Parse.iterate x step) :=
  .iterate fun y : Met (α × β × γ) =>
    hstep (Met.first y) (Met.first (Met.second y)) (Met.second (Met.second y))

instance yields_many {more : Parse Bool} {item : Parse Tree} [Yields more] [h : Yields item] :
    Yields (Parse.many more item) :=
  ⟨(h.gives.many (.any more)).mono fun _ hts => Tree.allRead_iff.2 hts⟩

instance yields_andM {p q : Parse Bool} [Yields p] [hq : Yields q] : Yields (p <&&> q) := by
  refine .bind fun b => ?_
  split
  · exact hq
  · infer_instance

instance yields_many_words {more : Parse Bool} {item : Parse String} [Yields more] [h : Yields item] :
    Yields (Parse.many more item) :=
  ⟨(h.gives.many (.any more)).mono fun _ _ => trivial⟩

instance yields_within {change : Setting → Setting} {p : Parse α} [h : Yields p] :
    Yields (Parse.within change p) :=
  ⟨h.gives.within⟩

instance yields_withIn {p : Parse α} [h : Yields p] : Yields (Parse.withIn p) := ⟨h.gives.within⟩

instance yields_attempt {p : Parse α} [h : Yields p] : Yields (Parse.attempt p) :=
  ⟨h.gives.attempt⟩

instance yields_lookahead? {p : Parse α} [h : Yields p] : Yields (Parse.lookahead? p) :=
  ⟨h.gives.lookahead?⟩

end

/-! ## Reading tokens

Of flags, words and tokens nothing is expected, so their readings only have to stay in the text. -/

instance : Yields (get : Parse State) := ⟨.get fun _ _ => trivial⟩

instance : Yields fault := ⟨.change fun _ hs => hs⟩

instance {b : Bool} : Yields (faultIf b) := by unfold faultIf; infer_instance

instance {b : Bool} : Yields (require b) := by unfold require; infer_instance

instance {p : Parse Bool} [Yields p] : Yields (lookahead p) := by unfold lookahead; infer_instance

instance : Yields setting := by unfold setting; infer_instance

instance : Yields typed := by unfold typed; infer_instance

instance : Yields markup := by unfold markup; infer_instance

instance : Yields token := by unfold token; infer_instance

instance : Yields onNewLine := by unfold onNewLine; infer_instance

instance : Yields position := by unfold position; infer_instance

instance : Yields advance := ⟨.change fun _ hs => hs.after.next _⟩

/-- A token that is read again is no literal, and what follows it is still the text. -/
theorem yields_reread {mode : Source → Token × Source}
    (hmode : ∀ s, s.StandsIn Original.text →
      (mode s).1.isLiteral = false ∧ (mode s).2.StandsIn Original.text) : Yields (reread mode) := by
  refine ⟨.change fun s hs => ⟨hs.start, (hmode _ hs.start).2, fun hliteral => ?_⟩⟩
  exact absurd ((hmode _ hs.start).1.symm.trans hliteral) (by decide)

theorem yields_advanceBy {mode : Source → Source.Reading}
    (hmode : ∀ s, s.StandsIn Original.text → (mode s).StandsIn Original.text) :
    Yields (advanceBy mode) :=
  ⟨.change fun _ hs => hmode _ hs.after⟩

instance {p : String} : Yields (atPunct p) := by
  unfold atPunct
  refine .bind fun t => ?_
  split <;> infer_instance

instance {ps : List String} : Yields (atAny ps) := by
  unfold atAny
  refine .bind fun t => ?_
  split <;> infer_instance

instance {w : String} : Yields (atWord w) := by
  unfold atWord
  refine .bind fun t => ?_
  split <;> infer_instance

instance {ws : List String} : Yields (atWords ws) := by
  unfold atWords
  refine .bind fun t => ?_
  split <;> infer_instance

instance {p : String} : Yields (eat p) := by unfold eat; infer_instance

instance {w : String} : Yields (eatWord w) := by unfold eatWord; infer_instance

instance {p : String} : Yields (expect p) := by unfold expect; infer_instance

instance {w : String} : Yields (expectWord w) := by unfold expectWord; infer_instance

instance {test : Parse Bool} [Yields test] : Yields (nextIs test) := by
  unfold nextIs
  infer_instance

instance : Yields canEndStatement := by unfold canEndStatement; infer_instance

instance : Yields endStatement := by unfold endStatement; infer_instance

theorem Gives.separated {α : Type} {p : Parse α} {Q : α → Prop} (h : p.Gives Q) (close : String) :
    (Parse.separated close p).Gives fun x => ∀ a ∈ x.1, Q a := by
  refine .iterate (I := fun x => ∀ a ∈ x.1, Q a) (by simp) ?_
  rintro ⟨items, comma⟩ hitems
  refine (Gives.any _).bind fun closed _ => ?_
  split
  · exact .pure fun a ha => hitems a (List.mem_reverse.1 ha)
  · refine (Gives.any _).bind fun _ _ => h.bind fun a ha => (Gives.any _).bind fun more _ => .pure ?_
    exact List.forall_mem_cons.2 ⟨ha, hitems⟩

instance yields_separated {close : String} {item : Parse Tree} [h : Yields item] :
    Yields (Parse.separated close item) :=
  ⟨(h.gives.separated close).mono fun _ hts => ⟨Tree.allRead_iff.2 hts, trivial⟩⟩

instance : Yields joinAngle := by
  unfold joinAngle
  refine .bind fun angle => ?_
  have hjoined : Yields (reread fun s =>
      match angleOperators.find? (fun p => p.toList.isPrefixOf s.rest) with
      | some p => (.punct p, s.advance p.length)
      | none => (.punct ">", s.advance 1)) := by
    refine yields_reread fun s hs => ?_
    split
    · exact ⟨rfl, hs.advance _⟩
    · exact ⟨rfl, hs.advance _⟩
  infer_instance

/-- Reading an angle again takes it alone. -/
instance {p : String} : Yields (reread fun s => (.punct p, s.advance 1)) :=
  yields_reread fun _ hs => ⟨rfl, hs.advance 1⟩

instance : Yields splitAngle := by unfold splitAngle; infer_instance

instance : Yields expectClosingAngle := by
  unfold expectClosingAngle
  infer_instance

/-! ### Other modes -/

instance : Yields (reread Source.templateTail) := by
  refine yields_reread fun s hs => ?_
  unfold Source.templateTail
  dsimp only
  split
  · exact ⟨rfl, hs⟩
  · exact ⟨rfl, hs.advance _⟩

instance : Yields (reread Source.regex) := by
  refine yields_reread fun s hs => ?_
  unfold Source.regex
  dsimp only
  repeat' split
  all_goals first | exact ⟨rfl, hs⟩ | exact ⟨rfl, hs.advance _⟩

instance : Yields (reread Source.markupName) := by
  refine yields_reread fun s hs => ?_
  unfold Source.markupName
  dsimp only
  repeat' split
  all_goals first | exact ⟨rfl, hs⟩ | exact ⟨rfl, hs.advance _⟩

instance : Yields (advanceBy Source.markupChild) := yields_advanceBy fun _ hs => hs.markupChild

instance {script : Bool} : Yields (advanceBy (Source.attributeValue script)) :=
  yields_advanceBy fun _ hs => hs.attributeValue script

end Parse

end

end Abridge
