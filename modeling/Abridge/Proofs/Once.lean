import Abridge.Proofs.Shape
import Mathlib.Algebra.GroupWithZero.Nat

/-!
# Reading each literal once

An offset says which literal of a text is meant (`Abridge.Proofs.Offsets`); that it also says which leaf of
the tree is meant takes more: no rule of the grammar may put what it has read into a tree twice.  This is a
matter of counting.  One offset is watched, a result weighs as many literals at that offset as it has, and
the offset itself weighs one as long as it lies ahead of the reader.  Then a reading never gains weight:
what it gives, and what lies ahead after it, weigh no more than what it was given and what lay ahead
before.  A literal is paid for when the reader passes its token, since every token starts after the end of
the one before.

What a reading is given is a list of weights in hand, one for each tree that is in reach.  A result has to
be paid for out of that list, each weight being spent once, and what is left pays for what comes later.
This is found by search, as the shapes of trees are (`Abridge.Proofs.Shape`).

## What is here

* `Source.Forward`, `Source.Reading.Follows`: tokens move forward.
* `Tree.offsets`: the offsets of the literals of a tree.
* `Weighted`, `Takes`, `Pays`: weights of results, and how they are paid for.
* `Parse.Keeps`, `Parse.Uses`: readings that do not gain weight, for rules that do not.
-/

set_option autoImplicit false

namespace Abridge

namespace Source

/-! ## Reading moves forward -/

/-- A token ends no earlier than it starts, and a literal ends later. -/
structure Forward (s : Source) (r : Token × Source) : Prop where
  le : s.offset ≤ r.2.offset
  lt : r.1.isLiteral = true → s.offset < r.2.offset

variable {s : Source}

theorem offset_le_advance (s : Source) (n : Nat) : s.offset ≤ (s.advance n).offset :=
  Nat.le_add_right _ _

theorem offset_lt_advance {n : Nat} (hrest : s.rest ≠ []) (hn : n ≠ 0) :
    s.offset < (s.advance n).offset := by
  obtain ⟨rest, offset⟩ := s
  cases rest with
  | nil => exact absurd rfl hrest
  | cons c cs =>
    obtain ⟨n, rfl⟩ := Nat.exists_eq_succ_of_ne_zero hn
    have hsize := c.utf8Size_pos
    change offset < offset + byteLength (c :: cs.take n)
    rw [byteLength_cons]
    omega

theorem Forward.stay {t : Token} (ht : t.isLiteral = false) : s.Forward (t, s) :=
  ⟨Nat.le_refl _, fun h => absurd (ht.symm.trans h) (by decide)⟩

theorem Forward.plain {t : Token} (ht : t.isLiteral = false) (n : Nat) : s.Forward (t, s.advance n) :=
  ⟨offset_le_advance s n, fun h => absurd (ht.symm.trans h) (by decide)⟩

theorem Forward.literal (hrest : s.rest ≠ []) (t : Token) {n : Nat} (hn : n ≠ 0) :
    s.Forward (t, s.advance n) :=
  ⟨offset_le_advance s n, fun _ => offset_lt_advance hrest hn⟩

theorem forward_templateTail (s : Source) : s.Forward s.templateTail := by
  unfold templateTail
  dsimp only
  split
  · exact .stay rfl
  · exact .plain rfl _

theorem forward_word (s : Source) : s.Forward s.word := by
  unfold word
  dsimp only
  repeat' split
  all_goals first | exact .stay rfl | exact .plain rfl _

theorem forward_privateName (s : Source) : s.Forward s.privateName := by
  unfold privateName
  split
  · rename_i hword
    have hforward := (forward_word (s.advance 1)).le
    rw [hword] at hforward
    exact ⟨Nat.le_trans (offset_le_advance s 1) hforward, fun h => by cases h⟩
  · exact .stay rfl

theorem forward_punctuator (s : Source) : s.Forward s.punctuator := by
  unfold punctuator
  repeat' split
  all_goals first | exact .stay rfl | exact .plain rfl _

theorem forward_regex (s : Source) : s.Forward s.regex := by
  unfold regex
  dsimp only
  repeat' split
  all_goals first | exact .stay rfl | exact .plain rfl _

theorem forward_markupName (s : Source) : s.Forward s.markupName := by
  unfold markupName
  repeat' split
  all_goals first | exact .stay rfl | exact .plain rfl _

theorem forward_string (hrest : s.rest ≠ []) (quote : Char) : s.Forward (s.string quote) := by
  rcases string_cases s quote with hbad | ⟨lit, raw, n, hlit, -⟩
  · rw [hbad]
    exact .stay rfl
  · unfold string
    dsimp only
    split
    · exact .stay rfl
    · exact .literal hrest _ (by omega)

/-! ### Numbers -/

theorem forward_radixNumber (hrest : s.rest ≠ []) (base : Nat) (isDigit : Char → Bool) :
    s.Forward (s.radixNumber base isDigit) := by
  unfold radixNumber
  dsimp only
  repeat' split
  all_goals first | exact .stay rfl | exact .plain rfl _ | exact .literal hrest _ (by omega)

/-- A decimal number has digits before its point, or starts with the point. -/
theorem forward_decimalTail (hrest : s.rest ≠ []) (whole : List Char) {used : Nat}
    (hused : used ≠ 0 ∨ ∃ cs, s.rest.drop used = '.' :: cs) : s.Forward (s.decimalTail whole used) := by
  unfold decimalTail
  dsimp only
  split
  · exact .stay rfl
  · split_ifs
    · exact .stay rfl
    · refine .literal hrest _ ?_
      rcases hused with hused | ⟨cs, hcs⟩
      · omega
      · rw [hcs]
        change used + ((digitRun Char.isDigit cs).2.1 + 1) + _ ≠ 0
        omega

theorem length_takeWhile_ne_zero {isPart : Char → Bool} {c : Char} {cs : List Char} (hc : isPart c = true) :
    ((c :: cs).takeWhile isPart).length ≠ 0 := by
  rw [List.takeWhile_cons_of_pos hc]
  exact Nat.succ_ne_zero _

theorem forward_legacyNumber {c : Char} {cs : List Char} (hs : s.rest = c :: cs) (hc : c.isDigit = true) :
    s.Forward s.legacyNumber := by
  have hrest : s.rest ≠ [] := by simp [hs]
  have hused : (s.rest.takeWhile Char.isDigit).length ≠ 0 := by
    rw [hs]
    exact length_takeWhile_ne_zero hc
  unfold legacyNumber
  dsimp only
  split
  · split
    · exact .literal hrest _ hused
    · exact .stay rfl
  · split
    · exact .stay rfl
    · exact forward_decimalTail hrest _ (.inl hused)

theorem forward_plainNumber {c : Char} {cs : List Char} (hs : s.rest = c :: cs) (hc : c.isDigit = true) :
    s.Forward s.plainNumber := by
  have hrest : s.rest ≠ [] := by simp [hs]
  have hused : (digitRun Char.isDigit s.rest).2.1 ≠ 0 := by
    rw [hs]
    exact length_takeWhile_ne_zero (by simp [hc])
  unfold plainNumber
  dsimp only
  split
  · exact .stay rfl
  · split
    · split
      · exact .plain rfl _
      · exact .stay rfl
    · exact forward_decimalTail hrest _ (.inl hused)

theorem forward_number {c : Char} {cs : List Char} (hs : s.rest = c :: cs)
    (hc : c.isDigit = true ∨ c = '.') : s.Forward s.number := by
  have hrest : s.rest ≠ [] := by simp [hs]
  unfold number
  split
  · rename_i heq
    have hdigit : c.isDigit = true := by
      rw [hs] at heq
      obtain rfl := (List.cons.inj heq).1
      rfl
    split_ifs
    all_goals first
      | exact forward_radixNumber hrest _ _ | exact forward_legacyNumber hs hdigit | exact .stay rfl
      | exact forward_plainNumber hs hdigit
  · rename_i heq
    exact forward_decimalTail hrest _ (.inr ⟨_, heq⟩)
  · rename_i hpoint
    have hdigit : c.isDigit = true := hc.resolve_right fun hdot => hpoint cs (by rw [hs, hdot])
    exact forward_plainNumber hs hdigit

/-- **A token moves forward**, and a literal takes some of the text. -/
theorem forward_tokenHere (s : Source) : s.Forward s.tokenHere := by
  unfold tokenHere
  split
  · exact .stay rfl
  · rename_i c cs hs
    have hrest : s.rest ≠ [] := by simp [hs]
    split_ifs with hword hdigit hquote htemplate hprivate hpoint
    · exact forward_word s
    · exact forward_number hs (.inl hdigit)
    · exact forward_string hrest c
    · exact forward_templateTail s
    · exact forward_privateName s
    · rw [Bool.and_eq_true, beq_iff_eq] at hpoint
      exact forward_number hs (.inr hpoint.1)
    · exact forward_punctuator s

theorem offset_le_skipBlanks {script : Bool} {mode : Blank} {broken broken' : Bool} {cs : List Char}
    {n : Nat} {here : Source} (hskip : skipBlanks script mode broken cs n = some (broken', here)) :
    n ≤ here.offset := by
  fun_induction Source.skipBlanks script mode broken cs n with
  | case3 => cases hskip
  | case4 _ _ _ ih | case5 _ _ _ ih | case15 _ _ _ ih => exact Nat.le_trans (by omega) (ih hskip)
  | case6 _ _ _ _ ih => exact Nat.le_trans (by omega) (ih hskip)
  | case8 _ _ _ _ ih => exact Nat.le_trans (by omega) (ih hskip)
  | case10 _ _ _ _ _ _ _ _ _ ih => exact Nat.le_trans (by omega) (ih hskip)
  | case11 _ _ _ _ _ _ _ _ _ _ ih => exact Nat.le_trans (by omega) (ih hskip)
  | case13 _ _ _ _ _ ih | case14 _ _ _ _ _ ih | case16 _ _ _ _ _ ih =>
    exact Nat.le_trans (by omega) (ih hskip)
  | _ => cases hskip; exact Nat.le_refl _

/-- A token that was read after an offset: it moves forward, and a string knows where it starts. -/
structure Reading.Follows (offset : Nat) (r : Reading) : Prop where
  start : offset ≤ r.start.offset
  forward : r.start.Forward (r.token, r.after)
  string : ∀ {lit : StringLiteral}, r.token.string? = some lit → lit.start = r.start.offset

theorem follows_next (script : Bool) (s : Source) : (s.next script).Follows s.offset := by
  unfold Source.next
  split
  · exact ⟨Nat.le_refl _, .stay rfl, fun h => by cases h⟩
  · rename_i broken here hskip
    exact ⟨offset_le_skipBlanks hskip, forward_tokenHere here, start_eq_offset⟩

theorem follows_markupChild (s : Source) : s.markupChild.Follows s.offset := by
  unfold markupChild
  split
  · exact ⟨Nat.le_refl _, .stay rfl, fun h => by cases h⟩
  · exact ⟨Nat.le_refl _, .plain rfl _, fun h => by cases h⟩
  · exact ⟨Nat.le_refl _, .plain rfl _, fun h => by cases h⟩
  · dsimp only
    split
    · exact ⟨Nat.le_refl _, .plain rfl _, fun h => by cases h⟩
    · exact ⟨Nat.le_refl _, .plain rfl _, fun h => by cases h⟩

theorem follows_attributeValue (script : Bool) (s : Source) :
    (s.attributeValue script).Follows s.offset := by
  have hplain := follows_next script s
  unfold attributeValue
  dsimp only
  split
  · split
    · split
      · exact ⟨hplain.start, .plain rfl _, fun h => by cases h⟩
      · exact ⟨hplain.start, ⟨hplain.forward.le, fun h => by cases h⟩, fun h => by cases h⟩
    · exact hplain
  · exact hplain

end Source

/-! ## Offsets of literals -/

namespace Tree

mutual

/-- The offsets of the literals of a tree, in the order of its leaves. -/
def offsets : Tree → List Nat
  | .string lit => [lit.start]
  | .number lit => [lit.start]
  | .node _ ps => offsetsOf ps
  | _ => []

/-- The offsets of the literals of trees. -/
def offsetsOf : List Tree → List Nat
  | [] => []
  | t :: ts => t.offsets ++ offsetsOf ts

end

end Tree

/-! ## Weights -/

/-- The offset at which literals are counted; all that is said below is said about one. -/
class Marked where
  offset : Nat

section

variable [Marked]

/-- How many literals at the watched offset are in a result. -/
class Weighted (α : Type) where
  weight : α → Nat

open Weighted (weight)

/-- Without trees there are none. -/
instance (priority := low) noWeight {α : Type} : Weighted α := ⟨fun _ => 0⟩

instance : Weighted Tree := ⟨fun t => t.offsets.count Marked.offset⟩

instance {α : Type} [Weighted α] : Weighted (List α) := ⟨fun as => (as.map weight).sum⟩

instance {α β : Type} [Weighted α] [Weighted β] : Weighted (α × β) := ⟨fun x => weight x.1 + weight x.2⟩

instance {α β : Type} [Weighted α] [Weighted β] : Weighted (α ⊕ β) := ⟨Sum.elim weight weight⟩

instance {α : Type} [Weighted α] : Weighted (Option α) := ⟨fun x => x.elim 0 weight⟩

/-- Results without trees. -/
class Weightless (α : Type) [Weighted α] : Prop where
  weight_eq : ∀ a : α, weight a = 0

instance {α : Type} : @Weightless α noWeight := @Weightless.mk α noWeight fun _ => rfl

instance {α β : Type} [Weighted α] [Weighted β] [ha : Weightless α] [hb : Weightless β] :
    Weightless (α × β) :=
  ⟨fun x => by change weight x.1 + weight x.2 = 0; rw [ha.weight_eq, hb.weight_eq]⟩

instance {α : Type} [Weighted α] [ha : Weightless α] : Weightless (Option α) := by
  refine ⟨fun x => ?_⟩
  cases x with
  | none => rfl
  | some a => exact ha.weight_eq a

instance {α : Type} [Weighted α] [ha : Weightless α] : Weightless (List α) := by
  refine ⟨fun as => ?_⟩
  induction as with
  | nil => rfl
  | cons a as ih =>
    change weight a + weight as = 0
    rw [ha.weight_eq, ih]

omit [Marked] in
theorem weight_cons {α : Type} [Weighted α] (a : α) (as : List α) :
    weight (a :: as) = weight a + weight as :=
  rfl

omit [Marked] in
theorem weight_append {α : Type} [Weighted α] (as bs : List α) :
    weight (as ++ bs) = weight as + weight bs := by
  change ((as ++ bs).map weight).sum = _
  rw [List.map_append, List.sum_append]
  rfl

omit [Marked] in
theorem weight_reverse {α : Type} [Weighted α] (as : List α) : weight as.reverse = weight as := by
  induction as with
  | nil => rfl
  | cons a as ih =>
    rw [List.reverse_cons, weight_append, weight_cons, ih]
    exact Nat.add_comm _ _

/-- A node weighs what its parts weigh. -/
theorem weight_node (f : Form) (ps : List Tree) : weight (Tree.node f ps) = weight ps := by
  change (Tree.offsetsOf ps).count Marked.offset = _
  induction ps with
  | nil => rfl
  | cons t ts ih =>
    rw [Tree.offsetsOf, List.count_append, ih]
    rfl

@[simp] theorem weight_node_singleton (f : Form) (t : Tree) : weight (Tree.node f [t]) = weight t :=
  weight_node f [t]

@[simp] theorem weight_node_pair (f : Form) (t u : Tree) :
    weight (Tree.node f [t, u]) = weight t + weight u := by
  rw [weight_node]
  rfl

theorem weight_parts_le (t : Tree) : weight t.parts ≤ weight t := by
  cases t with
  | node f ps => exact Nat.le_of_eq (weight_node f ps).symm
  | _ => exact Nat.zero_le _

/-! ## Paying for a result -/

/-- From the weights in hand one is taken; the others are left. -/
class Takes (Γ : List Nat) (n : Nat) (Γ' : outParam (List Nat)) : Prop where
  takes : n + Γ'.sum ≤ Γ.sum

instance (priority := high) {Γ : List Nat} {n : Nat} : Takes (n :: Γ) n Γ := ⟨by simp⟩

instance {Γ Γ' : List Nat} {m n : Nat} [h : Takes Γ n Γ'] : Takes (m :: Γ) n (m :: Γ') := by
  refine ⟨?_⟩
  have := h.takes
  simp only [List.sum_cons]
  omega

/-- The weights in hand cover a value, and some of them are left. -/
class Pays {α : Type} [Weighted α] (Γ : List Nat) (a : α) (Γ' : outParam (List Nat)) : Prop where
  pays : weight a + Γ'.sum ≤ Γ.sum

section

variable {α β : Type} [Weighted α] [Weighted β] {Γ Γ' Γ'' : List Nat}

instance (priority := low) {a : α} [h : Takes Γ (weight a) Γ'] : Pays Γ a Γ' := ⟨h.takes⟩

instance {a : α} [h : Weightless α] : Pays Γ a Γ := ⟨by rw [h.weight_eq]; omega⟩

instance {a : α} {b : β} [ha : Pays Γ a Γ'] [hb : Pays Γ' b Γ''] : Pays Γ (a, b) Γ'' := by
  refine ⟨?_⟩
  have := ha.pays
  have := hb.pays
  change weight a + weight b + Γ''.sum ≤ Γ.sum
  omega

instance {a : α} [h : Pays Γ a Γ'] : Pays Γ (Sum.inl a : α ⊕ β) Γ' := ⟨h.pays⟩

instance {b : β} [h : Pays Γ b Γ'] : Pays Γ (Sum.inr b : α ⊕ β) Γ' := ⟨h.pays⟩

instance : Pays Γ (none : Option α) Γ := ⟨by change 0 + _ ≤ _; omega⟩

instance {a : α} [h : Pays Γ a Γ'] : Pays Γ (some a) Γ' := ⟨h.pays⟩

instance : Pays Γ ([] : List α) Γ := ⟨by change 0 + _ ≤ _; omega⟩

instance {a : α} {as : List α} [ha : Pays Γ a Γ'] [has : Pays Γ' as Γ''] : Pays Γ (a :: as) Γ'' := by
  refine ⟨?_⟩
  have := ha.pays
  have := has.pays
  rw [weight_cons]
  omega

instance {as bs : List α} [has : Pays Γ as Γ'] [hbs : Pays Γ' bs Γ''] : Pays Γ (as ++ bs) Γ'' := by
  refine ⟨?_⟩
  have := has.pays
  have := hbs.pays
  rw [weight_append]
  omega

instance {as : List α} [h : Pays Γ as Γ'] : Pays Γ as.reverse Γ' := ⟨by rw [weight_reverse]; exact h.pays⟩

instance {c : Prop} [Decidable c] {a b : α} [ha : Pays Γ a Γ'] [hb : Pays Γ b Γ'] :
    Pays Γ (if c then a else b) Γ' := by
  split
  · exact ha
  · exact hb

end

section

variable {Γ Γ' Γ'' : List Nat}

instance {f : Form} {ps : List Tree} [h : Pays Γ ps Γ'] : Pays Γ (Tree.node f ps) Γ' :=
  ⟨by rw [weight_node]; exact h.pays⟩

instance {ps : List Tree} [Pays Γ ps Γ'] : Pays Γ (Tree.group ps) Γ' := by
  unfold Tree.group
  infer_instance

instance {t : Tree} [h : Pays Γ t Γ'] : Pays Γ t.parts Γ' :=
  ⟨Nat.le_trans (Nat.add_le_add_right (weight_parts_le t) _) h.pays⟩

omit [Marked] in
theorem Pays.nothing {α : Type} [Weighted α] {a : α} (h : weight a = 0) : Pays Γ a Γ := ⟨by rw [h]; omega⟩

instance : Pays Γ Tree.absent Γ := .nothing rfl

instance {n : String} : Pays Γ (Tree.binding n) Γ := .nothing rfl

instance {n : String} : Pays Γ (Tree.reference n) Γ := .nothing rfl

instance {n : String} : Pays Γ (Tree.name n) Γ := .nothing rfl

instance {n : String} : Pays Γ (Tree.markupName n) Γ := .nothing rfl

instance {n : String} : Pays Γ (Tree.label n) Γ := .nothing rfl

instance {n : String} : Pays Γ (Tree.privateName n) Γ := .nothing rfl

instance {lit : StringLiteral} : Pays Γ (Tree.quoted lit) Γ := .nothing rfl

instance {x : Option Tree} [h : Pays Γ x Γ'] : Pays Γ (x.getD .absent) Γ' := by
  cases x with
  | none => exact ⟨h.pays⟩
  | some t => exact ⟨h.pays⟩

end

/-! ## Readings -/

/-- A state of the reader whose token moves forward. -/
def State.Follows (s : State) : Prop := s.reading.Follows 0

/-- One as long as the watched offset lies ahead. -/
def State.ahead (s : State) : Nat := if s.reading.start.offset ≤ Marked.offset then 1 else 0

/-- What a rule is given before it reads. -/
def Rule.cost : Rule → Nat
  | .class _ ds _ => weight ds
  | _ => 0

/-- A rule that is given nothing. -/
@[reducible] def Rule.IsFree : Rule → Prop
  | .class _ _ _ => False
  | _ => True

theorem Rule.IsFree.cost_eq : ∀ {r : Rule}, r.IsFree → r.cost = 0
  | .class _ _ _, h => h.elim
  | .expression, _ | .assignment _, _ | .binary _, _ | .unary, _ | .leftHandSide, _ | .statement _, _
  | .block, _ | .functionBody, _ | .params, _ | .pattern, _ | .type, _ | .returnType, _ | .typeParams, _
  | .propertyName, _ | .markup _, _ | .typeMembers, _ | .function _ _ _ _, _ | .moduleBlock, _ => rfl

/-- What a step gives weighs no more than what it was given and what it passed. -/
def Spares {α : Type} [Weighted α] (step : Step α) (n : Nat) (s : State) : Prop :=
  ∀ a s', step s = some (a, s') → s'.Follows ∧ weight a + s'.ahead ≤ n + s.ahead

/-- Rules that read every literal once. -/
def RulesThrifty (rules : Rule → Step Tree) : Prop := ∀ r s, s.Follows → Spares (rules r) r.cost s

namespace Parse

/-- A reading gives no more than the weights in hand and what it reads. -/
class Keeps {α : Type} [Weighted α] (Γ : List Nat) (p : Parse α) : Prop where
  keeps : ∀ rules, RulesThrifty rules → ∀ s, s.Follows → Spares (p rules) Γ.sum s

/-- A reading gives no more than what it reads and some of the weights in hand, and leaves the others. -/
class Uses {α : Type} [Weighted α] (Γ : List Nat) (p : Parse α) (Γ' : outParam (List Nat)) : Prop where
  uses : ∃ Δ : List Nat, Δ.sum + Γ'.sum ≤ Γ.sum ∧ Keeps Δ p

section

variable {α β γ δ : Type} [Weighted α] [Weighted β] [Weighted γ] [Weighted δ] {Γ Γ' Γ'' : List Nat}

theorem Keeps.mono {p : Parse α} (h : Keeps Γ p) (hle : Γ.sum ≤ Γ'.sum) : Keeps Γ' p := by
  refine ⟨fun rules hrules s hs a s' hp => ?_⟩
  obtain ⟨hfollows, hweight⟩ := h.keeps rules hrules s hs a s' hp
  exact ⟨hfollows, by omega⟩

/-- A reading that is given nothing leaves everything. -/
instance (priority := low) {p : Parse α} [h : Keeps [] p] : Uses Γ p Γ := ⟨[], by simp, h⟩

instance (priority := low) {p : Parse α} [h : Uses Γ p Γ'] : Keeps Γ p := by
  obtain ⟨Δ, hle, hkeeps⟩ := h.uses
  exact hkeeps.mono (by omega)

/-- What a reading is given, it is given as a value. -/
theorem Uses.of_pays {a : α} {p : Parse β} (h : Keeps [weight a] p) [hpays : Pays Γ a Γ'] : Uses Γ p Γ' :=
  ⟨[weight a], by simpa using hpays.pays, h⟩

theorem Keeps.of_pays {a : α} {p : Parse β} (h : Keeps [weight a] p) [hpays : Pays Γ a Γ'] : Keeps Γ p := by
  have := Uses.of_pays h (Γ := Γ)
  infer_instance

theorem Uses.of_pays_both {a : α} {b : β} {p : Parse γ} (h : Keeps [weight a, weight b] p)
    [ha : Pays Γ a Γ'] [hb : Pays Γ' b Γ''] : Uses Γ p Γ'' := by
  refine ⟨[weight a, weight b], ?_, h⟩
  have := ha.pays
  have := hb.pays
  simp only [List.sum_cons, List.sum_nil]
  omega

theorem Keeps.bind {p : Parse α} {f : α → Parse β} [h : Uses Γ p Γ']
    (hf : ∀ a, Keeps (weight a :: Γ') (f a)) : Keeps Γ (p >>= f) := by
  obtain ⟨Δ, hle, hkeeps⟩ := h.uses
  refine ⟨fun rules hrules s hs b s' hp => ?_⟩
  obtain ⟨a, s₁, hp, hfa⟩ := bind_eq_some.1 hp
  obtain ⟨hs₁, hweight₁⟩ := hkeeps.keeps rules hrules s hs a s₁ hp
  obtain ⟨hs', hweight'⟩ := (hf a).keeps rules hrules s₁ hs₁ b s' hfa
  refine ⟨hs', ?_⟩
  rw [List.sum_cons] at hweight'
  omega

theorem keeps_pure {a : α} [h : Pays Γ a Γ'] : Keeps Γ (pure a : Parse α) := by
  refine ⟨fun rules _ s hs b s' hp => ?_⟩
  have heq : some (a, s) = some (b, s') := hp
  cases heq
  have := h.pays
  exact ⟨hs, by omega⟩

instance uses_pure {a : α} [h : Pays Γ a Γ'] : Uses Γ (pure a : Parse α) Γ' :=
  .of_pays (a := a) (keeps_pure (h := ⟨Nat.le_refl _⟩))

instance keeps_fail : Keeps Γ (Parse.fail : Parse α) := ⟨fun _ _ _ _ _ _ hp => by cases hp⟩

instance keeps_bind {p : Parse α} {f : α → Parse β} [h : Uses Γ p Γ']
    [hf : ∀ a, Keeps (weight a :: Γ') (f a)] : Keeps Γ (p >>= f) :=
  .bind hf

/-- A result without trees is not counted. -/
theorem Keeps.step [hα : Weightless α] {p : Parse α} {f : α → Parse β} [h : Uses Γ p Γ']
    (hf : ∀ a, Keeps Γ' (f a)) : Keeps Γ (p >>= f) :=
  .bind fun a => (hf a).mono (by rw [List.sum_cons, hα.weight_eq]; omega)

/-- A result that is never a literal is paid for however often it is used. -/
theorem Keeps.bind_light {p : Parse α} {f : α → Parse β} [h : Uses Γ p Γ']
    (hlight : ∀ {rules s a s'}, p rules s = some (a, s') → weight a = 0)
    (hf : ∀ a, (∀ Δ, Pays Δ a Δ) → Keeps Γ' (f a)) : Keeps Γ (p >>= f) := by
  obtain ⟨Δ, hle, hkeeps⟩ := h.uses
  refine ⟨fun rules hrules s hs b s' hp => ?_⟩
  obtain ⟨a, s₁, hp, hfa⟩ := bind_eq_some.1 hp
  obtain ⟨hs₁, hweight₁⟩ := hkeeps.keeps rules hrules s hs a s₁ hp
  have hfa := (hf a fun _ => .nothing (hlight hp)).keeps rules hrules s₁ hs₁ b s' hfa
  exact ⟨hfa.1, by omega⟩

instance (priority := high) keeps_step [Weightless α] {p : Parse α} {f : α → Parse β}
    [h : Uses Γ p Γ'] [hf : ∀ a, Keeps Γ' (f a)] : Keeps Γ (p >>= f) :=
  .step hf

theorem Keeps.bind_pair {p : Parse (α × β)} {f : α × β → Parse γ} [h : Uses Γ p Γ']
    (hf : ∀ a b, Keeps (weight a :: weight b :: Γ') (f (a, b))) : Keeps Γ (p >>= f) := by
  refine .bind fun x => (hf x.1 x.2).mono ?_
  change _ ≤ weight x.1 + weight x.2 + Γ'.sum
  simp only [List.sum_cons]
  omega

instance keeps_bind_pair {p : Parse (α × β)} {f : α × β → Parse γ} [h : Uses Γ p Γ']
    [hf : ∀ a b, Keeps (weight a :: weight b :: Γ') (f (a, b))] : Keeps Γ (p >>= f) :=
  .bind_pair hf

instance keeps_bind_triple {p : Parse (α × β × γ)} {f : α × β × γ → Parse δ} [h : Uses Γ p Γ']
    [hf : ∀ a b c, Keeps (weight a :: weight b :: weight c :: Γ') (f (a, b, c))] :
    Keeps Γ (p >>= f) := by
  refine .bind fun x => (hf x.1 x.2.1 x.2.2).mono ?_
  change _ ≤ weight x.1 + (weight x.2.1 + weight x.2.2) + Γ'.sum
  simp only [List.sum_cons]
  omega

theorem Keeps.bind_option {p : Parse (Option α)} {f : Option α → Parse β} [h : Uses Γ p Γ']
    (hnone : Keeps Γ' (f none)) (hsome : ∀ a, Keeps (weight a :: Γ') (f (some a))) : Keeps Γ (p >>= f) := by
  refine .bind fun x => ?_
  cases x with
  | none => exact hnone.mono (by simp)
  | some a => exact hsome a

instance keeps_bind_option {p : Parse (Option α)} {f : Option α → Parse β} [h : Uses Γ p Γ']
    [hnone : Keeps Γ' (f none)] [hsome : ∀ a, Keeps (weight a :: Γ') (f (some a))] : Keeps Γ (p >>= f) :=
  .bind_option hnone hsome

theorem Keeps.ite {c : Prop} [Decidable c] {p q : Parse α} (hp : Keeps Γ p) (hq : Keeps Γ q) :
    Keeps Γ (if c then p else q) := by
  split
  · exact hp
  · exact hq

instance keeps_ite {c : Prop} [Decidable c] {p q : Parse α} [hp : Keeps Γ p] [hq : Keeps Γ q] :
    Keeps Γ (if c then p else q) :=
  .ite hp hq

instance keeps_some {p : Parse α} [h : Keeps Γ p] : Keeps Γ (some <$> p) := by
  have hbind : Keeps Γ (p >>= fun a => pure (some a) : Parse (Option α)) := by
    refine ⟨fun rules hrules s hs b s' hp => ?_⟩
    obtain ⟨a, s₁, hp, hfa⟩ := bind_eq_some.1 hp
    have heq : some (some a, s₁) = some (b, s') := hfa
    cases heq
    exact h.keeps rules hrules s hs a _ hp
  exact hbind


omit [Weighted α] [Weighted β] [Weighted γ] [Weighted δ] in
/-- What the state says weighs nothing. -/
instance keeps_get : Keeps [] (get : Parse State) := by
  refine ⟨fun rules _ s hs b s' hp => ?_⟩
  have heq : some (s, s) = some (b, s') := hp
  cases heq
  exact ⟨hs, Nat.le_refl _⟩

/-! ### Loops -/

theorem Keeps.repeatAtMost {step : α → Parse (α ⊕ β)} (hstep : ∀ a, Keeps [weight a] (step a)) :
    ∀ n a, Keeps [weight a] (Parse.repeatAtMost step n a)
  | 0, _ => keeps_fail
  | n + 1, a => by
    refine .bind (h := (⟨[weight a], Nat.le_refl _, hstep a⟩ : Uses _ _ [])) fun x => ?_
    cases x with
    | inl a => exact repeatAtMost hstep n a
    | inr b => exact keeps_pure (h := ⟨Nat.le_refl _⟩)

theorem Keeps.iterate {a : α} {step : α → Parse (α ⊕ β)} (hstep : ∀ a, Keeps [weight a] (step a)) :
    Keeps [weight a] (Parse.iterate a step) :=
  .step fun _ => .repeatAtMost hstep _ a

instance uses_iterate {a : α} {step : α → Parse (α ⊕ β)} [hpays : Pays Γ a Γ']
    [hstep : ∀ a, Keeps [weight a] (step a)] : Uses Γ (Parse.iterate a step) Γ' :=
  .of_pays (Keeps.iterate hstep)

theorem Keeps.iterate_pair {x : α × β} {step : α × β → Parse (α × β ⊕ γ)}
    (hstep : ∀ a b, Keeps [weight a, weight b] (step (a, b))) : Keeps [weight x] (Parse.iterate x step) :=
  .iterate fun y => (hstep y.1 y.2).mono (by
    change _ ≤ weight y.1 + weight y.2 + 0
    simp)

instance uses_iterate_pair {x : α × β} {step : α × β → Parse (α × β ⊕ γ)} [hpays : Pays Γ x Γ']
    [hstep : ∀ a b, Keeps [weight a, weight b] (step (a, b))] : Uses Γ (Parse.iterate x step) Γ' :=
  .of_pays (Keeps.iterate_pair hstep)

theorem Keeps.iterate_triple {x : α × β × γ} {step : α × β × γ → Parse (α × β × γ ⊕ δ)}
    (hstep : ∀ a b c, Keeps [weight a, weight b, weight c] (step (a, b, c))) :
    Keeps [weight x] (Parse.iterate x step) :=
  .iterate fun y => (hstep y.1 y.2.1 y.2.2).mono (by
    change _ ≤ weight y.1 + (weight y.2.1 + weight y.2.2) + 0
    simp)

instance uses_iterate_triple {x : α × β × γ} {step : α × β × γ → Parse (α × β × γ ⊕ δ)}
    [hpays : Pays Γ x Γ'] [hstep : ∀ a b c, Keeps [weight a, weight b, weight c] (step (a, b, c))] :
    Uses Γ (Parse.iterate x step) Γ' :=
  .of_pays (Keeps.iterate_triple hstep)

instance keeps_many {more : Parse Bool} {item : Parse α} [Keeps [] more] [Keeps [] item] :
    Keeps [] (Parse.many more item) := by
  unfold Parse.many
  infer_instance

instance keeps_andM {p q : Parse Bool} [Keeps [] p] [hq : Keeps [] q] : Keeps [] (p <&&> q) := by
  refine .step fun b => ?_
  split
  · exact hq
  · infer_instance

/-! ### Changes of the state -/

theorem keeps_modify {f : State → State} (h : ∀ s, s.Follows → (f s).Follows)
    (hstart : ∀ s, s.Follows → s.reading.start.offset ≤ (f s).reading.start.offset) :
    Keeps [] (modify f : Parse Unit) := by
  refine ⟨fun rules _ s hs b s' hp => ?_⟩
  have heq : some ((), f s) = some (b, s') := hp
  cases heq
  refine ⟨h s hs, ?_⟩
  have := hstart s hs
  change 0 + State.ahead _ ≤ 0 + State.ahead _
  unfold State.ahead
  split <;> split <;> omega

instance : Keeps [] fault := keeps_modify (fun _ hs => hs) fun _ _ => Nat.le_refl _

instance {b : Bool} : Keeps [] (faultIf b) := by unfold faultIf; infer_instance

instance {b : Bool} : Keeps [] (require b) := by unfold require; infer_instance

instance : Keeps [] setting := by unfold setting; infer_instance

instance keeps_within {change : Setting → Setting} {p : Parse α} [h : Keeps Γ p] :
    Keeps Γ (Parse.within change p) := by
  unfold Parse.within
  have hchange : ∀ f : State → Setting, Keeps [] (modify fun s => { s with setting := f s } : Parse Unit) :=
    fun f => keeps_modify (fun _ hs => hs) fun _ _ => Nat.le_refl _
  have huses : Uses Γ p [] := ⟨Γ, by simp, h⟩
  exact .step fun saved => .step fun _ => .bind fun a => .step fun _ => inferInstance

instance keeps_withIn {p : Parse α} [Keeps Γ p] : Keeps Γ (Parse.withIn p) := by
  unfold withIn
  infer_instance

instance keeps_attempt {p : Parse α} [h : Keeps Γ p] : Keeps Γ (Parse.attempt p) := by
  refine ⟨fun rules hrules s hs x s' hp => ?_⟩
  unfold Parse.attempt at hp
  split at hp
  · rename_i b s₁ hpb
    cases hp
    exact h.keeps rules hrules s hs b _ hpb
  · cases hp
    refine ⟨hs, ?_⟩
    change 0 + _ ≤ _
    omega

/-- What is looked at is read again, so it must have no trees. -/
instance keeps_lookahead? [hα : Weightless α] {p : Parse α} : Keeps Γ (Parse.lookahead? p) := by
  refine ⟨fun rules hrules s hs x s' hp => ?_⟩
  have hstay : s' = s := by
    unfold Parse.lookahead? at hp
    split at hp <;> cases hp <;> rfl
  rw [hstay, Weightless.weight_eq x]
  exact ⟨hs, by omega⟩

instance {p : Parse Bool} : Keeps [] (lookahead p) := by unfold lookahead; infer_instance

instance keeps_call {r : Rule} [hr : Fact r.IsFree] : Keeps [] (Parse.call r) := by
  refine ⟨fun rules hrules s hs => ?_⟩
  have := hrules r s hs
  rwa [hr.out.cost_eq] at this

instance uses_call_class {expression : Bool} {ds : Tree} {ms : Modifiers} [hds : Pays Γ ds Γ'] :
    Uses Γ (Parse.call (.class expression ds ms)) Γ' :=
  .of_pays (a := ds) ⟨fun _ hrules s hs => hrules (.class expression ds ms) s hs⟩

end

/-! ## Reading tokens -/

instance : Keeps [] typed := by unfold typed; infer_instance

instance : Keeps [] markup := by unfold markup; infer_instance

instance : Keeps [] token := by unfold token; infer_instance

instance : Keeps [] onNewLine := by unfold onNewLine; infer_instance

instance : Keeps [] position := by unfold position; infer_instance

/-- Moving to a token that comes later. -/
theorem keeps_move {f : State → State}
    (h : ∀ s, s.Follows → (f s).reading.Follows s.reading.after.offset) :
    Keeps [] (modify f : Parse Unit) := by
  refine keeps_modify (fun s hs => ?_) fun s hs => ?_
  · exact ⟨Nat.zero_le _, (h s hs).forward, (h s hs).string⟩
  · exact Nat.le_trans hs.forward.le (h s hs).start

instance : Keeps [] advance := keeps_move fun s _ => Source.follows_next _ s.reading.after

theorem keeps_advanceBy {mode : Source → Source.Reading} (h : ∀ s, (mode s).Follows s.offset) :
    Keeps [] (advanceBy mode) :=
  keeps_move fun s _ => h s.reading.after

/-- A token that is read again is no literal. -/
theorem keeps_reread {mode : Source → Token × Source}
    (h : ∀ s, s.Forward (mode s) ∧ (mode s).1.isLiteral = false) : Keeps [] (reread mode) := by
  refine keeps_modify (fun s hs => ⟨Nat.zero_le _, (h s.reading.start).1, fun hlit => ?_⟩) fun _ _ => Nat.le_refl _
  have hliteral := (h s.reading.start).2
  cases htoken : (mode s.reading.start).1 with
  | string lit raw =>
    rw [htoken] at hliteral
    cases hliteral
  | _ =>
    dsimp only at hlit
    rw [htoken] at hlit
    cases hlit

/-! ### Literals -/

/-- A reading from a given token on gives no more than what it reads. -/
def KeepsAt (start : Nat) (t : Token) (p : Parse Tree) : Prop :=
  ∀ rules, RulesThrifty rules → ∀ s, s.Follows → s.reading.start.offset = start → s.reading.token = t →
    Spares (p rules) 0 s

theorem Keeps.tokenAt {f : Nat → Token → Parse Tree} (hf : ∀ start t, KeepsAt start t (f start t)) :
    Keeps [] (position >>= fun start => token >>= f start) := by
  refine ⟨fun rules hrules s hs a s' hp => ?_⟩
  have hfa : f s.reading.start.offset s.reading.token rules s = some (a, s') := hp
  exact hf _ _ rules hrules s hs rfl rfl a s' hfa

theorem KeepsAt.of_keeps {start : Nat} {t : Token} {p : Parse Tree} (h : Keeps [] p) : KeepsAt start t p :=
  fun rules hrules s hs _ _ => h.keeps rules hrules s hs

/-- **A literal is counted when its token is passed**: the next token starts after it. -/
theorem KeepsAt.literal {start : Nat} {t : Token} {r : Tree} (ht : t.isLiteral = true)
    (hr : ∀ s : State, s.Follows → s.reading.token = t → s.reading.start.offset = start →
      weight r ≤ if start = Marked.offset then 1 else 0) :
    KeepsAt start t (advance >>= fun _ => pure r) := by
  intro rules hrules s hs hstart htoken a s' hp
  have hweight := hr s hs htoken hstart
  have heq : some (r, { s with
      lastEnd := s.reading.after.offset
      reading := s.reading.after.next (!s.dialect.module) }) = some (a, s') := hp
  have hnext := Source.follows_next (!s.dialect.module) s.reading.after
  have hlt : start < s.reading.after.offset := hstart ▸ hs.forward.lt (htoken ▸ ht)
  cases heq
  refine ⟨⟨Nat.zero_le _, hnext.forward, hnext.string⟩, ?_⟩
  have hle := hnext.start
  unfold State.ahead
  dsimp only
  rw [hstart]
  split at hweight <;> split <;> split <;> omega

theorem KeepsAt.string {start : Nat} {lit : StringLiteral} {raw : String} :
    KeepsAt start (.string lit raw) (advance >>= fun _ => pure (.string lit)) := by
  refine .literal rfl fun s hs htoken hstart => ?_
  have hlit : lit.start = start := (hs.string (by rw [htoken]; rfl)).trans hstart
  change [lit.start].count Marked.offset ≤ _
  rw [hlit, List.count_singleton]
  simp

theorem weight_number {start : Nat} {value : Double} {raw : String} :
    weight (Tree.number ⟨value, raw, start⟩) ≤ if start = Marked.offset then 1 else 0 := by
  change [start].count Marked.offset ≤ _
  rw [List.count_singleton]
  simp

theorem KeepsAt.number {start : Nat} {value : Double} {raw : String} :
    KeepsAt start (.number value raw) (advance >>= fun _ => pure (.number ⟨value, raw, start⟩)) :=
  .literal rfl fun _ _ _ _ => weight_number

/-! ### Trees that are taken apart -/

section

variable {α : Type} [Weighted α] {Γ : List Nat} {f : Form} {p : Parse α}

theorem Keeps.unpack {ps : List Tree} (h : Keeps (weight ps :: Γ) p) :
    Keeps (weight (Tree.node f ps) :: Γ) p :=
  h.mono (Nat.le_of_eq (by rw [weight_node]))

theorem Keeps.unwrap {t : Tree} (h : Keeps (weight t :: Γ) p) : Keeps (weight (Tree.node f [t]) :: Γ) p :=
  h.mono (Nat.le_of_eq (by rw [weight_node_singleton]))

theorem Keeps.unwrap_pair {t u : Tree} (h : Keeps (weight t :: weight u :: Γ) p) :
    Keeps (weight (Tree.node f [t, u]) :: Γ) p :=
  h.mono (by
    rw [weight_node_pair]
    simp only [List.sum_cons]
    omega)

end

end Parse

end

end Abridge
