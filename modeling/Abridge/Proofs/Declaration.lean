import Abridge.Plan.Hoist
import Abridge.Proofs.KeyOrder
import Abridge.Proofs.Rounding
import Abridge.Proofs.Tokens
import Abridge.Scope.Fault

/-!
# Reading the declaration of hoisted literals

The declaration of what is hoisted is written as text and read again like any other program.  This file
runs the reader over that text, from one token to the next: the keyword, a key, the sign of equality, a value
and what ends it.  A key is one word that is not reserved, so it is read as a binding, and a value is
whatever the text of the literal denotes, with a number below zero read as a minus sign and a number.

## What is here

* `Literal.Denotes`, `Parse.Declares`: the trees that a literal and a binding are read as.
* `parse?_declaration`: the text of bindings is one declaration, in every dialect.
* `Program.hoist_eq`: hoisting puts one statement before the others.
-/

set_option autoImplicit false

namespace Abridge

/-! ## Running the reader -/

/-- The state at the next token. -/
def State.advanced (s : State) : State :=
  { s with
    lastEnd := s.reading.after.offset
    reading := s.reading.after.next (!s.dialect.module) }

namespace State

@[simp] theorem advanced_dialect (s : State) : s.advanced.dialect = s.dialect := rfl

/-- The current token is the one at the characters given. -/
def At (s : State) (cs : List Char) : Prop :=
  ∃ n broken, s.reading = { Source.next (!s.dialect.module) ⟨cs, n⟩ with broken }

/-- A blank before a solid character can be left out. -/
theorem At.of_space {s : State} {c : Char} {cs : List Char} (hc : Source.isSolid c = true)
    (h : s.At (' ' :: c :: cs)) : s.At (c :: cs) := by
  obtain ⟨n, broken, hn⟩ := h
  exact ⟨n + 1, broken, by rw [hn, Source.next_space hc]⟩

/-- `s'` is `s` after reading up to the characters given, without a fault. -/
structure Moves (s s' : State) (cs : List Char) : Prop where
  here : s'.At cs
  setting : s'.setting = s.setting
  dialect : s'.dialect = s.dialect
  faulty : s'.faulty = s.faulty
  bound : s'.bound = s.bound

theorem Moves.trans {s s' s'' : State} {cs cs' : List Char} (h : s.Moves s' cs)
    (h' : s'.Moves s'' cs') : s.Moves s'' cs' :=
  ⟨h'.here, h'.setting.trans h.setting, h'.dialect.trans h.dialect, h'.faulty.trans h.faulty,
    h'.bound.trans h.bound⟩

/-- What the current token is, and where the next one stands. -/
theorem At.gives {s : State} {cs rest : List Char} {test : Token → Prop} (h : s.At cs)
    (hgives : Source.Gives cs test rest) : test s.reading.token ∧ s.Moves s.advanced rest := by
  obtain ⟨n, broken, hn⟩ := h
  obtain ⟨htest, hafter⟩ := hgives (!s.dialect.module) n
  have htoken : s.reading.token = (Source.next (!s.dialect.module) ⟨cs, n⟩).token := by rw [hn]
  have hrest : s.reading.after.rest = rest := by rw [hn, hafter]
  refine ⟨htoken ▸ htest, ⟨s.reading.after.offset, s.advanced.reading.broken, ?_⟩, rfl, rfl,
    rfl, rfl⟩
  rw [← hrest]
  rfl

end State

namespace Parse

variable {α β : Type} (rules : Rule → Step Tree) (s : State)

@[simp] theorem run_pure (a : α) : (pure a : Parse α) rules s = some (a, s) := rfl

@[simp] theorem run_bind (p : Parse α) (f : α → Parse β) :
    (p >>= f) rules s = (p rules s).bind fun r => f r.1 rules r.2 := rfl

@[simp] theorem run_map (p : Parse α) (f : α → β) :
    (f <$> p) rules s = (p rules s).map fun r => (f r.1, r.2) := by
  change (p rules s).bind _ = _
  cases p rules s <;> rfl

@[simp] theorem run_get : (get : Parse State) rules s = some (s, s) := rfl

@[simp] theorem run_token : token rules s = some (s.reading.token, s) := rfl

@[simp] theorem run_position : position rules s = some (s.reading.start.offset, s) := rfl

@[simp] theorem run_onNewLine : onNewLine rules s = some (s.reading.broken, s) := rfl

@[simp] theorem run_setting : setting rules s = some (s.setting, s) := rfl

@[simp] theorem run_typed : typed rules s = some (s.dialect.typescript, s) := rfl

@[simp] theorem run_markup : markup rules s = some (s.dialect.jsx, s) := rfl

@[simp] theorem run_advance : advance rules s = some ((), s.advanced) := rfl

@[simp] theorem run_call (r : Rule) : call r rules s = rules r s := rfl

variable {rules s}

/-- What comes first is run, and the rest goes on with what it gives. -/
theorem run_bind_of {p : Parse α} {f : α → Parse β} {a : α} {s' : State}
    (h : p rules s = some (a, s')) : (p >>= f) rules s = f a rules s' := by
  rw [run_bind, h]
  rfl

theorem run_repeat_inl {a : α} (b : α) {step : α → Parse (α ⊕ β)} (s' : State) (n : Nat)
    (h : step a rules s = some (.inl b, s')) :
    repeatAtMost step (n + 1) a rules s = repeatAtMost step n b rules s' :=
  run_bind_of h

theorem run_repeat_inr {a : α} {b : β} {step : α → Parse (α ⊕ β)} {s' : State} (n : Nat)
    (h : step a rules s = some (.inr b, s')) : repeatAtMost step (n + 1) a rules s = some (b, s') :=
  run_bind_of h

/-- A loop that stops at once. -/
theorem run_iterate_inr {a : α} {b : β} {step : α → Parse (α ⊕ β)} {s' : State}
    (hbound : 0 < s.bound) (h : step a rules s = some (.inr b, s')) :
    iterate a step rules s = some (b, s') := by
  obtain ⟨n, hn⟩ : ∃ n, s.bound = n + 1 := ⟨s.bound - 1, by omega⟩
  rw [iterate, run_bind_of (run_get rules s), hn]
  exact run_repeat_inr n h

theorem run_atPunct_other {p : String} (h : s.reading.token ≠ .punct p) :
    atPunct p rules s = some (false, s) := by
  rw [atPunct, run_bind_of (run_token rules s)]
  cases ht : s.reading.token with
  | punct q => exact congrArg (fun b => some (b, s)) (beq_false_of_ne fun hq => h (hq ▸ ht))
  | _ => rfl

theorem run_atAny_other {ps : List String} (h : ∀ p ∈ ps, s.reading.token ≠ .punct p) :
    atAny ps rules s = some (false, s) := by
  rw [atAny, run_bind_of (run_token rules s)]
  cases ht : s.reading.token with
  | punct q =>
    have hq : ps.contains q = false := by simpa using fun hq => h q hq ht
    exact congrArg (fun b => some (b, s)) hq
  | _ => rfl

theorem run_atWord_other {w : String} (h : s.reading.token ≠ .word w false) :
    atWord w rules s = some (false, s) := by
  rw [atWord, run_bind_of (run_token rules s)]
  cases ht : s.reading.token with
  | word v escaped =>
    cases escaped with
    | false => exact congrArg (fun b => some (b, s)) (beq_false_of_ne fun hv => h (hv ▸ ht))
    | true => rfl
  | _ => rfl

theorem run_atWords_other {ws : List String} (h : ∀ w ∈ ws, s.reading.token ≠ .word w false) :
    atWords ws rules s = some (false, s) := by
  rw [atWords, run_bind_of (run_token rules s)]
  cases ht : s.reading.token with
  | word v escaped =>
    cases escaped with
    | false =>
      have hv : ws.contains v = false := by simpa using fun hv => h v hv ht
      exact congrArg (fun b => some (b, s)) hv
    | true => rfl
  | _ => rfl

theorem run_eat_self {p : String} (h : s.reading.token = .punct p) :
    eat p rules s = some (true, s.advanced) := by
  have hhere : atPunct p rules s = some (true, s) := by
    rw [atPunct, run_bind_of (run_token rules s), h]
    exact congrArg (fun b => some (b, s)) (beq_self_eq_true p)
  rw [eat, run_bind_of hhere]
  rfl

theorem run_eat_other {p : String} (h : s.reading.token ≠ .punct p) :
    eat p rules s = some (false, s) :=
  run_bind_of (run_atPunct_other h)

/-- A test that only typed dialects make, and that fails. -/
theorem run_typed_and {p : Parse Bool} (h : p rules s = some (false, s)) :
    (typed <&&> p) rules s = some (false, s) := by
  have htyped := run_typed rules s
  cases hts : s.dialect.typescript with
  | false =>
    rw [hts] at htyped
    exact run_bind_of htyped
  | true =>
    rw [hts] at htyped
    exact (run_bind_of htyped).trans h

/-! ## Values -/

/-- What ends a value in a declaration: no operator and no member. -/
def AtEnd (s : State) : Prop := s.reading.token = .punct "," ∨ s.reading.token = .punct ";"

theorem AtEnd.ne_punct (h : AtEnd s) {p : String} (hp : p ≠ "," ∧ p ≠ ";") :
    s.reading.token ≠ .punct p := by
  rcases h with h | h <;> rw [h] <;> rintro ⟨⟩
  · exact hp.1 rfl
  · exact hp.2 rfl

theorem AtEnd.ne_word (h : AtEnd s) (w : String) (escaped : Bool) : s.reading.token ≠ .word w escaped := by
  rcases h with h | h <;> rw [h] <;> rintro ⟨⟩

theorem run_expressionTypeArguments (rules : Rule → Step Tree) (h : AtEnd s) :
    expressionTypeArguments rules s = some (none, s) := by
  have hangle : atAny ["<", "<<"] rules s = some (false, s) :=
    run_atAny_other (List.forall_mem_cons.2 ⟨h.ne_punct (by decide),
      List.forall_mem_singleton.2 (h.ne_punct (by decide))⟩)
  rw [expressionTypeArguments, run_bind_of (run_typed rules s), run_bind_of hangle, Bool.not_false, Bool.or_true]
  rfl

theorem run_memberRest {e : Tree} {links : Bool} (hbound : 0 < s.bound) (h : AtEnd s) :
    memberRest e false links rules s = some ((e, false), s) := by
  refine run_iterate_inr hbound ?_
  have htypes := run_expressionTypeArguments rules h
  dsimp only
  rw [run_bind_of (run_token rules s)]
  rcases h with h | h <;> rw [h] <;> exact run_bind_of htypes

theorem run_callRest {e : Tree} (hbound : 0 < s.bound) (h : AtEnd s) :
    callRest e rules s = some ((e, false), s) := by
  refine run_iterate_inr hbound ?_
  have hmember : memberRest e false true rules s = some ((e, false), s) := run_memberRest hbound h
  have hlink : atPunct "?." rules s = some (false, s) := run_atPunct_other (h.ne_punct (by decide))
  have hparen : atPunct "(" rules s = some (false, s) := run_atPunct_other (h.ne_punct (by decide))
  exact (run_bind_of hmember).trans ((run_bind_of hlink).trans (run_bind_of hparen))

theorem run_binaryOp? (h : AtEnd s) : binaryOp? rules s = some (none, s) := by
  have hangle : joinAngle rules s = some ((), s) := run_bind_of (run_atPunct_other (h.ne_punct (by decide)))
  rw [binaryOp?, run_bind_of hangle, run_bind_of (run_token rules s)]
  rcases h with h | h <;> rw [h] <;> rfl

theorem run_binaryRest {e : Tree} {level : Nat} (hbound : 0 < s.bound) (h : AtEnd s) :
    binaryRest e level rules s = some (e, s) := by
  refine run_iterate_inr hbound ?_
  have hword : atWords ["as", "satisfies"] rules s = some (false, s) :=
    run_atWords_other fun w _ => h.ne_word w false
  exact (run_bind_of (run_binaryOp? h)).trans ((run_bind_of hword).trans rfl)

/-- The literal that a token is. -/
def literal? (start : Nat) : Token → Option Tree
  | .number value raw => some (.number ⟨value, raw, start⟩)
  | .string lit _ => some (.string lit)
  | _ => none

theorem literal?_eq_some {start : Nat} {t : Token} {e : Tree} (h : literal? start t = some e) :
    (∃ value raw, t = .number value raw ∧ e = .number ⟨value, raw, start⟩) ∨
      ∃ lit raw, t = .string lit raw ∧ e = .string lit := by
  cases t with
  | number value raw => exact .inl ⟨value, raw, rfl, (Option.some_inj.1 h).symm⟩
  | string lit raw => exact .inr ⟨lit, raw, rfl, (Option.some_inj.1 h).symm⟩
  | _ => cases h

/-- What a value starts with: a literal or a minus sign. -/
def StartsValue (s : State) : Prop :=
  (∃ value raw, s.reading.token = .number value raw) ∨ (∃ lit raw, s.reading.token = .string lit raw) ∨
    s.reading.token = .punct "-"

theorem StartsValue.ne_punct (h : StartsValue s) {p : String} (hp : p ≠ "-") :
    s.reading.token ≠ .punct p := by
  rcases h with ⟨_, _, h⟩ | ⟨_, _, h⟩ | h <;> rw [h] <;> rintro ⟨⟩
  exact hp rfl

theorem StartsValue.ne_word (h : StartsValue s) (w : String) (escaped : Bool) :
    s.reading.token ≠ .word w escaped := by
  rcases h with ⟨_, _, h⟩ | ⟨_, _, h⟩ | h <;> rw [h] <;> rintro ⟨⟩

theorem startsValue_of_literal {start : Nat} {e : Tree} (h : literal? start s.reading.token = some e) :
    StartsValue s := by
  rcases literal?_eq_some h with ⟨value, raw, ht, -⟩ | ⟨lit, raw, ht, -⟩
  · exact .inl ⟨value, raw, ht⟩
  · exact .inr (.inl ⟨lit, raw, ht⟩)

theorem run_leftHandSide {e : Tree} (hbound : 0 < s.bound)
    (he : literal? s.reading.start.offset s.reading.token = some e) (h : AtEnd s.advanced) :
    leftHandSideBody rules s = some (e, s.advanced) := by
  obtain ⟨n, hn⟩ : ∃ n, s.bound = n + 1 := ⟨s.bound - 1, by omega⟩
  have hrest : callRest e rules s.advanced = some ((e, false), s.advanced) := run_callRest hbound h
  have hnew : atWord "new" rules s = some (false, s) :=
    run_atWord_other ((startsValue_of_literal he).ne_word _ _)
  have hliteral : primary rules s = some (e, s.advanced) := by
    rw [primary, run_bind_of (run_position rules s), run_bind_of (run_token rules s)]
    rcases literal?_eq_some he with ⟨value, raw, ht, rfl⟩ | ⟨lit, raw, ht, rfl⟩ <;> rw [ht] <;> rfl
  have hprimary : primaryOrNew s.bound rules s = some (e, s.advanced) := by
    rw [hn]
    exact (run_bind_of hnew).trans hliteral
  exact (run_bind_of (run_get rules s)).trans ((run_bind_of hprimary).trans (run_bind_of hrest))

theorem run_unary_literal {e : Tree} (hbound : 0 < s.bound)
    (he : literal? s.reading.start.offset s.reading.token = some e) (h : AtEnd s.advanced)
    (fuel : Nat) : Rule.run (fuel + 2) .unary s = some (e, s.advanced) := by
  have hstart := startsValue_of_literal he
  have hleft : call .leftHandSide (Rule.run (fuel + 1)) s = some (e, s.advanced) :=
    run_leftHandSide hbound he h
  have hbefore : atAny ["++", "--"] (Rule.run (fuel + 1)) s = some (false, s) :=
    run_atAny_other (List.forall_mem_cons.2 ⟨hstart.ne_punct (by decide),
      List.forall_mem_singleton.2 (hstart.ne_punct (by decide))⟩)
  have hbehind : atAny ["++", "--"] (Rule.run (fuel + 1)) s.advanced = some (false, s.advanced) :=
    run_atAny_other (List.forall_mem_cons.2 ⟨h.ne_punct (by decide),
      List.forall_mem_singleton.2 (h.ne_punct (by decide))⟩)
  have hupdate : updateExpression (Rule.run (fuel + 1)) s = some (e, s.advanced) :=
    (run_bind_of hbefore).trans ((run_bind_of hleft).trans ((run_bind_of hbehind).trans rfl))
  have hangle : atPunct "<" (Rule.run (fuel + 1)) s = some (false, s) :=
    run_atPunct_other (hstart.ne_punct (by decide))
  have hawait : atAwait (Rule.run (fuel + 1)) s = some (false, s) :=
    run_bind_of (run_atWord_other (hstart.ne_word _ _))
  have hoperator : unaryOp? s.reading.token = none := by
    rcases literal?_eq_some he with ⟨_, _, ht, -⟩ | ⟨_, _, ht, -⟩ <;> rw [ht] <;> rfl
  change unaryBody (Rule.run (fuel + 1)) s = _
  rw [unaryBody, run_bind_of (run_token _ s), hoperator]
  exact (run_bind_of hangle).trans ((run_bind_of (run_markup _ s)).trans ((run_bind_of hawait).trans hupdate))

theorem run_unary_minus {e : Tree} (hbound : 0 < s.bound) (hminus : s.reading.token = .punct "-")
    (he : literal? s.advanced.reading.start.offset s.advanced.reading.token = some e)
    (h : AtEnd s.advanced.advanced) (fuel : Nat) :
    Rule.run (fuel + 3) .unary s = some (.node (.unary .minus) [e], s.advanced.advanced) := by
  have hinner : Rule.run (fuel + 2) .unary s.advanced = some (e, s.advanced.advanced) :=
    run_unary_literal (s := s.advanced) hbound he h fuel
  change unaryBody (Rule.run (fuel + 2)) s = _
  rw [unaryBody, run_bind_of (run_token _ s), hminus]
  exact (run_bind_of (run_advance _ s)).trans (run_bind_of hinner)

theorem run_lookahead? {p : Parse α} (a : α) (s' : State) (h : p rules s = some (a, s')) :
    lookahead? p rules s = some (some a, s) := by
  rw [lookahead?, h]

/-- An operand that starts like a value and ends a declarator is its whole value. -/
theorem run_assignment {e : Tree} {s' : State} {fuel : Nat}
    (hunary : Rule.run fuel .unary s = some (e, s')) (hstart : StartsValue s) (hbound : 0 < s'.bound)
    (h : AtEnd s') (b : Bool) : Rule.run (fuel + 2) (.assignment b) s = some (e, s') := by
  have hbinary : call (.binary Level.lowest.rank) (Rule.run (fuel + 1)) s = some (e, s') := by
    have hrest : binaryRest e Level.lowest.rank (Rule.run fuel) s' = some (e, s') :=
      run_binaryRest hbound h
    change binaryBody _ (Rule.run fuel) s = _
    rw [binaryBody, run_bind_of (run_token _ s)]
    rcases hstart with ⟨v, raw, ht⟩ | ⟨lit, raw, ht⟩ | ht <;> rw [ht] <;>
      exact (run_bind_of hunary).trans hrest
  have hoperator : operatorExpression b (Rule.run (fuel + 1)) s = some (e, s') := by
    rw [operatorExpression, run_bind_of hbinary, run_bind_of (run_token _ s')]
    rcases h with h | h <;> rw [h] <;> cases e <;> rfl
  have hasync : atWord "async" (Rule.run (fuel + 1)) s = some (false, s) :=
    run_atWord_other (hstart.ne_word _ _)
  have hparen : eat "(" (Rule.run (fuel + 1)) s = some (false, s) :=
    run_eat_other (hstart.ne_punct (by decide))
  have hangle : (typed <&&> eat "<") (Rule.run (fuel + 1)) s = some (false, s) :=
    run_typed_and (run_eat_other (hstart.ne_punct (by decide)))
  have hyield : atYield (Rule.run (fuel + 1)) s = some (false, s) :=
    run_bind_of (run_atWord_other (hstart.ne_word _ _))
  have hhint : arrowHint (Rule.run (fuel + 1)) s = some (.no, s) := by
    refine (run_bind_of (run_lookahead? Hint.no s ?_)).trans rfl
    exact (run_bind_of hasync).trans ((run_bind_of (run_onNewLine _ s)).trans
      ((run_bind_of hparen).trans ((run_bind_of hangle).trans rfl)))
  have hbare : atAsyncBareArrow (Rule.run (fuel + 1)) s = some (false, s) := run_bind_of hasync
  exact (run_bind_of hyield).trans ((run_bind_of hhint).trans ((run_bind_of (run_pure _ s none)).trans
    ((run_bind_of hbare).trans hoperator)))

theorem atEnd_of_at {s : State} {c : Char} {rest : List Char} (hc : Source.isNumberEnd c = true)
    (h : s.At (c :: rest)) : AtEnd s := by
  rcases Source.isNumberEnd_iff.1 hc with rfl | rfl
  · exact .inl (h.gives (Source.gives_comma rest)).1
  · exact .inr (h.gives (Source.gives_semicolon rest)).1

end Parse

/-- A decimal that is written out has no zero in front of another digit. -/
theorem Double.Decimal.hasLegacyZero_positional {d : Double.Decimal}
    (hd : d.digits ≠ 0 ∨ d.exponent = 0) : Context.hasLegacyZero d.positional = false := by
  have hplain : ∀ cs : List Char, (∀ c cs', cs = '0' :: c :: cs' → c.isDigit = false) →
      Context.hasLegacyZero (String.ofList cs) = false := by
    intro cs hcs
    unfold Context.hasLegacyZero
    rw [String.toList_ofList]
    split
    · exact hcs _ _ rfl
    · rfl
  rw [← String.ofList_toList (s := d.positional), toList_positional]
  refine hplain _ fun c cs heq => ?_
  rcases whole_zero hd with hzero | hhead
  · rw [hzero, List.singleton_append, List.cons_inj_right] at heq
    cases hfraction : d.split.2.toList with
    | nil =>
      rw [hfraction] at heq
      cases heq
    | cons f fs =>
      rw [hfraction] at heq
      cases heq
      rfl
  · obtain ⟨w, ws, hwhole⟩ := List.exists_cons_of_ne_nil (whole_ne_nil d)
    rw [hwhole] at heq hhead
    obtain rfl : w = '0' := (List.cons.inj heq).1
    exact absurd rfl hhead

/-- A tree is how the value of a declarator for a literal is read. -/
def Literal.Denotes (l : Literal) : Tree → Prop
  | .string lit => l = .string lit.value ∧ lit.surrogates = false ∧ lit.legacy = false
  | .number lit => l = .number lit.value ∧ Context.hasLegacyZero lit.raw = false
  | .node (.unary .minus) [.number lit] =>
    l = .number lit.value.neg ∧ lit.value.neg.isNegative = true ∧ Context.hasLegacyZero lit.raw = false
  | _ => False

/-- A literal is read as a string, a number, or a number with a minus before it.  What gives the same for
all of these gives that for the literal. -/
theorem Literal.Denotes.read_eq {β : Type} {g : Tree → β} {b : β} {l : Literal} {t : Tree} (h : l.Denotes t)
    (hstring : ∀ lit, g (.string lit) = b) (hnumber : ∀ lit, g (.number lit) = b)
    (hminus : ∀ lit, g (.node (.unary .minus) [.number lit]) = b) : g t = b := by
  unfold Literal.Denotes at h
  split at h
  · exact hstring _
  · exact hnumber _
  · exact hminus _
  · exact h.elim

namespace Parse

/-- **The text of a literal is read as its value.** -/
theorem run_value {l : Literal} (hl : l.isFinite = true) {s : State} {c : Char} {rest : List Char}
    (hc : Source.isNumberEnd c = true) (hs : s.At (l.source.toList ++ c :: rest))
    (hbound : 0 < s.bound) (fuel : Nat) (b : Bool) :
    ∃ e s', Rule.run (fuel + 5) (.assignment b) s = some (e, s') ∧ l.Denotes e ∧
      s.Moves s' (c :: rest) := by
  cases l with
  | string text =>
    obtain ⟨⟨lit, raw, ht, hvalue, hlone, hlegacy⟩, hmoves⟩ :=
      hs.gives (Source.gives_string text (c :: rest))
    have hend := atEnd_of_at hc hmoves.here
    have hunary : Rule.run (fuel + 1 + 2) .unary s = some (.string lit, s.advanced) :=
      run_unary_literal hbound (by rw [ht]; rfl) hend _
    exact ⟨.string lit, s.advanced, run_assignment hunary (.inr (.inl ⟨lit, raw, ht⟩)) hbound hend b,
      ⟨by rw [hvalue], hlone, hlegacy⟩, hmoves⟩
  | number x =>
    cases x with
    | infinite _ => cases hl
    | nan => cases hl
    | finite negative m q hmq =>
      have hdigit : ∀ d ∈ (Double.shortest m q).split.1.toList ++ (Double.shortest m q).split.2.toList,
          d.isDigit = true := fun d hd => Double.Decimal.isDigit_of_mem_split hd
      have hgives := Source.gives_number (fun d hd => hdigit d (List.mem_append_left _ hd))
        (Double.Decimal.whole_ne_nil _) (Double.Decimal.whole_zero (Double.digits_shortest hmq))
        (fun d hd => hdigit d (List.mem_append_right _ hd)) hc rest
      rw [← List.append_assoc, ← Double.Decimal.toList_positional, String.ofList_toList,
        Double.ofDecimal_shortest hmq] at hgives
      have hplain : Context.hasLegacyZero (Double.shortest m q).positional = false :=
        Double.Decimal.hasLegacyZero_positional (Double.digits_shortest hmq)
      cases negative with
      | false =>
        have hsource : (Literal.number (.finite false m q hmq)).source =
            (Double.shortest m q).positional := String.empty_append
        rw [hsource] at hs
        obtain ⟨ht, hmoves⟩ := hs.gives hgives
        have hend := atEnd_of_at hc hmoves.here
        have hunary := run_unary_literal hbound (by rw [ht]; rfl) hend (fuel + 1)
        exact ⟨_, s.advanced, run_assignment hunary (.inl ⟨_, _, ht⟩) hbound hend b, ⟨rfl, hplain⟩,
          hmoves⟩
      | true =>
        have hsource : (Literal.number (.finite true m q hmq)).source =
            "-" ++ (Double.shortest m q).positional := rfl
        obtain ⟨d, ds, hds, hd⟩ := (Double.shortest m q).exists_positional_cons
        have hlist : ("-" ++ (Double.shortest m q).positional).toList ++ c :: rest =
            '-' :: d :: (ds ++ c :: rest) := by simp [hds]
        rw [hsource, hlist] at hs
        obtain ⟨hminus, hmoves⟩ := hs.gives (Source.gives_minus hd _)
        have hthere : s.advanced.At ((Double.shortest m q).positional.toList ++ c :: rest) := by
          rw [hds]
          exact hmoves.here
        obtain ⟨ht, hmoves'⟩ := hthere.gives hgives
        have hend := atEnd_of_at hc hmoves'.here
        have hunary := run_unary_minus hbound hminus (by rw [ht]; rfl) hend fuel
        exact ⟨_, s.advanced.advanced, run_assignment hunary (.inr (.inr hminus)) hbound hend b,
          ⟨rfl, rfl, hplain⟩, hmoves.trans hmoves'⟩

/-! ## Declarators -/

/-- A text that can be declared: one word that is not protected. -/
structure IsKey (key : String) : Prop where
  word : Glossary.pieces key.toList = [.inl key]
  free : isProtectedName key = false

theorem IsKey.not_mem_reserved {key : String} (h : IsKey key) : key ∉ reservedNames := by
  have hfree := h.free
  simp only [isProtectedName, Bool.or_eq_false_iff] at hfree
  simpa using hfree.1.1

theorem reservedWords_subset : ∀ w ∈ reservedWords, w ∈ reservedNames := by decide +kernel

/-- A key before an equals sign is read as a word. -/
theorem gives_key {key : String} (h : IsKey key) (rest : List Char) :
    Source.Gives (key.toList ++ '=' :: rest) (· = .word key false) ('=' :: rest) := by
  obtain ⟨c, cs, hlist, hc, hcs⟩ := Glossary.exists_of_pieces_eq_singleton h.word
  have hgives : Source.Gives (c :: (cs ++ '=' :: rest)) (· = .word (String.ofList (c :: cs)) false)
      ('=' :: rest) := Source.gives_word hc hcs rfl (by decide)
  rw [← hlist, String.ofList_toList] at hgives
  rw [hlist]
  exact hgives

theorem run_pattern {key : String} (h : IsKey key) {s : State}
    (ht : s.reading.token = .word key false) (fuel : Nat) :
    Rule.run (fuel + 1) .pattern s = some (.binding key, s.advanced) := by
  have hreserved : key ∉ reservedWords := fun hmem =>
    h.not_mem_reserved (reservedWords_subset key hmem)
  have hawait : key ≠ "await" := by
    rintro rfl
    exact h.not_mem_reserved (by decide)
  have hyield : key ≠ "yield" := by
    rintro rfl
    exact h.not_mem_reserved (by decide)
  have hother : ∀ p, atPunct p (Rule.run fuel) s = some (false, s) :=
    fun _ => run_atPunct_other fun h => by cases ht.symm.trans h
  have hidentifier : identifier (Rule.run fuel) s = some (key, s.advanced) := by
    rw [identifier, run_bind_of (run_token _ s), ht]
    simp [require, faultIf, hreserved, hawait, hyield]
  exact (run_bind_of (hother _)).trans ((run_bind_of (hother _)).trans (run_bind_of hidentifier))

/-- The text of one binding of a declaration. -/
def bindingText (e : String × Literal) : List Char := e.1.toList ++ '=' :: e.2.source.toList

/-- A tree declares a key with the value of a literal. -/
def Declares (e : String × Literal) (t : Tree) : Prop :=
  ∃ v, t = .node (.declarator false) [.binding e.1, .absent, v] ∧ e.2.Denotes v

theorem isAbsent_of_denotes {l : Literal} {t : Tree} (h : l.Denotes t) : t.isAbsent = false :=
  h.read_eq (fun _ => rfl) (fun _ => rfl) fun _ => rfl

/-- The text of a literal does not start like an operator. -/
theorem exists_source_cons {l : Literal} (hl : l.isFinite = true) :
    ∃ d ds, l.source.toList = d :: ds ∧ d ≠ '=' ∧ d ≠ '>' := by
  cases l with
  | string text => exact ⟨'"', _, String.toList_ofList, by decide, by decide⟩
  | number x =>
    cases x with
    | infinite _ => cases hl
    | nan => cases hl
    | finite negative m q hmq =>
      obtain ⟨d, ds, hds, hd⟩ := (Double.shortest m q).exists_positional_cons
      cases negative with
      | true => exact ⟨'-', d :: ds, by simp [Literal.source, Double.display, Double.signText, hds],
          by decide, by decide⟩
      | false =>
        refine ⟨d, ds, by simp [Literal.source, Double.display, Double.signText, hds], ?_, ?_⟩ <;>
          rintro rfl <;> cases hd

/-- **One binding of a declaration is read as a declarator.** -/
theorem run_declarator {e : String × Literal} (hkey : IsKey e.1) (hl : e.2.isFinite = true)
    {s : State} {c : Char} {rest : List Char} (hc : Source.isNumberEnd c = true)
    (hs : s.At (bindingText e ++ c :: rest)) (hbound : 0 < s.bound) (word : VarWord) (fuel : Nat) :
    ∃ t s', declarator word false false (Rule.run (fuel + 5)) s = some (t, s') ∧ Declares e t ∧
      s.Moves s' (c :: rest) := by
  obtain ⟨key, l⟩ := e
  obtain ⟨d, ds, hds, hd, hd'⟩ := exists_source_cons hl
  rw [bindingText, List.append_assoc] at hs
  obtain ⟨ht, hmoves⟩ := hs.gives (gives_key hkey _)
  have hequals : Source.Gives ('=' :: (l.source.toList ++ c :: rest)) (· = .punct "=")
      (l.source.toList ++ c :: rest) := by
    rw [hds]
    exact Source.gives_equals hd hd' _
  obtain ⟨ht', hmoves'⟩ := hmoves.here.gives hequals
  obtain ⟨v, s', hvalue, hdenotes, hmoves''⟩ := run_value hl hc hmoves'.here hbound fuel true
  refine ⟨_, s', ?_, ⟨v, rfl, hdenotes⟩, (hmoves.trans hmoves').trans hmoves''⟩
  have hbang : eat "!" (Rule.run (fuel + 5)) s.advanced = some (false, s.advanced) :=
    run_eat_other (by rw [ht']; decide)
  have hcolon : (typed <&&> eat ":") (Rule.run (fuel + 5)) s.advanced = some (false, s.advanced) :=
    run_typed_and (run_eat_other (by rw [ht']; decide))
  have htype : annotation (Rule.run (fuel + 5)) s.advanced = some (.absent, s.advanced) :=
    run_bind_of hcolon
  have heat : eat "=" (Rule.run (fuel + 5)) s.advanced = some (true, s.advanced.advanced) :=
    run_eat_self ht'
  have hpattern : call .pattern (Rule.run (fuel + 5)) s = some (.binding key, s.advanced) :=
    run_pattern hkey ht (fuel + 4)
  have hinit : call (.assignment true) (Rule.run (fuel + 5)) s.advanced.advanced = some (v, s') := hvalue
  have habsent := isAbsent_of_denotes hdenotes
  refine (run_bind_of hpattern).trans ((run_bind_of (run_typed _ _)).trans
    ((run_bind_of (run_onNewLine _ _)).trans ?_))
  split
  · refine (run_bind_of hbang).trans ((run_bind_of htype).trans ((run_bind_of heat).trans
      ((run_bind_of hinit).trans ?_)))
    simp [faultIf, habsent]
  · refine (run_bind_of (run_pure _ _ false)).trans ((run_bind_of htype).trans ((run_bind_of heat).trans
      ((run_bind_of hinit).trans ?_)))
    simp [faultIf, habsent]

/-- One step of reading the bindings after the first one. -/
def declaratorStep (word : VarWord) (items : List Tree) : Parse (List Tree ⊕ List Tree) := do
  if ← eat "," then return .inl ((← declarator word false false) :: items)
  else return .inr items.reverse

/-- The bindings after the first one, each behind a comma. -/
theorem run_moreDeclarators (word : VarWord) (fuel : Nat) {rest : List Char} :
    ∀ (entries : List (String × Literal)) {n : Nat} {items : List Tree} {s : State},
      (∀ e ∈ entries, IsKey e.1 ∧ e.2.isFinite = true) → entries.length < n → 0 < s.bound →
      s.At (entries.flatMap (fun e => ',' :: bindingText e) ++ ';' :: rest) →
      ∃ ts s', repeatAtMost (declaratorStep word) n items (Rule.run (fuel + 5)) s =
          some (items.reverse ++ ts, s') ∧
        List.Forall₂ Declares entries ts ∧ s.Moves s' (';' :: rest)
  | _, 0, _, _, _, hn, _, _ => absurd hn (Nat.not_lt_zero _)
  | [], n + 1, items, s, _, _, _, hs => by
    obtain ⟨ht, -⟩ := hs.gives (Source.gives_semicolon rest)
    have heat : eat "," (Rule.run (fuel + 5)) s = some (false, s) :=
      run_eat_other (by rw [ht]; decide)
    have hstep : declaratorStep word items (Rule.run (fuel + 5)) s = some (.inr items.reverse, s) :=
      run_bind_of heat
    refine ⟨[], s, ?_, .nil, hs, rfl, rfl, rfl, rfl⟩
    rw [run_repeat_inr n hstep, List.append_nil]
  | e :: entries, n + 1, items, s, hentries, hn, hbound, hs => by
    rw [List.flatMap_cons, List.cons_append, List.cons_append, List.append_assoc] at hs
    obtain ⟨ht, hmoves⟩ := hs.gives (Source.gives_comma _)
    have heat : eat "," (Rule.run (fuel + 5)) s = some (true, s.advanced) := run_eat_self ht
    obtain ⟨hkey, hl⟩ := hentries e List.mem_cons_self
    -- What follows a binding is a comma or the semicolon at the end.
    obtain ⟨c, more, hmore, hc⟩ : ∃ c more, entries.flatMap (fun e => ',' :: bindingText e) ++
        ';' :: rest = c :: more ∧ Source.isNumberEnd c = true := by
      cases entries with
      | nil => exact ⟨';', rest, rfl, rfl⟩
      | cons e' entries => exact ⟨',', _, rfl, rfl⟩
    rw [hmore] at hmoves
    obtain ⟨t, s', hdeclarator, hdeclares, hmoves'⟩ :=
      run_declarator hkey hl hc hmoves.here hbound word fuel
    have hbound' : 0 < s'.bound := by rw [hmoves'.bound]; exact hbound
    have hs' := hmoves'.here
    rw [← hmore] at hs'
    obtain ⟨ts, s'', hrun, hall, hmoves''⟩ :
        ∃ ts s'', repeatAtMost (declaratorStep word) n (t :: items) (Rule.run (fuel + 5)) s' =
          some ((t :: items).reverse ++ ts, s'') ∧
        List.Forall₂ Declares entries ts ∧ s'.Moves s'' (';' :: rest) :=
      run_moreDeclarators word fuel entries (fun e he => hentries e (List.mem_cons_of_mem _ he))
        (by simpa using hn) hbound' hs'
    refine ⟨t :: ts, s'', ?_, .cons hdeclares hall, (hmoves.trans hmoves').trans hmoves''⟩
    have hstep : declaratorStep word items (Rule.run (fuel + 5)) s = some (.inl (t :: items), s') :=
      (run_bind_of heat).trans (run_bind_of hdeclarator)
    rw [run_repeat_inl _ _ n hstep, hrun, List.reverse_cons, List.append_assoc, List.singleton_append]

/-! ## The declaration -/

/-- The bindings of a declaration, separated by commas, and its semicolon. -/
def bindingsText (e : String × Literal) (entries : List (String × Literal)) : List Char :=
  bindingText e ++ (entries.flatMap (fun e => ',' :: bindingText e) ++ [';'])

/-- The bindings after a keyword are read as a statement. -/
theorem run_variableStatement {e : String × Literal} {entries : List (String × Literal)}
    (hentries : ∀ x ∈ e :: entries, IsKey x.1 ∧ x.2.isFinite = true) {s : State}
    (hbound : entries.length < s.bound) (hs : s.advanced.At (bindingsText e entries))
    (word : VarWord) (fuel : Nat) :
    ∃ ts s', variableStatement word .list false (Rule.run (fuel + 5)) s =
        some (.node (.variables word false) ts, s') ∧
      List.Forall₂ Declares (e :: entries) ts ∧ s.advanced.Moves s' [] := by
  obtain ⟨c, more, hmore, hc⟩ : ∃ c more, entries.flatMap (fun e => ',' :: bindingText e) ++
      [';'] = c :: more ∧ Source.isNumberEnd c = true := by
    cases entries with
    | nil => exact ⟨';', [], rfl, rfl⟩
    | cons e' entries => exact ⟨',', _, rfl, rfl⟩
  rw [bindingsText, hmore] at hs
  obtain ⟨hkey, hl⟩ := hentries e List.mem_cons_self
  have hpos : 0 < s.bound := Nat.zero_lt_of_lt hbound
  obtain ⟨t, s₁, hdeclarator, hdeclares, hmoves⟩ := run_declarator hkey hl hc hs hpos word fuel
  have hs₁ := hmoves.here
  rw [← hmore] at hs₁
  have hbound₁ : s₁.bound = s.bound := hmoves.bound
  obtain ⟨ts, s₂, hrun, hall, hmoves₂⟩ := run_moreDeclarators word fuel entries
    (fun x hx => hentries x (List.mem_cons_of_mem _ hx)) (hbound₁ ▸ hbound) (hbound₁ ▸ hpos) hs₁
  obtain ⟨ht, hmoves₃⟩ := hmoves₂.here.gives (Source.gives_semicolon [])
  refine ⟨t :: ts, s₂.advanced, ?_, .cons hdeclares hall, (hmoves.trans hmoves₂).trans hmoves₃⟩
  have hmany : many (eat ",") (declarator word false false) (Rule.run (fuel + 5)) s₁ =
      some (ts, s₂) := hrun
  have heat : eat ";" (Rule.run (fuel + 5)) s₂ = some (true, s₂.advanced) := run_eat_self ht
  have hdeclarators : declarators word false false (Rule.run (fuel + 5)) s.advanced =
      some (.node (.variables word false) (t :: ts), s₂) :=
    (run_bind_of hdeclarator).trans (run_bind_of hmany)
  have hfault : faultIf (Place.list != .list && word.isLexical) (Rule.run (fuel + 5)) s.advanced =
      some ((), s.advanced) := rfl
  exact (run_bind_of (run_advance _ s)).trans ((run_bind_of hfault).trans ((run_bind_of hdeclarators).trans
    (run_bind_of (run_bind_of heat))))

/-- The keyword of a declaration. -/
def declarationWord (d : Dialect) : String := if d.module then "const" else "var"

/-- What a declaration declares with. -/
def declarationKind (d : Dialect) : VarWord := if d.module then .const else .var

theorem run_declarationStatement {e : String × Literal} {entries : List (String × Literal)}
    (hentries : ∀ x ∈ e :: entries, IsKey x.1 ∧ x.2.isFinite = true) {s : State}
    (hbound : entries.length < s.bound)
    (ht : s.reading.token = .word (declarationWord s.dialect) false)
    (hs : s.advanced.At (bindingsText e entries)) (fuel : Nat) :
    ∃ ts s', Rule.run (fuel + 6) (.statement .list) s =
        some (.node (.variables (declarationKind s.dialect) false) ts, s') ∧
      List.Forall₂ Declares (e :: entries) ts ∧ s.advanced.Moves s' [] := by
  obtain ⟨ts, s', hstatement, hall, hmoves⟩ :=
    run_variableStatement hentries hbound hs (declarationKind s.dialect) fuel
  refine ⟨ts, s', ?_, hall, hmoves⟩
  change statementBody .list (Rule.run (fuel + 5)) s = _
  cases hmodule : s.dialect.module with
  | false =>
    simp only [declarationWord, declarationKind, hmodule] at ht hstatement ⊢
    rw [statementBody, run_bind_of (run_token _ s), ht]
    exact hstatement
  | true =>
    simp only [declarationWord, declarationKind, hmodule] at ht hstatement ⊢
    have hkey := (hentries e List.mem_cons_self).1
    rw [bindingsText, bindingText, List.append_assoc] at hs
    obtain ⟨hnext, -⟩ := hs.gives (gives_key hkey _)
    have hne : "enum" ≠ e.1 := fun h => hkey.not_mem_reserved (h ▸ by decide)
    have hword : atWord "enum" (Rule.run (fuel + 5)) s.advanced = some (false, s.advanced) :=
      run_atWord_other fun h => hne (Token.word.inj (h.symm.trans hnext)).1
    have henum : nextIs (atWord "enum") (Rule.run (fuel + 5)) s = some (false, s) :=
      run_bind_of (run_lookahead? _ _ ((run_bind_of (run_advance _ s)).trans hword))
    rw [statementBody, run_bind_of (run_token _ s), ht]
    refine ((run_bind_of (run_typed _ s)).trans ((run_bind_of henum).trans ?_))
    rw [Bool.and_false]
    exact hstatement

theorem run_programItems {stmt : Tree} {s s' : State} {rules : Rule → Step Tree}
    (hbound : 1 < s.bound) (hword : ∃ w, s.reading.token = .word w false)
    (hstatement : rules (.statement .list) s = some (stmt, s')) (hend : s'.reading.token = .eof) :
    programItems rules s = some (([], [stmt]), s') := by
  obtain ⟨n, hn⟩ : ∃ n, s.bound = n + 2 := ⟨s.bound - 2, by omega⟩
  obtain ⟨w, hw⟩ := hword
  have hfirst : (do return (← token) == .eof : Parse Bool) rules s = some (false, s) := by
    rw [run_bind_of (run_token rules s), hw]
    rfl
  have hlast : (do return (← token) == .eof : Parse Bool) rules s' = some (true, s') := by
    rw [run_bind_of (run_token rules s'), hend]
    rfl
  have hcall : call (.statement .list) rules s = some (stmt, s') := hstatement
  have hdirective : directive? s.reading.token stmt = none := by rw [hw]; rfl
  refine (run_bind_of (run_get rules s)).trans ?_
  rw [hn]
  refine (run_repeat_inl ([], [stmt], false) s' (n + 1) ?_).trans (run_repeat_inr n (run_bind_of hlast))
  refine (run_bind_of hfirst).trans ((run_bind_of (run_token rules s)).trans ((run_bind_of hcall).trans ?_))
  rw [hdirective]
  rfl

end Parse

namespace Parse

theorem length_le_flatMap_bindings : ∀ entries : List (String × Literal),
    entries.length ≤ (entries.flatMap fun e => ',' :: bindingText e).length
  | [] => Nat.le_refl 0
  | e :: entries => by
    have := length_le_flatMap_bindings entries
    rw [List.flatMap_cons, List.length_append, List.length_cons, List.length_cons]
    omega

/-- The keyword before the bindings, and what follows it. -/
theorem gives_declarationWord (d : Dialect) (rest : List Char) :
    Source.Gives ((declarationWord d).toList ++ ' ' :: rest)
      (· = .word (declarationWord d) false) (' ' :: rest) := by
  unfold declarationWord
  split
  · have h : Source.Gives ('c' :: (['o', 'n', 's', 't'] ++ ' ' :: rest)) _ (' ' :: rest) :=
      Source.gives_word rfl (List.all_eq_true.1 rfl) rfl (by decide)
    exact h
  · have h : Source.Gives ('v' :: (['a', 'r'] ++ ' ' :: rest)) _ (' ' :: rest) :=
      Source.gives_word rfl (List.all_eq_true.1 rfl) rfl (by decide)
    exact h

end Parse

theorem Literal.hasCover_of_denotes {l : Literal} {t : Tree} (h : l.Denotes t) :
    t.hasCover = false :=
  h.read_eq (fun _ => rfl) (fun _ => rfl) fun _ => rfl

theorem Parse.hasCovers_of_declares : ∀ {entries : List (String × Literal)} {ts : List Tree},
    List.Forall₂ Parse.Declares entries ts → Tree.hasCovers ts = false
  | _, _, .nil => rfl
  | _, _, .cons ⟨v, ht, hv⟩ hall => by
    simp [ht, Tree.hasCovers, Tree.hasCover, Literal.hasCover_of_denotes hv,
      Parse.hasCovers_of_declares hall]

/-- **The text of bindings is read as one declaration of them**, in every dialect. -/
theorem parse?_declaration {e : String × Literal} {entries : List (String × Literal)}
    (hentries : ∀ x ∈ e :: entries, Parse.IsKey x.1 ∧ x.2.isFinite = true) {d : Dialect}
    {text : String}
    (htext : text.toList = (Parse.declarationWord d).toList ++ ' ' :: Parse.bindingsText e entries) :
    ∃ ts, Program.parse? text d = some
        { hashbang := none, directives := []
          statements := [.node (.variables (Parse.declarationKind d) false) ts] } ∧
      List.Forall₂ Parse.Declares (e :: entries) ts := by
  have hhash : splitHashbang text.toList = (none, ⟨text.toList, 0⟩) := by
    rw [htext, Parse.declarationWord]
    split <;> rfl
  obtain ⟨s, hs⟩ : ∃ s, s = State.start d ⟨text.toList, 0⟩ (text.toList.length + 2) := ⟨_, rfl⟩
  have hstart : s.At text.toList := ⟨0, s.reading.broken, by rw [hs]; rfl⟩
  rw [htext] at hstart
  obtain ⟨ht, hmoves⟩ := hstart.gives (Parse.gives_declarationWord d _)
  have hthere : s.advanced.At (Parse.bindingsText e entries) := by
    obtain ⟨c, cs, hlist, hc, -⟩ :=
      Glossary.exists_of_pieces_eq_singleton (hentries e List.mem_cons_self).1.word
    have hsolid : Source.isSolid c = true :=
      (Source.isIdentifierPart_of_isWordPart (Source.isIdentifierStart_of_isWordStart hc).1).2
    have hhere := hmoves.here
    rw [Parse.bindingsText, Parse.bindingText, hlist] at hhere ⊢
    exact hhere.of_space hsolid
  have hbound : entries.length < s.bound := by
    have := Parse.length_le_flatMap_bindings entries
    have hlength : text.toList.length = ((Parse.declarationWord d).toList ++
        ' ' :: Parse.bindingsText e entries).length := by rw [htext]
    rw [hs]
    simp only [State.start, hlength, Parse.bindingsText, List.length_append, List.length_cons]
    omega
  obtain ⟨n, hn⟩ : ∃ n, 32 * (text.toList.length + 2) = n + 6 :=
    ⟨32 * (text.toList.length + 2) - 6, by omega⟩
  have hd : s.dialect = d := by rw [hs]; rfl
  rw [← hd] at ht
  obtain ⟨ts, s', hstatement, hall, hmoves'⟩ :=
    Parse.run_declarationStatement hentries hbound ht hthere n
  have hend : s'.reading.token = .eof := (hmoves'.here.gives Source.gives_end).1
  have hitems : Parse.programItems (Rule.run (n + 6)) s =
      some (([], [.node (.variables (Parse.declarationKind s.dialect) false) ts]), s') :=
    Parse.run_programItems (by rw [hs]; simp [State.start]) ⟨_, ht⟩ hstatement hend
  have hfaulty : s'.faulty = false := by
    rw [hmoves'.faulty, hs]
    rfl
  have hcovers := Parse.hasCovers_of_declares hall
  refine ⟨ts, ?_, hall⟩
  rw [hd] at hitems
  rw [hn.symm, hs] at hitems
  have hdistinct : exportsDistinct d [.node (.variables (Parse.declarationKind d) false) ts] = true :=
    Bool.or_true _
  have hcovered : Tree.hasCovers [.node (.variables (Parse.declarationKind d) false) ts] = false :=
    (Bool.or_false _).trans hcovers
  simp only [Program.parse?, hhash, hitems, hfaulty, hdistinct, hcovered]
  rfl

/-! ## What is declared -/

/-- The entries that a declaration lists: one for each key, in order. -/
def declared (hoisted : List (String × Literal)) : List (String × Literal) :=
  dropRepeated (sortByKey Prod.fst hoisted)

theorem declared_collates (hoisted : List (String × Literal)) : Collates hoisted (declared hoisted) :=
  collates_sortByKey hoisted

theorem mem_of_mem_declared {hoisted : List (String × Literal)} {e : String × Literal}
    (h : e ∈ declared hoisted) : e ∈ hoisted :=
  (declared_collates hoisted).mem_given h

/-- Every hoisted key is declared. -/
theorem exists_mem_declared {hoisted : List (String × Literal)} {e : String × Literal}
    (h : e ∈ hoisted) : ∃ e' ∈ declared hoisted, e'.1 = e.1 :=
  (declared_collates hoisted).exists_mem h

theorem toList_intercalate (b : String) : ∀ bs : List String,
    (",".intercalate (b :: bs)).toList = b.toList ++ bs.flatMap fun b => ',' :: b.toList
  | [] => by simp
  | b' :: bs => by
    rw [String.intercalate_cons_cons, String.toList_append, String.toList_append,
      toList_intercalate b' bs, List.flatMap_cons]
    simp

/-- The text of the declaration of entries. -/
def declarationText (entries : List (String × Literal)) (d : Dialect) : String :=
  Parse.declarationWord d ++ " " ++ ",".intercalate (entries.map fun e => e.1 ++ "=" ++ e.2.source) ++ ";"

theorem declarationSource_eq {hoisted : List (String × Literal)} (hne : hoisted ≠ []) (d : Dialect) :
    declarationSource hoisted d = some (declarationText (declared hoisted) d) := by
  have hempty : hoisted.isEmpty = false := by simpa using hne
  rw [declarationSource, hempty]
  rfl

theorem toList_declarationText (e : String × Literal) (entries : List (String × Literal)) (d : Dialect) :
    (declarationText (e :: entries) d).toList =
      (Parse.declarationWord d).toList ++ ' ' :: Parse.bindingsText e entries := by
  rw [declarationText, List.map_cons]
  simp only [String.toList_append, toList_intercalate]
  simp [Parse.bindingsText, Parse.bindingText, List.flatMap_map]

/-- The text of the declaration is read as one statement, which declares every key. -/
theorem parse?_declarationText {hoisted : List (String × Literal)}
    (hhoisted : ∀ x ∈ hoisted, Parse.IsKey x.1 ∧ x.2.isFinite = true) (hne : hoisted ≠ []) (d : Dialect) :
    ∃ ts, Program.parse? (declarationText (declared hoisted) d) d = some
        { hashbang := none, directives := []
          statements := [.node (.variables (Parse.declarationKind d) false) ts] } ∧
      List.Forall₂ Parse.Declares (declared hoisted) ts := by
  obtain ⟨e, entries, hentries⟩ : ∃ e entries, declared hoisted = e :: entries := by
    obtain ⟨x, hx⟩ := List.exists_mem_of_ne_nil _ hne
    obtain ⟨e', he', -⟩ := exists_mem_declared hx
    exact List.exists_cons_of_ne_nil (List.ne_nil_of_mem he')
  rw [hentries]
  exact parse?_declaration (fun x hx => hhoisted x (mem_of_mem_declared (hentries ▸ hx)))
    (toList_declarationText e entries d)

/-- **Hoisting puts one statement before the others**, which declares every key. -/
theorem Program.hoist_eq {hoisted : List (String × Literal)}
    (hhoisted : ∀ x ∈ hoisted, Parse.IsKey x.1 ∧ x.2.isFinite = true) (hne : hoisted ≠ [])
    (p : Program) (d : Dialect) :
    ∃ ts, p.hoist hoisted d = some
        { p with
          statements := .node (.variables (Parse.declarationKind d) false) ts :: p.statements } ∧
      List.Forall₂ Parse.Declares (declared hoisted) ts := by
  obtain ⟨ts, hparse, hall⟩ := parse?_declarationText hhoisted hne d
  refine ⟨ts, ?_, hall⟩
  simp [Program.hoist, declarationSource_eq hne, hparse]

end Abridge
