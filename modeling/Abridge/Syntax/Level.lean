import Abridge.Syntax.Tree

/-!
# Binding strength

The levels that order operators from the loosest to the tightest.  The grammar groups operands by
them and the printer writes parentheses by them, so both take them from here.
-/

set_option autoImplicit false

namespace Abridge

/-- The levels of binding strength, from the loosest to the tightest. -/
inductive Level where
  | lowest | comma | spread | yield | assign | conditional | nullish | or | and
  | bitOr | bitXor | bitAnd | equals | compare | shift | add | multiply | power
  | unary | update | new | call | member
  deriving DecidableEq, Repr, Inhabited

/-- The position of a level in the order. -/
def Level.rank : Level → Nat
  | .lowest => 0 | .comma => 1 | .spread => 2 | .yield => 3 | .assign => 4 | .conditional => 5
  | .nullish => 6 | .or => 7 | .and => 8 | .bitOr => 9 | .bitXor => 10 | .bitAnd => 11
  | .equals => 12 | .compare => 13 | .shift => 14 | .add => 15 | .multiply => 16 | .power => 17
  | .unary => 18 | .update => 19 | .new => 20 | .call => 21 | .member => 22

/-- The level just below another. -/
def Level.below : Level → Level
  | .lowest => .lowest | .comma => .lowest | .spread => .comma | .yield => .spread
  | .assign => .yield | .conditional => .assign | .nullish => .conditional | .or => .nullish
  | .and => .or | .bitOr => .and | .bitXor => .bitOr | .bitAnd => .bitXor | .equals => .bitAnd
  | .compare => .equals | .shift => .compare | .add => .shift | .multiply => .add
  | .power => .multiply | .unary => .power | .update => .unary | .new => .update
  | .call => .new | .member => .call

instance : LE Level := ⟨fun a b => a.rank ≤ b.rank⟩

instance : LT Level := ⟨fun a b => a.rank < b.rank⟩

instance (a b : Level) : Decidable (a ≤ b) := inferInstanceAs (Decidable (a.rank ≤ b.rank))

instance (a b : Level) : Decidable (a < b) := inferInstanceAs (Decidable (a.rank < b.rank))

/-- The level of a binary operator. -/
def BinaryOp.level : BinaryOp → Level
  | .coalesce => .nullish
  | .or => .or
  | .and => .and
  | .bitOr => .bitOr
  | .bitXor => .bitXor
  | .bitAnd => .bitAnd
  | .eq | .ne | .strictEq | .strictNe => .equals
  | .lt | .le | .gt | .ge | .in | .instanceof => .compare
  | .shl | .shr | .ushr => .shift
  | .add | .sub => .add
  | .mul | .div | .rem => .multiply
  | .pow => .power

/-- The binary operators that are written with signs. -/
def BinaryOp.signs : List BinaryOp :=
  [.eq, .ne, .strictEq, .strictNe, .lt, .le, .gt, .ge, .shl, .shr, .ushr, .add, .sub, .mul, .div,
   .rem, .pow, .bitOr, .bitXor, .bitAnd, .or, .and, .coalesce]

/-- The binary operator that a punctuator writes. -/
def BinaryOp.ofSign? (p : String) : Option BinaryOp := BinaryOp.signs.find? (·.text == p)

/-- The operators that combine with an assignment sign. -/
def BinaryOp.assigning : List BinaryOp :=
  [.shl, .shr, .ushr, .add, .sub, .mul, .div, .rem, .pow, .bitOr, .bitXor, .bitAnd, .or, .and,
   .coalesce]

/-- The operator of an assignment sign: absent for the plain one. -/
def BinaryOp.ofAssignment? (p : String) : Option (Option BinaryOp) :=
  if p == "=" then some none
  else (BinaryOp.assigning.find? fun op => op.text ++ "=" == p).map some

end Abridge
