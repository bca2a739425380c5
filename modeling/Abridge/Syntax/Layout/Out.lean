import Abridge.Syntax.Layout.Literals
import Abridge.Syntax.Level
import Abridge.Text.Identifier

/-!
# Writing compact text

Compact text leaves out every blank and semicolon that is not needed, and whether one is needed
depends on what was written before.  `Out` remembers just that much: the text so far, whether a
statement still waits for its semicolon, and where the last operator, number and regular expression
ended.

The layout of a form is written like a rule of the grammar: it refers to the layout of its parts by
`sub`, and `Layout.run` ties the forms together along the height of the tree.
-/

set_option autoImplicit false

namespace Abridge

/-- Operators that must not touch each other. -/
inductive Sign where
  | plus | minus | increment | decrement | greater | not | other
  deriving DecidableEq, Repr, Inhabited

/-- The text written so far and what the next piece needs to know about it. -/
structure Out where
  text : String := ""
  /-- A semicolon is due before the next statement. -/
  semicolon : Bool := false
  /-- Where a number ended that would absorb a point. -/
  numberEnd : Option Nat := none
  /-- The operator written last and where it ended. -/
  sign : Option (Sign × Nat) := none
  /-- Where a regular expression ended. -/
  regexEnd : Option Nat := none
  /-- Where the current expression statement, arrow body and default export started. -/
  statementStart : Option Nat := none
  arrowStart : Option Nat := none
  defaultStart : Option Nat := none
  /-- Markup is part of the dialect. -/
  markup : Bool := false
  deriving Inhabited

/-- The place of an expression: what it must bind tighter than, and what it must not contain
unparenthesised. -/
structure Mode where
  level : Level := .lowest
  /-- The operator `in` needs parentheses. -/
  forbidIn : Bool := false
  /-- A call needs parentheses. -/
  forbidCall : Bool := false
  deriving Inhabited

/-- The layout of a tree, which may refer to the layout of other trees. -/
abbrev Layout := ReaderT (Tree → Mode → StateM Out Unit) (StateM Out)

namespace Layout

/-! ## Pieces of text -/

/-- Lays out a part. -/
def sub (t : Tree) (m : Mode) : Layout Unit := fun rules => rules t m

/-- Writes text. -/
def emit (s : String) : Layout Unit := modify fun o => { o with text := o.text ++ s }

/-- The last character written. -/
def last? : Layout (Option Char) := do
  let t := (← get).text
  return if t.isEmpty then none else some t.back

/-- Separates a word from a word or a regular expression before it. -/
def wordGap : Layout Unit := do
  let o ← get
  if o.text.isEmpty then return
  else if o.regexEnd == some o.text.utf8ByteSize || Text.isIdentifierPart o.text.back then emit " "

/-- Writes a word. -/
def word (w : String) : Layout Unit := do
  wordGap
  emit w

/-- Whether two operators written one after the other would read as something else. -/
def signsClash : Sign → Sign → Bool
  | .plus, .plus | .plus, .increment => true
  | .minus, .minus | .minus, .decrement => true
  | .decrement, .greater => true
  | _, _ => false

/-- Whether the last character but one is a less-than sign: with `!--` after it, that would open a
comment. -/
def afterLess (text : String) : Bool := (text.toList.reverse.drop 1).head? == some '<'

/-- Separates an operator from one before it that it must not touch. -/
def signGap (next : Sign) : Layout Unit := do
  let o ← get
  match o.sign with
  | some (prev, e) =>
    if e == o.text.utf8ByteSize then
      if prev == .not && next == .decrement then
        if afterLess o.text then emit " "
      else if signsClash prev next then emit " "
  | none => pure ()

/-- Writes an operator. -/
def signed (s : Sign) (text : String) : Layout Unit := do
  signGap s
  emit text
  modify fun o => { o with sign := some (s, o.text.utf8ByteSize) }

/-- Writes parentheses around a piece when the condition holds. -/
def wrap (b : Bool) (p : Layout Unit) : Layout Unit := do
  if b then emit "("
  p
  if b then emit ")"

/-- Writes pieces with a separator between them. -/
def sepBy {α : Type} (sep : String) (p : α → Layout Unit) : List α → Layout Unit
  | [] => pure ()
  | [a] => p a
  | a :: rest => do
    p a
    emit sep
    sepBy sep p rest

/-- Writes pieces in order. -/
def each {α : Type} (p : α → Layout Unit) : List α → Layout Unit
  | [] => pure ()
  | a :: rest => do
    p a
    each p rest

/-! ## Statements -/

/-- A semicolon is due after what was just written. -/
def owe : Layout Unit := modify fun o => { o with semicolon := true }

/-- No semicolon is due. -/
def settle : Layout Unit := modify fun o => { o with semicolon := false }

/-- Writes the semicolon that is due. -/
def paySemicolon : Layout Unit := do
  if (← get).semicolon then
    emit ";"
    settle

/-- Writes pieces in braces, each after the semicolon that its predecessor owes. -/
def braced (p : Tree → Layout Unit) (ts : List Tree) : Layout Unit := do
  emit "\x7b"
  each (fun t => do paySemicolon; p t) ts
  settle
  emit "\x7d"

/-! ## Marks -/

/-- Whether the current place is the one marked. -/
def atMark (mark : Out → Option Nat) : Layout Bool := do
  let o ← get
  return mark o == some o.text.utf8ByteSize

/-- Marks the start of an expression statement. -/
def markStatement : Layout Unit := modify fun o =>
  { o with statementStart := some o.text.utf8ByteSize }

/-- Marks the start of the body of an arrow function. -/
def markArrow : Layout Unit := modify fun o =>
  { o with arrowStart := some o.text.utf8ByteSize }

/-- Marks the start of a default export. -/
def markDefault : Layout Unit := modify fun o =>
  { o with defaultStart := some o.text.utf8ByteSize }

/-- An expression with the loosest binding. -/
def free (t : Tree) : Layout Unit := sub t {}

/-- An expression in a list. -/
def item (t : Tree) : Layout Unit := sub t { level := .comma }

end Layout

end Abridge
