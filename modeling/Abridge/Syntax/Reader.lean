import Abridge.Syntax.Token
import Abridge.Syntax.Tree

/-!
# Reading by rules

The grammar is written as one body per rule, and a body refers to other rules only by their names
(`Rule`).  The reader ties the bodies together: running a rule with fuel `n + 1` runs its body, and
every rule the body refers to runs with fuel `n`.  Nothing else in the grammar is recursive, so each
body can be read, and reasoned about, on its own.

## What is here

* `State`: the current token, the setting and the dialect.
* `Parse`: a computation that may refer to rules, moves through the tokens and may fail.
* The vocabulary of the grammar: `at`, `eat`, `expect`, `lookahead`, `attempt`, `many`, `separated`.

Failure is total: `Parse` has no notion of a partial result.  `fault` marks text that can be read to
its end but must be rejected all the same.  It differs from failure only inside `attempt`, which takes
back a failed reading but keeps a faulty one.
-/

set_option autoImplicit false

namespace Abridge

/-- What the place of the current token permits. -/
structure Setting where
  /-- The operator `in` may occur. -/
  inOperator : Bool := true
  /-- `yield` is an operator. -/
  yield : Bool := false
  /-- `await` is an operator. -/
  await : Bool := false
  /-- `return` may occur. -/
  «return» : Bool := false
  /-- A conditional type may follow. -/
  conditionalTypes : Bool := true
  /-- Declarations have no bodies or values. -/
  ambient : Bool := false
  /-- Inside a decorator, where a bracket opens no member access. -/
  decorator : Bool := false
  deriving DecidableEq, Repr, Inhabited

/-- Where the reader stands. -/
structure State where
  /-- The current token. -/
  reading : Source.Reading
  /-- The byte offset at which the token before the current one ended. -/
  lastEnd : Nat
  setting : Setting
  dialect : Dialect
  /-- The text must be rejected. -/
  faulty : Bool
  /-- More than the number of tokens in the text. -/
  bound : Nat
  deriving Repr, Inhabited

/-- Where a statement stands. -/
inductive Place where
  /-- In a list of statements. -/
  | list
  /-- The branch of an `if`. -/
  | branch
  /-- The body of a label. -/
  | label
  /-- The body of a loop or of `with`. -/
  | body
  deriving DecidableEq, Repr, Inhabited

/-- The rules that other rules refer to. -/
inductive Rule where
  /-- Expressions separated by commas. -/
  | expression
  /-- One expression; the flag permits a return type on an arrow function that ends it. -/
  | assignment (returnType : Bool)
  /-- Binary operators that bind tighter than a level. -/
  | binary (level : Nat)
  /-- An operand with its prefix operators. -/
  | unary
  /-- Members and calls. -/
  | leftHandSide
  | statement (place : Place)
  /-- A brace-enclosed block. -/
  | block
  /-- A brace-enclosed function body. -/
  | functionBody
  /-- A parenthesised parameter list, with its `this` parameter. -/
  | params
  | pattern
  | type
  /-- A type or a type guard. -/
  | returnType
  /-- Type parameters or nothing. -/
  | typeParams
  /-- A property name, alone or in brackets; a computed one is a group of one part. -/
  | propertyName
  /-- A markup element that starts at the current bracket; the flag tells whether it stands between
  tags. -/
  | markup (inside : Bool)
  /-- The members of an object type. -/
  | typeMembers
  /-- A class; the flag tells whether it is an expression. -/
  | class (expression : Bool) (decorators : Tree) (modifiers : Modifiers)
  /-- A function from its keyword on. -/
  | function (expression : Bool) (async : Bool) (modifiers : Modifiers) (defaultExport : Bool)
  /-- The statements of a module block. -/
  | moduleBlock
  deriving Repr, Inhabited

/-- A reading that may fail. -/
abbrev Step := StateT State Option

/-- A reading that may refer to rules and may fail. -/
abbrev Parse := ReaderT (Rule → Step Tree) Step

namespace Parse

/-! ## Rules and outcomes -/

/-- Reads by a rule. -/
def call (r : Rule) : Parse Tree := fun rules => rules r

/-- Rejects the text here. -/
def fail {α : Type} : Parse α := fun _ _ => none

/-- Marks the text as one to reject, and goes on. -/
def fault : Parse Unit := modify fun s => { s with faulty := true }

/-- Marks the text when the condition holds. -/
def faultIf (b : Bool) : Parse Unit := if b then fault else pure ()

/-- Fails unless the condition holds. -/
def require (b : Bool) : Parse Unit := if b then pure () else fail

/-- The result of a reading, without moving; `none` when the reading fails. -/
def lookahead? {α : Type} (p : Parse α) : Parse (Option α) := fun rules s =>
  match p rules s with
  | some (a, _) => some (some a, s)
  | none => some (none, s)

/-- Whether a reading succeeds with `true`; the reader does not move. -/
def lookahead (p : Parse Bool) : Parse Bool := do return (← lookahead? p).getD false

/-- A reading, or nothing and no movement when it fails. -/
def attempt {α : Type} (p : Parse α) : Parse (Option α) := fun rules s =>
  match p rules s with
  | some (a, s') => some (some a, s')
  | none => some (none, s)

/-- Repeats a step until it gives a result; at most `n` times. -/
def repeatAtMost {α β : Type} (step : α → Parse (α ⊕ β)) : Nat → α → Parse β
  | 0, _ => fail
  | n + 1, a => do
    match ← step a with
    | .inl a => repeatAtMost step n a
    | .inr b => pure b

/-- Repeats a step until it gives a result. -/
def iterate {α β : Type} (a : α) (step : α → Parse (α ⊕ β)) : Parse β := do
  repeatAtMost step (← get).bound a

/-- Reads items while the condition holds. -/
def many {α : Type} (more : Parse Bool) (item : Parse α) : Parse (List α) :=
  iterate [] fun items => do
    if ← more then return .inl ((← item) :: items) else return .inr items.reverse

/-! ## The setting -/

/-- The current setting. -/
def setting : Parse Setting := do return (← get).setting

/-- Whether static types are part of the dialect. -/
def typed : Parse Bool := do return (← get).dialect.typescript

/-- Whether markup is part of the dialect. -/
def markup : Parse Bool := do return (← get).dialect.jsx

/-- Reads under a changed setting, which is put back afterwards. -/
def within {α : Type} (change : Setting → Setting) (p : Parse α) : Parse α := do
  let saved ← setting
  modify fun s => { s with setting := change s.setting }
  let a ← p
  modify fun s => { s with setting := saved }
  return a

/-- Reads with the operator `in` permitted. -/
def withIn {α : Type} (p : Parse α) : Parse α := within (fun s => { s with inOperator := true }) p

/-! ## Tokens -/

/-- The current token. -/
def token : Parse Token := do return (← get).reading.token

/-- Whether a line break stands before the current token. -/
def onNewLine : Parse Bool := do return (← get).reading.broken

/-- The byte offset of the current token. -/
def position : Parse Nat := do return (← get).reading.start.offset

/-- Moves to the next token. -/
def advance : Parse Unit := modify fun s =>
  { s with
    lastEnd := s.reading.after.offset
    reading := s.reading.after.next (!s.dialect.module) }

/-- Reads the current token again in another mode. -/
def reread (mode : Source → Token × Source) : Parse Unit := modify fun s =>
  let (token, after) := mode s.reading.start
  { s with reading := { s.reading with token, after } }

/-- Moves on, reading the next token in another mode. -/
def advanceBy (mode : Source → Source.Reading) : Parse Unit := modify fun s =>
  { s with
    lastEnd := s.reading.after.offset
    reading := mode s.reading.after }

/-- Whether the current token is the punctuator. -/
def atPunct (p : String) : Parse Bool := do
  match ← token with
  | .punct q => return p == q
  | _ => return false

/-- Whether the current token is one of the punctuators. -/
def atAny (ps : List String) : Parse Bool := do
  match ← token with
  | .punct q => return ps.contains q
  | _ => return false

/-- Whether the current token is the word, written without escapes. -/
def atWord (w : String) : Parse Bool := do
  match ← token with
  | .word v false => return w == v
  | _ => return false

/-- Whether the current token is one of the words, written without escapes. -/
def atWords (ws : List String) : Parse Bool := do
  match ← token with
  | .word v false => return ws.contains v
  | _ => return false

/-- Takes the punctuator if it is there. -/
def eat (p : String) : Parse Bool := do
  if ← atPunct p then advance; return true else return false

/-- Takes the word if it is there. -/
def eatWord (w : String) : Parse Bool := do
  if ← atWord w then advance; return true else return false

/-- Takes the punctuator, which must be there. -/
def expect (p : String) : Parse Unit := do require (← eat p)

/-- Takes the word, which must be there. -/
def expectWord (w : String) : Parse Unit := do require (← eatWord w)

/-- Whether the token after the current one passes a test. -/
def nextIs (test : Parse Bool) : Parse Bool := lookahead do advance; test

/-- A statement may end here. -/
def canEndStatement : Parse Bool := do
  return (← atAny [";", "\x7d"]) || (← token) == .eof || (← onNewLine)

/-- Ends a statement: a semicolon, or a place where one may be left out. -/
def endStatement : Parse Unit := do
  if ← eat ";" then pure ()
  else require (← canEndStatement)

/-- Items separated by commas up to a closing punctuator, which is not taken.  The flag tells whether
a comma stands before it. -/
def separated {α : Type} (close : String) (item : Parse α) : Parse (List α × Bool) :=
  iterate ([], false) fun (items, comma) => do
    if ← atPunct close then return .inr (items.reverse, comma)
    else
      require (items.isEmpty || comma)
      let a ← item
      return .inl (a :: items, ← eat ",")

/-! ## Greater-than signs

A greater-than sign is read alone, since it may close a list of types; where an operator is expected
the signs that touch it are joined to it. -/

/-- The operators that start with a greater-than sign, longest first. -/
def angleOperators : List String := [">>>=", ">>>", ">>=", ">>", ">="]

/-- Joins a greater-than sign with the signs that follow it. -/
def joinAngle : Parse Unit := do
  if ← atPunct ">" then
    reread fun s =>
      match angleOperators.find? (fun p => p.toList.isPrefixOf s.rest) with
      | some p => (.punct p, s.advance p.length)
      | none => (.punct ">", s.advance 1)

/-- Reads a double less-than sign as a single one. -/
def splitAngle : Parse Unit := do
  if ← atAny ["<<", "<<=", "<="] then
    reread fun s => (.punct "<", s.advance 1)

/-- Takes the greater-than sign that closes a list of types. -/
def expectClosingAngle : Parse Unit := do
  if ← atAny [">>>=", ">>>", ">>=", ">>", ">="] then
    reread fun s => (.punct ">", s.advance 1)
  expect ">"

end Parse

end Abridge
