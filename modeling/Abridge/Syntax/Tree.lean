import Abridge.Number.Double

/-!
# Syntax trees

A module is a tree of one uniform shape: leaves for the things this library cares about (names and
literals), and inner nodes that carry a grammatical `Form` and the list of their parts.  Every
analysis is then one recursion over the parts in source order plus a few forms that it treats apart,
and a transformation that touches names alone cannot disturb the rest of the tree.

## Leaves

Names are told apart by what they do, because that decides who may change their spelling:

* `binding`: the name is introduced here;
* `reference`: the name refers to a binding;
* `name`: a property, member or module-interface name, never resolved;
* `markupName`: a name of the markup vocabulary (attribute, lower-case tag);
* `label`, `privateName`: statement labels and `#private` members, with spaces of their own.

Literals in expression position (`string`, `number`) carry the byte offset at which they were
written; that offset is how a plan refers to them.  Strings that name modules or keys of the module
interface are `quoted` and no plan can touch them.

## Parts

The parts of a node stand in the order in which the source is walked.  A part that may be missing is
`absent`, and a part that is itself a sequence is a `Form.group`, so that each form has a fixed
number of parts unless it says otherwise.
-/

set_option autoImplicit false

namespace Abridge

/-! ## Words and operators -/

/-- The keywords that declare variables. -/
inductive VarWord where
  | var | «let» | const | using | awaitUsing
  deriving DecidableEq, Repr, Inhabited

/-- Whether the variables are bound in their block rather than in their function. -/
def VarWord.isLexical : VarWord → Bool
  | .var => false
  | _ => true

/-- Operators with two operands, the three short-circuiting ones included. -/
inductive BinaryOp where
  | eq | ne | strictEq | strictNe | lt | le | gt | ge
  | shl | shr | ushr | add | sub | mul | div | rem | pow
  | bitOr | bitXor | bitAnd | «in» | instanceof
  | or | and | coalesce
  deriving DecidableEq, Repr, Inhabited

/-- The operator as it is written. -/
def BinaryOp.text : BinaryOp → String
  | .eq => "==" | .ne => "!=" | .strictEq => "===" | .strictNe => "!=="
  | .lt => "<" | .le => "<=" | .gt => ">" | .ge => ">="
  | .shl => "<<" | .shr => ">>" | .ushr => ">>>"
  | .add => "+" | .sub => "-" | .mul => "*" | .div => "/" | .rem => "%" | .pow => "**"
  | .bitOr => "|" | .bitXor => "^" | .bitAnd => "&" | .in => "in" | .instanceof => "instanceof"
  | .or => "||" | .and => "&&" | .coalesce => "??"

/-- Operators written before their operand, the two increments apart. -/
inductive UnaryOp where
  | plus | minus | not | bitNot | typeof | void | delete
  deriving DecidableEq, Repr, Inhabited

/-- The operator as it is written. -/
def UnaryOp.text : UnaryOp → String
  | .plus => "+" | .minus => "-" | .not => "!" | .bitNot => "~"
  | .typeof => "typeof" | .void => "void" | .delete => "delete"

/-- Whether the operator is spelled with letters. -/
def UnaryOp.isWord : UnaryOp → Bool
  | .typeof | .void | .delete => true
  | _ => false

/-- Who may use a class member. -/
inductive Access where
  | «public» | «private» | «protected»
  deriving DecidableEq, Repr, Inhabited

/-- The modifier as it is written. -/
def Access.text : Access → String
  | .public => "public" | .private => "private" | .protected => "protected"

/-! ## Attributes of forms -/

/-- The places a function can stand in. -/
inductive FunctionRole where
  /-- A statement that binds its name in the enclosing scope. -/
  | declaration
  /-- An expression, or the value of a method; its name is visible only inside. -/
  | expression
  /-- A declaration without a body: an overload or an ambient function. -/
  | signature
  /-- A method without a body. -/
  | bodiless
  deriving DecidableEq, Repr, Inhabited

/-- What distinguishes one function form from another. -/
structure FunctionInfo where
  role : FunctionRole := .expression
  async : Bool := false
  generator : Bool := false
  ambient : Bool := false
  deriving DecidableEq, Repr, Inhabited

/-- Plain values, getters and setters of object literals. -/
inductive PropertyKind where
  | value | get | set
  deriving DecidableEq, Repr, Inhabited

/-- What distinguishes one object property from another. -/
structure PropertyInfo where
  kind : PropertyKind := .value
  method : Bool := false
  shorthand : Bool := false
  computed : Bool := false
  deriving DecidableEq, Repr, Inhabited

/-- What distinguishes one class form from another. -/
structure ClassInfo where
  expression : Bool := false
  abstract : Bool := false
  ambient : Bool := false
  deriving DecidableEq, Repr, Inhabited

/-- Kinds of class members written with a parameter list. -/
inductive MethodKind where
  | constructor | method | get | set
  deriving DecidableEq, Repr, Inhabited

/-- Modifiers of class members and of parameters. -/
structure Modifiers where
  access : Option Access := none
  static : Bool := false
  ambient : Bool := false
  abstract : Bool := false
  override : Bool := false
  readonly : Bool := false
  async : Bool := false
  const : Bool := false
  accessor : Bool := false
  «export» : Bool := false
  variance : List String := []
  deriving DecidableEq, Repr, Inhabited

/-- What distinguishes one class member from another. -/
structure MemberInfo where
  modifiers : Modifiers := {}
  computed : Bool := false
  optional : Bool := false
  definite : Bool := false
  deriving DecidableEq, Repr, Inhabited

/-- A change of a modifier in a mapped type: absent, present, added or removed. -/
inductive MappedModifier where
  | absent | present | plus | minus
  deriving DecidableEq, Repr, Inhabited

/-- A string literal: its value, whether the value encodes lone surrogates, whether it was written
with an escape that strict code forbids, and where it was written. -/
structure StringLiteral where
  value : String
  surrogates : Bool := false
  legacy : Bool := false
  start : Nat := 0
  deriving DecidableEq, Repr, Inhabited

/-- A numeric literal: its value, its source text and where it was written. -/
structure NumberLiteral where
  value : Double
  raw : String
  start : Nat := 0
  deriving DecidableEq, Repr, Inhabited

/-! ## Forms -/

/-- The grammatical form of an inner node.  The comment of each form lists its parts in order. -/
inductive Form where
  /-- A sequence that has no form of its own. -/
  | group
  -- Expressions
  | this | super | null | bool (value : Bool)
  /-- A big integer, by its decimal digits. -/
  | bigint (digits : String)
  | regex (pattern flags : String)
  /-- The text pieces around the holes; parts: the holes. -/
  | template (pieces : List String)
  /-- tag, type arguments, template -/
  | tagged
  /-- elements; an absent one is a hole.  The flag records a comma after the last element. -/
  | array (comma : Bool)
  /-- properties and spreads.  The flag records a comma after the last property. -/
  | object (comma : Bool)
  /-- key, value -/
  | property (info : PropertyInfo)
  /-- expression -/
  | spread
  /-- name, type parameters, `this` parameter, parameters, return type, body -/
  | function (info : FunctionInfo)
  /-- type parameters, parameters, return type, body -/
  | arrow (async : Bool) (concise : Bool)
  /-- parameters and at last a rest parameter -/
  | params
  /-- decorators, pattern, type, initialiser -/
  | param (modifiers : Modifiers) (optional : Bool)
  /-- decorators, pattern, type -/
  | restParam
  /-- type -/
  | thisParam
  /-- directives and statements -/
  | body
  /-- decorators, name, type parameters, superclass, its type arguments, interfaces, members -/
  | class (info : ClassInfo)
  /-- decorators, key, function -/
  | method (kind : MethodKind) (info : MemberInfo)
  /-- decorators, key, type, value -/
  | field (info : MemberInfo)
  /-- statements -/
  | staticBlock
  /-- callee, type arguments, arguments -/
  | call (optional : Bool)
  /-- callee, type arguments, arguments or absent -/
  | new
  /-- expression with an optional link inside -/
  | chain
  /-- object, name -/
  | member (optional : Bool)
  /-- object, private name -/
  | privateMember (optional : Bool)
  /-- object, expression -/
  | index (optional : Bool)
  /-- left, right -/
  | binary (op : BinaryOp)
  /-- private name, right -/
  | privateIn
  /-- operand -/
  | unary (op : UnaryOp)
  /-- target -/
  | update (increment : Bool) (before : Bool)
  /-- target, value; the operator is absent for plain assignment -/
  | assign (op : Option BinaryOp)
  /-- test, consequent, alternate -/
  | conditional
  /-- expressions -/
  | sequence
  /-- expression -/
  | paren
  /-- expression -/
  | await
  /-- expression or absent -/
  | yield (delegate : Bool)
  /-- source, options or absent -/
  | importCall (phase : Option String)
  /-- two names, as in `import.meta` -/
  | metaProperty
  -- Patterns
  /-- binding properties and at last a rest -/
  | objectPattern
  /-- key, pattern -/
  | bindingProperty (shorthand computed : Bool)
  /-- elements, absent ones being holes, and at last a rest -/
  | arrayPattern
  /-- pattern, initialiser -/
  | defaulted
  /-- pattern -/
  | rest
  -- Assignment targets
  /-- target properties and at last a rest -/
  | objectTarget
  /-- reference, initialiser or absent -/
  | targetShorthand
  /-- key, target -/
  | targetProperty (computed : Bool)
  /-- elements, absent ones being holes, and at last a rest -/
  | arrayTarget
  /-- target, initialiser -/
  | targetDefault
  /-- target -/
  | targetRest
  /-- A shorthand property with an initialiser, legal only where it becomes a target: reference,
  initialiser -/
  | coverDefault
  -- Markup
  /-- opening tag, children, closing tag or absent -/
  | element
  /-- children -/
  | fragment
  /-- tag, type arguments, attributes -/
  | opening (selfClosing : Bool)
  /-- tag -/
  | closing
  /-- two names -/
  | namespacedTag
  /-- object, name -/
  | memberTag
  /-- name, value or absent -/
  | markupAttribute
  /-- expression -/
  | spreadAttribute
  /-- The source text of an attribute string. -/
  | attributeText (raw : String)
  /-- expression, absent in an empty container -/
  | container
  /-- expression -/
  | spreadChild
  /-- The source text between tags. -/
  | markupText (raw : String)
  -- Typed expressions
  /-- expression, type -/
  | as
  /-- expression, type -/
  | satisfies
  /-- type, expression -/
  | assertion
  /-- expression -/
  | nonNull
  /-- expression, type arguments -/
  | instantiation
  -- Statements
  /-- A string statement that opens a body, by its source text between the quotes. -/
  | directive (raw : String)
  /-- statements -/
  | block
  | empty
  /-- expression -/
  | expression
  /-- declarators -/
  | variables (word : VarWord) (ambient : Bool)
  /-- pattern, type, initialiser -/
  | declarator (definite : Bool)
  /-- test, consequent, alternate or absent -/
  | if
  /-- initialiser, test, update, body -/
  | for
  /-- left, right, body -/
  | forIn
  /-- left, right, body -/
  | forOf (await : Bool)
  /-- test, body -/
  | while
  /-- body, test -/
  | doWhile
  /-- expression or absent -/
  | return
  /-- expression -/
  | throw
  /-- label or absent -/
  | break
  /-- label or absent -/
  | continue
  /-- label, statement -/
  | labelled
  /-- discriminant, cases -/
  | switch
  /-- test (absent for the default clause), statements -/
  | case
  /-- block, handler or absent, finaliser or absent -/
  | try
  /-- parameter or absent, its type, block -/
  | catch
  /-- object, body -/
  | with
  | debugger
  -- Module interface
  /-- specifiers or absent, source, attributes -/
  | import (typeOnly : Bool) (phase : Option String)
  /-- local name -/
  | importDefault
  /-- local name -/
  | importAll
  /-- imported name, local name -/
  | importNamed (typeOnly : Bool)
  /-- entries -/
  | attributes (word : String)
  /-- key, value -/
  | attributeEntry
  /-- declaration, specifiers, source, attributes -/
  | exportNamed (typeOnly : Bool)
  /-- local name, exported name -/
  | exportSpecifier (typeOnly : Bool)
  /-- declaration or expression -/
  | exportDefault
  /-- exported name or absent, source, attributes -/
  | exportAll (typeOnly : Bool)
  -- Type declarations
  /-- name, type parameters, type -/
  | typeAlias (ambient : Bool)
  /-- name, type parameters, bases, members -/
  | interface (ambient : Bool)
  /-- expression, type arguments -/
  | heritage
  /-- name, members -/
  | enum (const ambient : Bool)
  /-- name, initialiser -/
  | enumMember (computed : Bool)
  /-- name, body -/
  | namespace (word : String) (ambient : Bool)
  /-- statements -/
  | moduleBlock
  /-- block -/
  | global (ambient : Bool)
  /-- name, reference -/
  | importEquals (typeOnly : Bool)
  /-- source -/
  | externalModule
  /-- expression -/
  | exportAssignment
  /-- name -/
  | namespaceExport
  -- Types
  | keywordType (word : String)
  | thisType
  /-- name, type arguments -/
  | typeRef
  /-- left, name -/
  | qualified
  /-- name, type arguments -/
  | typeQuery
  /-- members -/
  | typeLiteral
  /-- element -/
  | arrayType
  /-- object, index -/
  | indexedType
  /-- elements -/
  | tupleType
  /-- type -/
  | optionalType
  /-- type -/
  | restType
  /-- label, type -/
  | namedMember (optional : Bool)
  /-- types -/
  | unionType
  /-- types -/
  | intersectionType
  /-- type -/
  | parenType
  /-- check, extends, true branch, false branch -/
  | conditionalType
  /-- type parameter -/
  | inferType
  /-- type -/
  | operatorType (word : String)
  /-- key, constraint, name type, type -/
  | mappedType (readonly optional : MappedModifier)
  /-- literal -/
  | literalType
  /-- A numeric literal type, by its source text. -/
  | numberType (raw : String)
  /-- The text pieces around the holes; parts: types. -/
  | templateType (pieces : List String)
  /-- type parameters, `this` parameter, parameters, return type -/
  | functionType
  /-- type parameters, parameters, return type -/
  | constructorType (abstract : Bool)
  /-- source, options, qualifier, type arguments -/
  | importType
  /-- name or `this`, type or absent -/
  | predicate (asserts : Bool)
  /-- type parameters -/
  | typeParams
  /-- name, constraint, default -/
  | typeParam (modifiers : List String)
  /-- types -/
  | typeArgs
  /-- type -/
  | nullableType (before : Bool)
  -- Type members
  /-- key, type -/
  | propertySignature (computed optional readonly : Bool)
  /-- key, type parameters, `this` parameter, parameters, return type -/
  | methodSignature (kind : PropertyKind) (computed optional : Bool)
  /-- type parameters, `this` parameter, parameters, return type -/
  | callSignature
  /-- type parameters, parameters, return type -/
  | constructSignature
  /-- The names of the indices; parts: their types, then the type of the entries. -/
  | indexSignature (static readonly : Bool) (names : List String)
  deriving DecidableEq, Repr, Inhabited

/-- A syntax tree. -/
inductive Tree where
  | absent
  | binding (name : String)
  | reference (name : String)
  | name (name : String)
  | markupName (name : String)
  | label (name : String)
  | privateName (name : String)
  | string (literal : StringLiteral)
  | number (literal : NumberLiteral)
  | quoted (literal : StringLiteral)
  | node (form : Form) (parts : List Tree)
  deriving Repr, Inhabited

namespace Tree

/-- A sequence that has no form of its own. -/
def group (parts : List Tree) : Tree := .node .group parts

/-- Whether the part is missing. -/
def isAbsent : Tree → Bool
  | .absent => true
  | _ => false

/-- The parts of a node; a leaf has none. -/
def parts : Tree → List Tree
  | .node _ ps => ps
  | _ => []

/-- The tree without the parentheses around it. -/
def stripParens : Tree → Tree
  | .node .paren [t] => stripParens t
  | t => t

mutual

/-- The number of nodes on the longest path from the root to a leaf. -/
def height : Tree → Nat
  | .node _ ps => heights ps + 1
  | _ => 1

/-- The greatest height among the trees. -/
def heights : List Tree → Nat
  | [] => 0
  | t :: ts => max t.height (heights ts)

end

mutual

/-- Whether two trees are the same. -/
def same : Tree → Tree → Bool
  | .absent, .absent => true
  | .binding a, .binding b => a == b
  | .reference a, .reference b => a == b
  | .name a, .name b => a == b
  | .markupName a, .markupName b => a == b
  | .label a, .label b => a == b
  | .privateName a, .privateName b => a == b
  | .string a, .string b => a == b
  | .number a, .number b => a == b
  | .quoted a, .quoted b => a == b
  | .node f ps, .node g qs => f == g && allSame ps qs
  | _, _ => false

/-- Whether two lists of trees are the same. -/
def allSame : List Tree → List Tree → Bool
  | [], [] => true
  | t :: ts, u :: us => t.same u && allSame ts us
  | _, _ => false

end

mutual

theorem eq_of_same : ∀ {t u : Tree}, t.same u = true → t = u
  | .node f ps, .node g qs, h => by
    obtain ⟨hf, hps⟩ := Bool.and_eq_true_iff.1 h
    rw [eq_of_beq hf, eq_of_allSame hps]
  | .absent, u, h | .binding _, u, h | .reference _, u, h | .name _, u, h | .markupName _, u, h
  | .label _, u, h | .privateName _, u, h | .string _, u, h | .number _, u, h | .quoted _, u, h => by
    cases u <;> first | rfl | exact congrArg _ (eq_of_beq h) | cases h
  | .node _ _, .absent, h | .node _ _, .binding _, h | .node _ _, .reference _, h
  | .node _ _, .name _, h | .node _ _, .markupName _, h | .node _ _, .label _, h
  | .node _ _, .privateName _, h | .node _ _, .string _, h | .node _ _, .number _, h
  | .node _ _, .quoted _, h => by cases h

theorem eq_of_allSame : ∀ {ts us : List Tree}, allSame ts us = true → ts = us
  | [], [], _ => rfl
  | t :: ts, u :: us, h => by
    obtain ⟨ht, hts⟩ := Bool.and_eq_true_iff.1 h
    rw [eq_of_same ht, eq_of_allSame hts]
  | [], _ :: _, h | _ :: _, [], h => by cases h

end

mutual

theorem same_self : ∀ t : Tree, t.same t = true
  | .node f ps => Bool.and_eq_true_iff.2 ⟨beq_self_eq_true f, allSame_self ps⟩
  | .absent => rfl
  | .binding a | .reference a | .name a | .markupName a | .label a | .privateName a =>
    beq_self_eq_true a
  | .string a | .quoted a => beq_self_eq_true a
  | .number a => beq_self_eq_true a

theorem allSame_self : ∀ ts : List Tree, allSame ts ts = true
  | [] => rfl
  | t :: ts => Bool.and_eq_true_iff.2 ⟨same_self t, allSame_self ts⟩

end

instance : DecidableEq Tree := fun t u =>
  decidable_of_iff (t.same u = true) ⟨eq_of_same, fun h => h ▸ same_self t⟩

end Tree

/-- A whole module: what stands before the statements, and the statements. -/
structure Program where
  /-- The interpreter line, without its `#!`. -/
  hashbang : Option String := none
  /-- The source text of each directive, between the quotes. -/
  directives : List String := []
  statements : List Tree := []
  deriving DecidableEq, Repr, Inhabited

/-- Which syntax a module is read under. -/
structure Dialect where
  /-- Modules are strict and have `import` and `export`; other programs are classic scripts. -/
  module : Bool := true
  /-- Markup elements in expressions. -/
  jsx : Bool := true
  /-- Static types. -/
  typescript : Bool := false
  deriving DecidableEq, Repr, Inhabited

end Abridge
