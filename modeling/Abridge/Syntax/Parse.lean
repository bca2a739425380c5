import Abridge.Scope.Declared
import Abridge.Syntax.Grammar.Statements

/-!
# Reading a program

The bodies of all rules are tied together here, and a whole text is read as a program of a given
dialect.  A text is accepted as a whole or not at all: `Program.parse?` gives nothing when any part of
it is malformed.

The fuel is a multiple of the length of the text.  Every rule that is entered without taking a token
enters another rule that comes before it in a fixed order, so a constant number of rules per token is
enough.
-/

set_option autoImplicit false

namespace Abridge

/-- The body of each rule. -/
def Rule.body : Rule → Parse Tree
  | .expression => Parse.expressionBody
  | .assignment typed => Parse.assignmentBody typed
  | .binary level => Parse.binaryBody level
  | .unary => Parse.unaryBody
  | .leftHandSide => Parse.leftHandSideBody
  | .statement place => Parse.statementBody place
  | .block => Parse.blockBody
  | .functionBody => Parse.functionBodyBody
  | .params => Parse.paramsBody
  | .pattern => Parse.patternBody
  | .type => Parse.typeBody
  | .returnType => Parse.returnTypeBody
  | .typeParams => Parse.typeParamsBody
  | .propertyName => Parse.propertyNameBody
  | .markup inside => Parse.markupBody inside
  | .typeMembers => Parse.typeMembersBody
  | .class isExpression ds ms => Parse.classBodyOf isExpression ds ms
  | .function isExpression async ms isDefault =>
    Parse.functionBodyOf isExpression async ms isDefault
  | .moduleBlock => Parse.moduleBlockBody

/-- Reads by a rule; a rule that its body refers to has less fuel. -/
def Rule.run : Nat → Rule → Step Tree
  | 0, _ => fun _ => none
  | fuel + 1, r => r.body (Rule.run fuel)

/-! ## Checks on a whole program -/

mutual

/-- Whether a shorthand property with an initialiser is left over: it is one only as a target. -/
def Tree.hasCover : Tree → Bool
  | .node .coverDefault _ => true
  | .node _ ps => hasCovers ps
  | _ => false

/-- Whether one is left over in some of the trees. -/
def Tree.hasCovers : List Tree → Bool
  | [] => false
  | t :: ts => t.hasCover || hasCovers ts

end

/-- The text of a name of the module interface. -/
def Tree.interfaceName : Tree → Option String
  | .name n => some n
  | .reference n => some n
  | .binding n => some n
  | .quoted lit => some lit.value
  | _ => none

/-- The names that a statement exports. -/
def Tree.exportedNames : Tree → List String
  | .node (.exportNamed false) [d, .node .group specs, _, _] =>
    d.introducedNames ++ specs.filterMap fun
      | .node (.exportSpecifier _) [_, e] => e.interfaceName
      | _ => none
  | .node .exportDefault _ => ["default"]
  | .node (.exportAll _) [n, _, _] => n.interfaceName.toList
  | _ => []

/-- Whether no name is exported twice.  Typed programs may, since a type and a value can share a
name. -/
def exportsDistinct (d : Dialect) (statements : List Tree) : Bool :=
  d.typescript ||
    let names := statements.flatMap Tree.exportedNames
    names.eraseDups.length == names.length

/-! ## The program -/

/-- The interpreter line at the head of a text, and the rest. -/
def splitHashbang (cs : List Char) : Option String × Source :=
  match cs with
  | '#' :: '!' :: rest =>
    let line := rest.takeWhile fun c => !Source.isLineBreak c
    (some (String.ofList line),
      ⟨rest.drop line.length, 2 + Source.byteLength line⟩)
  | cs => (none, ⟨cs, 0⟩)

/-- Directives and statements up to the end of the text. -/
def Parse.programItems : Parse (List String × List Tree) :=
  Parse.bodyItems do return (← Parse.token) == .eof

/-- Where reading starts. -/
def State.start (d : Dialect) (s : Source) (bound : Nat) : State :=
  { reading := s.next (!d.module)
    lastEnd := 0
    setting := { await := d.module }
    dialect := d
    faulty := false
    bound := bound }

/-- The program that a text spells in a dialect, if it is well formed. -/
def Program.parse? (text : String) (d : Dialect) : Option Program :=
  let (hashbang, source) := splitHashbang text.toList
  let bound := source.rest.length + 2
  match Parse.programItems (Rule.run (32 * bound)) (State.start d source bound) with
  | none => none
  | some ((directives, statements), s) =>
    if s.faulty || Tree.hasCovers statements || !exportsDistinct d statements then none
    else some { hashbang, directives, statements }

/-- Whether a text is a program of a dialect. -/
def isWellFormed (text : String) (d : Dialect) : Bool := (Program.parse? text d).isSome

end Abridge
