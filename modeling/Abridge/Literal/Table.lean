import Abridge.Literal.Value
import Abridge.Profile.Basic
import Abridge.Syntax.Tree

/-!
# Collecting literals

Which literals of a module are worth hoisting.  A literal counts where it is the value of an
expression.  Keys, types other than negated numbers, enumeration members, the sources of dynamic
imports, calls of `require` and bodies of `with` are left out: there a literal is a name, or must be
known before the program runs, or a reference could mean something else.
-/

set_option autoImplicit false

namespace Abridge

/-- Whether the part at a position of a node is searched for literals. -/
def Form.isSearched : Form → List Tree → Nat → Bool
  | .property _, _, i => i != 0
  | .bindingProperty _ _, _, i => i != 0
  | .targetProperty _, _, i => i != 0
  | .method _ _, _, i => i != 1
  | .field _, _, i => i != 1
  | .propertySignature _ _ _, _, i => i != 0
  | .methodSignature _ _ _, _, i => i != 0
  | .enumMember _, _, _ => false
  | .importCall _, _, _ => false
  | .call _, .reference n :: _, _ => n != "require"
  | .with, _, i => i == 0
  | _, _, _ => true

namespace Tree

mutual

/-- The literals of a tree that can be hoisted, each with its place, in source order. -/
def literals : Tree → List (Literal × Nat)
  | .string lit => [(.string lit.value, lit.start)]
  | .number lit => [(.number lit.value, lit.start)]
  | .node f ps => literalsOf f ps 0 ps
  | _ => []

/-- The literals in the parts of a node from a position on. -/
def literalsOf (f : Form) (all : List Tree) (i : Nat) : List Tree → List (Literal × Nat)
  | [] => []
  | t :: ts => (if f.isSearched all i then t.literals else []) ++ literalsOf f all (i + 1) ts

end

end Tree

/-- What is known about one literal value of a module. -/
structure LiteralEntry where
  value : Literal
  occurrences : Nat
  /-- Where the literal is written. -/
  sites : List Nat
  hoist : Bool := false
  deriving DecidableEq, Repr, Inhabited

/-- The literal values of a module, in the order in which they first occur. -/
abbrev LiteralTable := List LiteralEntry

namespace LiteralTable

/-- Records one more occurrence. -/
def record (value : Literal) (site : Nat) : LiteralTable → LiteralTable
  | [] => [{ value, occurrences := 1, sites := [site] }]
  | e :: es =>
    if e.value.identity == value.identity then
      { e with occurrences := e.occurrences + 1, sites := e.sites ++ [site] } :: es
    else e :: record value site es

end LiteralTable

namespace Profile

/-- Whether a literal is large enough to be looked at. -/
def admits (p : Profile) : Literal → Bool
  | .string s => p.minStringLength ≤ s.length
  | .number x => x.isFinite && Double.le p.minNumberMagnitude x.abs

/-- Whether a literal is hoisted: it occurs often enough, or what its occurrences save outweighs the
declaration. -/
def shouldHoist (p : Profile) (e : LiteralEntry) : Bool :=
  p.minLiteralOccurrences ≤ e.occurrences ||
    p.literalSavingsThreshold < (e.value.length - p.literalDeclarationOverhead) * e.occurrences

end Profile

/-- All literals of a program that can be hoisted. -/
def Program.literals (p : Program) : List (Literal × Nat) :=
  Tree.literalsOf .group p.statements 0 p.statements

/-- The literal table of a program under a profile. -/
def Program.literalTable (p : Program) (profile : Profile) : LiteralTable :=
  let found := p.literals.filter fun l => profile.admits l.1
  let table := found.foldl (fun table (value, site) => LiteralTable.record value site table) []
  table.map fun e => { e with hoist := profile.hoistLiterals && profile.shouldHoist e }

end Abridge
