import Abridge.Syntax.Tree

/-!
# What a tree declares

A scope is a set of names, each with the uses that it supports.  This module reads those names off the
tree; it knows where declarations may stand, and nothing about references.

## What is here

* `Nature` and `Use`: what a declared name can be used as, and what a reference wants.
* `Tree.boundNames`: the names of a pattern, in order.
* `Tree.isValue`: what a namespace may hold and still be nothing at run time.
* `Tree.declared`: the names that a statement declares in the scope it stands in.
* `Tree.varNames`: the names of `var` declarations, which belong to the enclosing function however
  deep they stand.
-/

set_option autoImplicit false

namespace Abridge

/-! ## Uses -/

/-- What a reference wants of a name. -/
inductive Use where
  /-- A value. -/
  | value
  /-- A type. -/
  | type
  /-- The type of a value. -/
  | query
  /-- The container of a dotted type name. -/
  | space
  /-- Anything. -/
  | any
  deriving DecidableEq, Repr, Inhabited

/-- What a declared name is. -/
inductive Nature where
  /-- A variable, parameter or function. -/
  | value
  /-- A type alias, interface or type parameter. -/
  | type
  /-- A class, enumeration or import. -/
  | both
  /-- An import for its type alone. -/
  | typeImport
  /-- A namespace that is an object at run time. -/
  | space
  /-- A namespace of types, which is nothing at run time. -/
  | typeSpace
  deriving DecidableEq, Repr, Inhabited

/-- Whether a name of this nature answers a use. -/
def Nature.supports : Nature → Use → Bool
  | _, .any => true
  | .both, _ => true
  | .value, .value | .value, .query => true
  | .type, .type => true
  | .typeImport, .value => false
  | .typeImport, _ => true
  | .space, .type => false
  | .space, _ => true
  | .typeSpace, .space => true
  | _, _ => false

/-- A declared name. -/
abbrev Declared := String × Nature

namespace Tree

/-! ## Patterns -/

mutual

/-- The names that a pattern binds, in order. -/
def boundNames : Tree → List String
  | .binding n => [n]
  | .node .objectPattern ps => boundNamesOf ps
  | .node .arrayPattern ps => boundNamesOf ps
  | .node (.bindingProperty _ _) [_, p] => p.boundNames
  | .node .defaulted [p, _] => p.boundNames
  | .node .rest [p] => p.boundNames
  | _ => []

/-- The names that patterns bind, in order. -/
def boundNamesOf : List Tree → List String
  | [] => []
  | t :: ts => t.boundNames ++ boundNamesOf ts

end

/-- The names of a parameter. -/
def paramNames : Tree → List String
  | .node (.param _ _) (_ :: p :: _) => p.boundNames
  | .node .restParam (_ :: p :: _) => p.boundNames
  | _ => []

/-- The names of a parameter list. -/
def allParamNames : Tree → List String
  | .node .params ps => ps.flatMap paramNames
  | _ => []

/-- The names of type parameters. -/
def typeParamNames : Tree → List String
  | .node .typeParams ps => ps.flatMap fun
    | .node (.typeParam _) (n :: _) => n.boundNames
    | _ => []
  | _ => []

/-- The names of declarators. -/
def declaratorNames (ds : List Tree) : List String :=
  ds.flatMap fun
    | .node (.declarator _) (p :: _) => p.boundNames
    | _ => []

/-! ## Namespaces -/

/-- Whether an export gives out names that are declared elsewhere: those of a list, or the one of an
alias.  They count as values, whatever they are. -/
def passesOn (specs : Tree) : Tree → Bool
  | .absent => !specs.parts.isEmpty
  | .node (.importEquals _) _ => true
  | _ => false

mutual

/-- Whether a statement of a namespace is there at run time: types, aliases and namespaces of types are not. -/
def isValue : Tree → Bool
  | .absent => false
  | .node (.interface _) _ => false
  | .node (.typeAlias _) _ => false
  | .node (.import _ _) _ => false
  | .node (.importEquals _) _ => false
  | .node (.exportNamed _) [d, specs, _, _] => passesOn specs d || d.isValue
  | .node (.namespace _ _) [_, body] => body.isValue
  | .node .moduleBlock ss => anyValue ss
  | _ => true

/-- Whether one of the statements is there at run time. -/
def anyValue : List Tree → Bool
  | [] => false
  | t :: ts => t.isValue || anyValue ts

end

/-- The nature of a namespace with a body. -/
def spaceNature (body : List Tree) : Nature := if anyValue body then .space else .typeSpace

/-! ## Statements -/

/-- Gives every name the same nature. -/
def withNature (nature : Nature) (names : List String) : List Declared :=
  names.map fun n => (n, nature)

/-- The local name of an import specifier. -/
def importedName (typeOnly : Bool) : Tree → List Declared
  | .node .importDefault [n] => withNature (if typeOnly then .typeImport else .both) n.boundNames
  | .node .importAll [n] => withNature (if typeOnly then .typeImport else .both) n.boundNames
  | .node (.importNamed alone) [_, n] =>
    withNature (if typeOnly || alone then .typeImport else .both) n.boundNames
  | _ => []

/-- The names that a statement declares in its own scope; `var` declarations belong to the function
and are not among them. -/
def declared : Tree → List Declared
  | .node (.variables word _) ds => if word.isLexical then withNature .value (declaratorNames ds) else []
  | .node (.function info) (n :: _) =>
    match info.role with
    | .declaration | .signature => withNature .value n.boundNames
    | _ => []
  | .node (.class info) (_ :: n :: _) =>
    if info.expression then [] else withNature .both n.boundNames
  | .node (.typeAlias _) (n :: _) => withNature .type n.boundNames
  | .node (.interface _) (n :: _) => withNature .type n.boundNames
  | .node (.enum _ _) (n :: _) => withNature .both n.boundNames
  | .node (.namespace _ _) (n :: body) => withNature (spaceNature body) n.boundNames
  | .node (.importEquals typeOnly) (n :: _) =>
    withNature (if typeOnly then .typeImport else .both) n.boundNames
  | .node (.import typeOnly _) (.node .group specs :: _) => specs.flatMap (importedName typeOnly)
  | .node (.exportNamed _) [d, _, _, _] => d.declared
  | .node .exportDefault [d] => d.declared
  | .node .labelled [_, s] => s.declared
  | _ => []

/-- The names that a declaration introduces, whatever its kind. -/
def introducedNames : Tree → List String
  | .node (.variables _ _) ds => declaratorNames ds
  | t => t.declared.map Prod.fst

/-- The names that statements declare in their own scope. -/
def allDeclared (statements : List Tree) : List Declared := statements.flatMap declared

/-! ## Variables of a function -/

/-- Whether `var` declarations inside a form stay inside it. -/
def keepsVars : Form → Bool
  | .function _ | .arrow _ _ | .class _ | .staticBlock | .namespace _ _ | .global _ => true
  | _ => false

mutual

/-- The names of the `var` declarations in a tree, outside the functions in it. -/
def varNames : Tree → List String
  | .node f ps =>
    if keepsVars f then []
    else
      match f with
      | .variables .var _ => declaratorNames ps
      | _ => allVarNames ps
  | _ => []

/-- The names of the `var` declarations in trees, outside the functions in them. -/
def allVarNames : List Tree → List String
  | [] => []
  | t :: ts => t.varNames ++ allVarNames ts

end

/-- All names of a scope that keeps its variables: a function body, a module, a program. -/
def functionScope (statements : List Tree) : List Declared :=
  allDeclared statements ++ withNature .value (allVarNames statements)

/-- The names of the scope that a function body adds to. -/
def bodyScope : Tree → List Declared
  | .node .body ss => functionScope ss
  | _ => []

/-! ## Types -/

mutual

/-- The names that `infer` introduces in a type, those of an inner conditional type apart. -/
def inferredNames : Tree → List String
  | .node .inferType [.node (.typeParam _) (n :: _)] => n.boundNames
  | .node .conditionalType _ => []
  | .node _ ps => allInferredNames ps
  | _ => []

/-- The names that `infer` introduces in types. -/
def allInferredNames : List Tree → List String
  | [] => []
  | t :: ts => t.inferredNames ++ allInferredNames ts

end

/-- The names of the members of an enumeration. -/
def memberNames (members : List Tree) : List String :=
  members.filterMap fun
    | .node (.enumMember _) (.name n :: _) => some n
    | .node (.enumMember _) (.quoted lit :: _) => some lit.value
    | _ => none

/-- The statements of the clauses of a switch. -/
def caseStatements (cases : List Tree) : List Tree :=
  cases.flatMap fun
    | .node .case (_ :: ss) => ss
    | _ => []

end Tree

end Abridge
