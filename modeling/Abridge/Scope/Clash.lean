import Abridge.Scope.Declared

/-!
# Clashing declarations

Two declarations of one name in one scope may live together or clash.  Whether they do depends on
their kinds alone (`DeclarationKind.clashes`); the rest of this module lists the declarations of each
scope in source order, and counts every declaration that clashes with an earlier one.

A `var` declaration belongs to its function, but it also passes through every block between, and
clashes with the lexical names of those blocks.  The nearest block that declares the name decides:
further out the variable is there for later declarations to clash with, and no longer clashes itself.
-/

set_option autoImplicit false

namespace Abridge

/-- The kinds of declarations. -/
inductive DeclarationKind where
  /-- A parameter; the flag tells whether its list forbids repeated names. -/
  | parameter (unique : Bool)
  /-- The name of a caught value. -/
  | caught
  /-- A name in a pattern for a caught value. -/
  | caughtPart
  | variable
  /-- A variable on its way out of a block. -/
  | passingVariable
  /-- A variable on its way out, after a block has decided about it. -/
  | settledVariable
  | lexical
  /-- A function that is declared like a variable: at the head of a function or a script. -/
  | function
  /-- A function at the head of a module. -/
  | moduleFunction
  /-- A function that is declared like a lexical name. -/
  | lexicalFunction
  /-- A function in a block of a script that is not strict. -/
  | looseFunction
  /-- A function without a body. -/
  | signature
  | classType
  | enum (const : Bool)
  | enumMember
  | namespace
  /-- A namespace of types, which has its name to itself. -/
  | typeSpace
  | import
  | typeAlias
  | interface
  deriving DecidableEq, Repr, Inhabited

namespace DeclarationKind

/-- Whether the name stands for a value of the module itself. -/
def isValue : DeclarationKind → Bool
  | .import | .typeAlias | .interface | .typeSpace => false
  | _ => true

/-- Whether the name stands for a type of the module itself. -/
def isType : DeclarationKind → Bool
  | .enum _ | .interface | .typeAlias | .classType => true
  | _ => false

/-- Whether the declaration is a function of some kind. -/
def isFunction : DeclarationKind → Bool
  | .function | .moduleFunction | .lexicalFunction | .looseFunction | .signature => true
  | _ => false

/-- Whether the declaration is a variable of a function. -/
def isVariable : DeclarationKind → Bool
  | .variable | .passingVariable | .settledVariable => true
  | _ => false

/-- Whether a variable can be declared after a declaration of the same name. -/
def admitsVariable : DeclarationKind → Bool
  | .parameter _ | .caught | .function | .signature => true
  | e => e.isVariable || !e.isValue

/-- Whether a declaration clashes with an earlier one of the same name. -/
def clashes (later earlier : DeclarationKind) : Bool :=
  match later with
  | .parameter unique =>
    match earlier with
    | .parameter _ => unique
    | _ => false
  | .variable => !earlier.admitsVariable && earlier != .moduleFunction
  | .passingVariable => !earlier.admitsVariable
  | .settledVariable => false
  | .caught | .caughtPart | .lexical => earlier.isValue
  | .function =>
    match earlier with
    | .parameter _ | .namespace => false
    | e => e.isValue && !e.isFunction && !e.isVariable
  | .moduleFunction | .lexicalFunction => earlier.isValue && earlier != .signature && earlier != .namespace
  | .looseFunction => earlier.isValue && earlier != .looseFunction
  | .signature => earlier.isValue && !earlier.isFunction && earlier != .namespace && earlier != .classType
  | .classType =>
    earlier == .typeAlias || (earlier.isValue && earlier != .namespace && earlier != .signature)
  | .enum const =>
    match earlier with
    | .enum c => c != const
    | .namespace => false
    | e => e.isValue || e.isType
  | .enumMember => earlier == .enumMember
  | .namespace =>
    match earlier with
    | .enum _ | .namespace | .classType => false
    | e => e.isValue && !e.isFunction
  | .typeSpace => false
  | .import => earlier == .import
  | .typeAlias => earlier.isType
  | .interface =>
    match earlier with
    | .enum _ | .typeAlias => true
    | _ => false

end DeclarationKind

/-- A declaration of a name. -/
structure Declaration where
  name : String
  kind : DeclarationKind
  deriving DecidableEq, Repr, Inhabited

/-- Whether a declaration clashes with one of the earlier ones. -/
def Declaration.clashesWith (d : Declaration) (earlier : List Declaration) : Bool :=
  earlier.any fun e => e.name == d.name && d.kind.clashes e.kind

/-- How many declarations clash with one before them, or with one of those already there. -/
def countClashes (earlier : List Declaration) : List Declaration → Nat
  | [] => 0
  | d :: ds => (if d.clashesWith earlier then 1 else 0) + countClashes (d :: earlier) ds

/-- What the declarations of a scope depend on besides the tree. -/
structure Surroundings where
  /-- The code is strict. -/
  strict : Bool
  /-- Declarations that a scope shares with the node around it. -/
  shared : List Declaration := []
  /-- A function here is a method, whose parameters must be distinct. -/
  method : Bool := false
  deriving Repr, Inhabited

namespace Tree

/-- Whether a body starts with the directive for strict code. -/
def opensStrict : Tree → Bool
  | .node .body ss => ss.any fun
    | .node (.directive raw) _ => raw == "use strict"
    | _ => false
  | _ => false

/-- Whether every parameter is a plain name without a default. -/
def hasSimpleParams : Tree → Bool
  | .node .params ps => ps.all fun
    | .node (.param _ _) [_, .binding _, _, init] => init.isAbsent
    | _ => false
  | _ => true

/-! ## Variables on their way out -/

mutual

/-- The `var` names that leave a tree. -/
def escapingVars : Tree → List String
  | .node f ps =>
    if keepsVars f then []
    else
      match f with
      | .variables .var _ => declaratorNames ps
      | .catch => escapingFrom ((ps.head?.map boundNames).getD []) ps
      | _ => escapingFrom [] ps
  | _ => []

/-- The `var` names that leave consecutive trees and are not declared by one before them. -/
def escapingFrom (seen : List String) : List Tree → List String
  | [] => []
  | t :: ts =>
    t.escapingVars.filter (fun n => !seen.contains n) ++
      escapingFrom (seen ++ t.declared.map Prod.fst) ts

end

/-- The `var` names of trees that are all settled inside them. -/
def settledVars (ts : List Tree) : List String :=
  let escaping := ts.flatMap escapingVars
  (allVarNames ts).filter fun n => !escaping.contains n

/-- Whether a form opens a block, which a variable inside it has to pass through. -/
def opensBlock : Form → List Tree → Bool
  | .block, _ | .switch, _ | .catch, _ => true
  | .for, .node (.variables word _) _ :: _ => word.isLexical
  | .forIn, .node (.variables word _) _ :: _ => word.isLexical
  | .forOf _, .node (.variables word _) _ :: _ => word.isLexical
  | _, _ => false

mutual

/-- The `var` names that leave a tree without passing through a block. -/
def directVars : Tree → List String
  | .node f ps =>
    if keepsVars f || opensBlock f ps then []
    else
      match f with
      | .variables .var _ => declaratorNames ps
      | _ => directVarsOf ps
  | _ => []

/-- The `var` names that leave consecutive trees without passing through a block. -/
def directVarsOf : List Tree → List String
  | [] => []
  | t :: ts => t.directVars ++ directVarsOf ts

end

/-! ## The declarations of a scope -/

/-- Gives every name the same kind. -/
def withKind (kind : DeclarationKind) (names : List String) : List Declaration :=
  names.map fun n => ⟨n, kind⟩

/-- Where statements stand. -/
inductive Standing where
  /-- At the head of a function or a script. -/
  | head
  /-- At the head of a module. -/
  | module
  /-- In a block. -/
  | block
  deriving DecidableEq, Repr, Inhabited

/-- The kind of a function declaration. -/
def functionKind (strict : Bool) (standing : Standing) (info : FunctionInfo) : DeclarationKind :=
  match info.role, standing with
  | .signature, _ => .signature
  | _, .head => .function
  | _, .module => .moduleFunction
  | _, .block => if strict || info.async || info.generator then .lexicalFunction else .looseFunction

/-- The kind of a namespace with a body. -/
def spaceKind (body : List Tree) : DeclarationKind := if anyValue body then .namespace else .typeSpace

/-- The lexical declarations of a statement. -/
def lexicalDeclarations (strict : Bool) (standing : Standing) : Tree → List Declaration
  | .node (.variables word _) ds => if word.isLexical then withKind .lexical (declaratorNames ds) else []
  | .node (.function info) (n :: _) =>
    match info.role with
    | .declaration | .signature => withKind (functionKind strict standing info) n.boundNames
    | _ => []
  | .node (.class info) (_ :: n :: _) =>
    if info.expression then [] else withKind .classType n.boundNames
  | .node (.typeAlias _) (n :: _) => withKind .typeAlias n.boundNames
  | .node (.interface _) (n :: _) => withKind .interface n.boundNames
  | .node (.enum const _) (n :: _) => withKind (.enum const) n.boundNames
  | .node (.namespace _ _) (n :: body) => withKind (spaceKind body) n.boundNames
  | .node (.importEquals _) (n :: _) => withKind .import n.boundNames
  | .node (.import typeOnly _) (.node .group specs :: _) =>
    withKind .import ((specs.flatMap (importedName typeOnly)).map Prod.fst)
  | .node (.exportNamed _) [d, _, _, _] => d.lexicalDeclarations strict standing
  | .node .exportDefault [d] => d.lexicalDeclarations strict standing
  | .node .labelled [_, s] => s.lexicalDeclarations strict standing
  | _ => []

/-- The declarations of statements and of the variables that pass through them. -/
def scopeDeclarations (strict : Bool) (standing : Standing) (statements : List Tree) :
    List Declaration :=
  statements.flatMap fun s =>
    let direct := s.directVars
    s.lexicalDeclarations strict standing ++ withKind .variable direct ++
      withKind .passingVariable (s.escapingVars.filter fun n => !direct.contains n) ++
      withKind .settledVariable (settledVars [s])

/-- The declarations of a function: its parameters and its body. -/
def functionDeclarations (strict unique : Bool) (params body : Tree) : List Declaration :=
  withKind (.parameter unique) params.allParamNames ++
    match body with
    | .node .body ss => scopeDeclarations strict .head ss
    | _ => []

/-- The declarations of a loop: those of its head, and the variables that pass through it. -/
def loopDeclarations (strict : Bool) (head : Tree) (rest : List Tree) : List Declaration :=
  head.lexicalDeclarations strict .block ++ withKind .passingVariable (rest.flatMap escapingVars) ++
    withKind .settledVariable (settledVars rest)

/-- The declarations of the scope that a form opens. -/
def declarations (around : Surroundings) : Form → List Tree → List Declaration
  | .function _, [_, _, _, ps, _, body] =>
    let strict := around.strict || body.opensStrict
    let unique := strict || around.method || !ps.hasSimpleParams
    functionDeclarations strict unique ps body
  | .arrow _ _, [_, ps, _, body] =>
    functionDeclarations (around.strict || body.opensStrict) true ps body
  | .block, ss => scopeDeclarations around.strict .block ss
  | .moduleBlock, ss => scopeDeclarations around.strict .block ss
  | .staticBlock, ss => scopeDeclarations true .head ss
  | .for, head :: rest => loopDeclarations around.strict head rest
  | .forIn, head :: rest => loopDeclarations around.strict head rest
  | .forOf _, head :: rest => loopDeclarations around.strict head rest
  | .switch, _ :: cases => scopeDeclarations around.strict .block (caseStatements cases)
  | .catch, p :: _ => caughtNames p
  | .enum _ _, [_, .node .group ms] => withKind .enumMember (memberNames ms)
  | _, _ => []
where
  /-- The names of a caught value. -/
  caughtNames (p : Tree) : List Declaration :=
    match p with
    | .binding n => [⟨n, .caught⟩]
    | p => withKind .caughtPart p.boundNames

/-- The surroundings of the part at a position. -/
def surroundings (around : Surroundings) (f : Form) (ps : List Tree) (i : Nat) : Surroundings :=
  match f, ps with
  | .function _, [_, _, _, _, _, body] => { strict := around.strict || body.opensStrict }
  | .arrow _ _, [_, _, _, body] => { strict := around.strict || body.opensStrict }
  | .class _, _ => { strict := true }
  | .method _ _, _ => { strict := around.strict, method := true }
  | .property info, _ =>
    { strict := around.strict, method := info.method || info.kind != .value }
  | .catch, p :: _ =>
    { strict := around.strict, shared := if i = 2 then declarations.caughtNames p else [] }
  | _, _ => { strict := around.strict }

/-! ## Counting -/

mutual

/-- How many declarations in a tree clash with an earlier one. -/
def clashes (around : Surroundings) : Tree → Nat
  | .node f ps => countClashes around.shared (declarations around f ps) + clashesOf f ps around 0 ps
  | _ => 0

/-- How many declarations in the parts of a node from a position on clash. -/
def clashesOf (f : Form) (all : List Tree) (around : Surroundings) (i : Nat) : List Tree → Nat
  | [] => 0
  | t :: ts => t.clashes (surroundings around f all i) + clashesOf f all around (i + 1) ts

end

end Tree

/-- Whether the code of a program is strict. -/
def Program.isStrict (p : Program) (d : Dialect) : Bool :=
  d.module || p.directives.contains "use strict"

/-- How many declarations of a program clash with an earlier one. -/
def Program.clashes (p : Program) (d : Dialect) : Nat :=
  let strict := p.isStrict d
  let standing : Tree.Standing := if d.module then .module else .head
  countClashes [] (Tree.scopeDeclarations strict standing p.statements) +
    Tree.clashesOf .group p.statements { strict } 0 p.statements

end Abridge
