import Abridge.Scope.Clash
import Abridge.Scope.Resolution
import Abridge.Syntax.Token

/-!
# Faults of a well-formed program

A text can follow the grammar and still be no valid program: a jump without a target, a reserved word
used as a name in strict code, a private name that no class declares.  Each such fault counts once.

A fault is found where it stands: `Context` records what the place of a node permits, `Context.inside`
carries it to the parts of the node, and `Context.nodeFaults` counts the faults of the node itself.
-/

set_option autoImplicit false

namespace Abridge

/-- What a place permits. -/
structure Context where
  dialect : Dialect
  strict : Bool
  /-- Directly in the list of statements of the program. -/
  top : Bool := false
  /-- Inside a declaration without values. -/
  ambient : Bool := false
  /-- The labels around, each with whether it names a loop. -/
  labels : List (String × Bool) := []
  /-- A jump out is permitted. -/
  breakable : Bool := false
  /-- A jump to the next round is permitted. -/
  continuable : Bool := false
  /-- Inside a function that is not an arrow function, or a class initialiser. -/
  function : Bool := false
  /-- `super.x` and `super()` are permitted. -/
  superMember : Bool := false
  superCall : Bool := false
  /-- What a function that stands directly here permits of the two. -/
  ownsSuperMember : Bool := false
  ownsSuperCall : Bool := false
  /-- The node is the callee of a call. -/
  callee : Bool := false
  /-- The class around extends another. -/
  derived : Bool := false
  /-- The private names of the classes around; nothing outside classes. -/
  privates : Option (List String) := none
  /-- In a class initialiser, where `arguments` is not available. -/
  initialiser : Bool := false
  /-- The node is assigned to. -/
  assigned : Bool := false
  /-- The node is part of a pattern of a lexical declaration. -/
  lexical : Bool := false
  /-- Inside a parameter list. -/
  parameters : Bool := false
  /-- A parameter may declare a member here. -/
  constructor : Bool := false
  /-- The node is the default export, which needs no name. -/
  nameless : Bool := false
  /-- Among the statements of the program or of a namespace, or exported there. -/
  outermost : Bool := false
  deriving Repr, Inhabited

/-- One when the condition holds. -/
def faultWhen (b : Bool) : Nat := if b then 1 else 0

/-- The sum of counts. -/
def total : List Nat → Nat
  | [] => 0
  | n :: ns => n + total ns

namespace Tree

/-- Whether a statement is a loop, or a label on one. -/
def isLoop : Tree → Bool
  | .node .for _ | .node .forIn _ | .node (.forOf _) _ | .node .while _ | .node .doWhile _ => true
  | .node .labelled _ => true
  | _ => false

/-- Whether a statement declares a function. -/
def isFunctionStatement : Tree → Bool
  | .node (.function info) _ => info.role == .declaration || info.role == .signature
  | _ => false

/-- Whether a class member has no implementation. -/
def isAbstractMember : Tree → Bool
  | .node (.method _ info) _ => info.modifiers.abstract
  | .node (.field info) _ => info.modifiers.abstract
  | _ => false

/-- Whether a class member is a constructor with a body. -/
def isConstructor : Tree → Bool
  | .node (.method .constructor _) [_, _, .node (.function info) _] => info.role != .bodiless
  | _ => false

/-- Whether a class member is a constructor, with a body or without. -/
def isConstructorSignature : Tree → Bool
  | .node (.method .constructor _) _ => true
  | _ => false

/-- How many constructors without a body are not followed by another constructor. -/
def missingConstructors : List Tree → Nat
  | [] => 0
  | m :: ms =>
    faultWhen (m.isConstructorSignature && !m.isConstructor &&
      !((ms.head?.map isConstructorSignature).getD false)) + missingConstructors ms

/-- A private member: its name, whether it is a getter or setter and which, and whether static. -/
structure PrivateMember where
  name : String
  accessor : Option MethodKind
  static : Bool
  deriving DecidableEq, Repr

/-- The private member that a class member declares. -/
def privateMember? : Tree → Option PrivateMember
  | .node (.method kind info) [_, .privateName n, .node (.function fn) _] =>
    if fn.role == .bodiless then none
    else
      let accessor := if kind == .get || kind == .set then some kind else none
      some ⟨n, accessor, info.modifiers.static⟩
  | .node (.field info) (_ :: .privateName n :: _) => some ⟨n, none, info.modifiers.static⟩
  | _ => none

/-- The private names that class members declare. -/
def privateNames (members : List Tree) : List String :=
  members.filterMap fun
    | .node (.method _ _) (_ :: .privateName n :: _) => some n
    | .node (.field _) (_ :: .privateName n :: _) => some n
    | _ => none

/-- Whether two members of one private name clash; a getter and a setter may share it. -/
def PrivateMember.clashes (a b : PrivateMember) : Bool :=
  match a.accessor, b.accessor with
  | some k, some l => k == l || a.static != b.static
  | _, _ => true

/-- How many private members clash with the one of that name before them. -/
def privateClashes : List PrivateMember → List PrivateMember → Nat
  | _, [] => 0
  | earlier, m :: ms =>
    (match earlier.find? (fun e => e.name == m.name) with
      | some e => faultWhen (m.clashes e)
      | none => 0) + privateClashes (m :: earlier) ms

/-- Whether a property sets the prototype of its object. -/
def setsPrototype : Tree → Bool
  | .node (.property info) [k, _] =>
    info.kind == .value && !info.method && !info.shorthand && !info.computed &&
      match k with
      | .name n => n == "__proto__"
      | .string lit => lit.value == "__proto__"
      | _ => false
  | _ => false

/-- How many of the trees pass a test, beyond the first. -/
def surplus (test : Tree → Bool) (ts : List Tree) : Nat := (ts.filter test).length - 1

/-- Whether the value of an enumeration member lets the next one count on from it. -/
def isCountable : Tree → Bool
  | .number _ | .reference _ => true
  | .node (.member _) _ | .node (.index _) _ | .node (.binary _) _ | .node (.unary _) _ => true
  | _ => false

/-- How many members need a value of their own and have none; `needed` tells whether the next does. -/
def missingValues (needed : Bool) : List Tree → Nat
  | [] => 0
  | .node (.enumMember _) [_, v] :: ms =>
    if v.isAbsent then faultWhen needed + missingValues needed ms
    else missingValues (!v.isCountable) ms
  | _ :: ms => missingValues needed ms

/-- How many required parameters follow an optional one; `optional` tells whether one has occurred. -/
def misplacedParams (optional : Bool) : List Tree → Nat
  | [] => 0
  | .node (.param _ isOptional) [_, _, _, init] :: ps =>
    faultWhen (optional && !isOptional && init.isAbsent) + misplacedParams (optional || isOptional) ps
  | _ :: ps => misplacedParams optional ps

/-- Whether a parameter also declares a member. -/
def declaresMember : Tree → Bool
  | .node (.param ms _) _ => ms.access.isSome || ms.readonly || ms.override
  | _ => false

/-- The operand inside parentheses and type assertions. -/
def bareOperand : Tree → Tree
  | .node .paren [e] => bareOperand e
  | .node .as [e, _] => bareOperand e
  | .node .satisfies [e, _] => bareOperand e
  | .node .assertion [_, e] => bareOperand e
  | .node .nonNull [e] => bareOperand e
  | e => e

/-- The faults in the left side of a loop over keys or values. -/
def loopHeadFaults (strict keys : Bool) : Tree → Nat
  | .node (.variables word _) ds =>
    faultWhen (ds.length > 1) +
      total (ds.map fun
        | .node (.declarator _) [p, t, init] =>
          let plain := match p with
            | .binding _ => true
            | _ => false
          faultWhen (!init.isAbsent && (strict || !keys || word.isLexical || !plain)) +
            faultWhen !t.isAbsent
        | _ => 0)
  | _ => 0

end Tree

namespace Context

/-! ## Names -/

/-- Words that are no names in strict code. -/
def strictWords : List String :=
  ["implements", "interface", "let", "package", "private", "protected", "public", "static", "yield"]

/-- Names of built-in types, which no declaration of a type can take. -/
def typeWords : List String :=
  ["any", "unknown", "never", "number", "bigint", "boolean", "string", "symbol", "void", "object",
   "undefined"]

/-- Whether a word is reserved at this place. -/
def reserves (c : Context) (name : String) : Bool :=
  if c.ambient then false
  else if name == "await" then c.dialect.module
  else c.strict && strictWords.contains name

/-- The faults of a name that is introduced. -/
def bindingFaults (c : Context) (name : String) : Nat :=
  faultWhen (c.reserves name) +
    if c.strict then faultWhen (!c.ambient && (name == "eval" || name == "arguments"))
    else faultWhen (c.lexical && name == "let")

/-- The faults of a name that is used. -/
def referenceFaults (c : Context) (name : String) : Nat :=
  faultWhen (c.reserves name) +
    faultWhen (c.strict && c.assigned && (name == "eval" || name == "arguments")) +
    faultWhen (c.initialiser && name == "arguments")

/-- The faults of a private name. -/
def privateFaults (c : Context) (name : String) : Nat :=
  match c.privates with
  | none => 1
  | some names => faultWhen !(names.contains name)

/-- Whether a numeral has a zero in front that strict code forbids. -/
def hasLegacyZero (raw : String) : Bool :=
  match raw.toList with
  | '0' :: c :: _ => c.isDigit
  | _ => false

/-- The faults of a directive, given by its source text. -/
def directiveFaults (c : Context) (raw : String) : Nat :=
  faultWhen (c.strict && Source.hasLegacyEscape raw.toList)

/-! ## Nodes -/

/-- A function as the body of a statement. -/
def functionBodyFaults (c : Context) (permitted : Bool) (body : Tree) : Nat :=
  faultWhen (body.isFunctionStatement && (c.strict || !permitted))

/-- A declaration of the module interface. -/
def interfaceFaults (c : Context) : Nat :=
  if c.dialect.typescript then 0 else faultWhen (!c.dialect.module || !c.top)

/-- The faults of a class as a whole. -/
def classFaults (c : Context) (info : ClassInfo) (members : List Tree) : Nat :=
  Tree.surplus Tree.isConstructor members +
    (if info.ambient || c.ambient then 0 else Tree.missingConstructors members) +
    (if info.abstract then 0 else (members.filter Tree.isAbstractMember).length) +
    Tree.privateClashes [] (members.filterMap Tree.privateMember?)

/-- The faults of a method without implementation where one is due, or with one where none may be. -/
def methodFaults (c : Context) (kind : MethodKind) (info : MemberInfo) (fn : FunctionInfo) : Nat :=
  if info.modifiers.abstract then
    faultWhen (kind == .constructor || fn.role != .bodiless)
  else
    faultWhen ((kind == .get || kind == .set) && fn.role == .bodiless && !c.ambient)

/-- The faults of a node itself. -/
def nodeFaults (c : Context) : Form → List Tree → Nat
  | .break, [.label n] => faultWhen !(c.labels.any fun l => l.1 == n)
  | .break, _ => faultWhen !c.breakable
  | .continue, [.label n] =>
    match c.labels.find? (fun l => l.1 == n) with
    | some (_, loop) => faultWhen !loop
    | none => 1
  | .continue, _ => faultWhen !c.continuable
  | .labelled, [.label n, s] =>
    faultWhen (c.labels.any fun l => l.1 == n) + c.functionBodyFaults true s
  | .if, [_, yes, no] => c.functionBodyFaults true yes + c.functionBodyFaults true no
  | .for, [_, _, _, body] => c.functionBodyFaults false body
  | .forIn, [left, _, body] => c.functionBodyFaults false body + left.loopHeadFaults c.strict true
  | .forOf _, [left, _, body] => c.functionBodyFaults false body + left.loopHeadFaults c.strict false
  | .while, [_, body] => c.functionBodyFaults false body
  | .doWhile, [body, _] => c.functionBodyFaults false body
  | .with, [_, body] =>
    faultWhen (c.strict || c.dialect.typescript) + c.functionBodyFaults false body
  | .switch, _ :: cases => Tree.surplus isDefault cases
  | .unary .delete, [e] =>
    match e.bareOperand with
    | .reference _ => faultWhen c.strict
    | .node (.privateMember _) _ => 1
    | .node .chain [.node (.privateMember _) _] => 1
    | _ => 0
  | .metaProperty, [.name "new", _] => faultWhen !c.function
  | .metaProperty, _ => faultWhen !c.dialect.module
  | .super, _ => faultWhen !(if c.callee then c.superCall else c.superMember)
  | .class info, [_, name, _, _, _, _, .node .group members] =>
    faultWhen (!info.expression && name.isAbsent && !c.nameless) +
      c.classFaults info members
  | .method kind info, [_, _, .node (.function fn) _] => c.methodFaults kind info fn
  | .field info, [_, _, _, v] => faultWhen (info.modifiers.abstract && !v.isAbsent)
  | .object _, ps => Tree.surplus Tree.setsPrototype ps
  | .container, [.node .sequence _] => 1
  | .params, ps =>
    if c.dialect.typescript then
      Tree.misplacedParams false ps +
        if c.constructor then 0 else (ps.filter Tree.declaresMember).length
    else 0
  | .function _, [_, _, _, ps, _, body] => faultWhen (body.opensStrict && !ps.hasSimpleParams)
  | .arrow _ _, [_, ps, _, body] => faultWhen (body.opensStrict && !ps.hasSimpleParams)
  | .await, _ => faultWhen c.parameters
  | .yield _, _ => faultWhen c.parameters
  | .enum _ _, [_, .node .group ms] => Tree.missingValues false ms
  | .directive raw, _ => c.directiveFaults raw
  | .typeAlias _, .binding n :: _ | .interface _, .binding n :: _ | .typeParam _, .binding n :: _ =>
    faultWhen (typeWords.contains n)
  | .importEquals typeOnly, [_, r] => faultWhen (typeOnly && !isExternal r)
  | .namespace _ _, _ | .global _, _ => faultWhen !c.outermost
  | .import _ _, _ | .exportNamed _, _ | .exportDefault, _ | .exportAll _, _ => c.interfaceFaults
  | _, _ => 0
where
  /-- Whether a clause is the default one. -/
  isDefault : Tree → Bool
    | .node .case (test :: _) => test.isAbsent
    | _ => false
  /-- Whether an alias stands for a whole module. -/
  isExternal : Tree → Bool
    | .node .externalModule _ => true
    | _ => false

/-! ## Parts -/

/-- The context of the parts of most nodes. -/
def plain (c : Context) : Context :=
  { c with top := false, ownsSuperMember := false, ownsSuperCall := false, callee := false,
           assigned := false, lexical := false, constructor := false, nameless := false,
           outermost := false }

/-- The context inside a function of any kind: jumps do not leave it. -/
def enclosed (c : Context) : Context :=
  { c.plain with labels := [], breakable := false, continuable := false, parameters := false }

/-- The context of a class initialiser. -/
def initialised (c : Context) : Context :=
  { c.enclosed with superMember := true, superCall := false, initialiser := true, function := true }

/-- The context of the part at a position. -/
def inside (c : Context) (f : Form) (ps : List Tree) (i : Nat) : Context :=
  let p := c.plain
  match f, ps with
  | .function info, [_, _, _, _, _, body] =>
    { c.enclosed with
      strict := c.strict || body.opensStrict
      ambient := c.ambient || info.ambient
      function := true
      superMember := c.ownsSuperMember
      superCall := c.ownsSuperCall
      initialiser := false
      constructor := c.constructor }
  | .arrow _ _, [_, _, _, body] => { c.enclosed with strict := c.strict || body.opensStrict }
  | .params, _ => { p with parameters := true }
  | .class info, [_, _, _, base, _, _, .node .group members] =>
    let p := { p with strict := true, ambient := c.ambient || info.ambient, derived := !base.isAbsent }
    if i = 6 then { p with privates := some (Tree.privateNames members ++ c.privates.getD []) } else p
  | .method kind _, _ =>
    if i = 2 then
      { p with ownsSuperMember := true
               ownsSuperCall := kind == .constructor && c.derived
               constructor := kind == .constructor }
    else p
  | .property info, _ =>
    if i = 1 && (info.method || info.kind != .value) then { p with ownsSuperMember := true } else p
  | .field _, _ => if i = 3 then c.initialised else p
  | .staticBlock, _ => c.initialised
  | .labelled, [.label n, s] => { p with labels := (n, s.isLoop) :: c.labels }
  | .for, _ | .while, _ | .doWhile, _ => { p with breakable := true, continuable := true }
  | .forIn, _ | .forOf _, _ =>
    { p with breakable := true, continuable := true, assigned := decide (i = 0) }
  | .switch, _ => if i = 0 then p else { p with breakable := true }
  | .call _, _ => { p with callee := decide (i = 0) }
  | .assign _, _ | .update _ _, _ | .targetDefault, _ | .targetShorthand, _ =>
    { p with assigned := decide (i = 0) }
  | .targetProperty _, _ => { p with assigned := decide (i = 1) }
  | .arrayTarget, _ | .objectTarget, _ | .targetRest, _ => { p with assigned := true }
  | .paren, _ => { p with assigned := c.assigned }
  | .variables word ambient, _ =>
    { p with lexical := word.isLexical, ambient := c.ambient || ambient }
  | .declarator _, _ => { p with lexical := c.lexical && decide (i = 0) }
  | .objectPattern, _ | .arrayPattern, _ | .rest, _ => { p with lexical := c.lexical }
  | .bindingProperty _ _, _ => { p with lexical := c.lexical && decide (i = 1) }
  | .defaulted, _ => { p with lexical := c.lexical && decide (i = 0) }
  | .exportDefault, _ => { p with nameless := true }
  | .exportNamed _, _ => { p with outermost := c.outermost }
  | .moduleBlock, _ => { p with outermost := true }
  | .enum _ ambient, _ | .global ambient, _ => { p with ambient := c.ambient || ambient }
  | .namespace _ ambient, _ => { p with ambient := c.ambient || ambient, outermost := true }
  | _, _ => p

end Context

namespace Tree

mutual

/-- The number of faults in a tree. -/
def faults (c : Context) : Tree → Nat
  | .binding n => c.bindingFaults n
  | .reference n => c.referenceFaults n
  | .label n => faultWhen (c.reserves n)
  | .privateName n => c.privateFaults n
  | .number lit => faultWhen (c.strict && Context.hasLegacyZero lit.raw)
  | .string lit => faultWhen (c.strict && lit.legacy)
  | .quoted lit => faultWhen (c.strict && lit.legacy)
  | .node f ps => c.nodeFaults f ps + faultsOf f ps c 0 ps
  | _ => 0

/-- The number of faults in the parts of a node from a position on. -/
def faultsOf (f : Form) (all : List Tree) (c : Context) (i : Nat) : List Tree → Nat
  | [] => 0
  | t :: ts => t.faults (c.inside f all i) + faultsOf f all c (i + 1) ts

end

/-- How many names a statement exports that are not declared in the module. -/
def missingExports (unresolved : List String) : Tree → Nat
  | .node (.exportNamed _) [_, .node .group specs, _, _] =>
    (specs.filter fun
      | .node (.exportSpecifier _) [.reference n, _] => unresolved.contains n
      | _ => false).length
  | _ => 0

end Tree

/-- The faults of the single directives and statements of a program. -/
def Program.placeFaults (p : Program) (d : Dialect) : Nat :=
  let c : Context := { dialect := d, strict := p.isStrict d, top := true, outermost := true }
  total (p.directives.map c.directiveFaults) + total (p.statements.map (Tree.faults c))

/-- The exports of a module that name nothing; a typed module may export what it does not declare. -/
def Program.exportFaults (p : Program) (d : Dialect) : Nat :=
  if d.typescript || !d.module then 0
  else
    let unresolved := p.unresolved
    total (p.statements.map (Tree.missingExports unresolved))

/-- The number of faults of a program; none means that it is valid. -/
def Program.faults (p : Program) (d : Dialect) : Nat :=
  p.clashes d + p.placeFaults d + p.exportFaults d

end Abridge
