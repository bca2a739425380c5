import Abridge.Syntax.Grammar.Patterns

/-!
# Functions, classes and object literals

The forms that hold function bodies.  A body is read under its own setting: `return` is permitted,
and `await` and `yield` are operators exactly when the function says so.
-/

set_option autoImplicit false

namespace Abridge

namespace Parse

/-! ## Functions -/

/-- Type parameters, `this` parameter, parameters, return type and body from the current token on.
The body is absent where the dialect permits that. -/
def functionTail (async generator : Bool) (bodyRequired : Bool) : Parse (List Tree) :=
  within (fun s => { s with inOperator := true, await := async, yield := generator,
                            decorator := false }) do
    let tps ← call .typeParams
    let (this, ps) := splitParams (← call .params)
    let ret ← returnAnnotation
    let body ← if ← atPunct "\x7b" then call .functionBody else pure .absent
    require (!body.isAbsent || ((← typed) && !bodyRequired))
    return [tps, this, ps, ret, body]

/-- Whether the parts of a function lack a body. -/
def lacksBody (parts : List Tree) : Bool := (parts.getLast?.map Tree.isAbsent).getD true

/-- The body of `Rule.function`, at the keyword `function`. -/
def functionBodyOf (expression async : Bool) (ms : Modifiers) (defaultExport : Bool) :
    Parse Tree := do
  expectWord "function"
  let generator ← eat "*"
  let named : Parse Tree := do if ← atIdentifier then bindingName else return .absent
  let n ← if expression then within (fun s => { s with await := async, yield := generator }) named
    else named
  require (expression || defaultExport || !n.isAbsent)
  let ambient := ms.ambient
  let parts ← functionTail async generator expression
  let bodiless := lacksBody parts
  faultIf (ambient && !bodiless)
  let role : FunctionRole := if expression then .expression
    else if bodiless then .signature else .declaration
  if bodiless then endStatement
  return .node (.function { role, async, generator, ambient }) (n :: parts)

/-- The value of a method: a function without a name. -/
def methodFunction (async generator bodyRequired : Bool) : Parse Tree := do
  let parts ← functionTail async generator bodyRequired
  let role : FunctionRole := if lacksBody parts then .bodiless else .expression
  return .node (.function { role, async, generator }) (.absent :: parts)

/-- The number of parameters of a function, a rest parameter included. -/
def paramCount : Tree → Nat
  | .node (.function _) [_, _, _, .node .params ps, _, _] => ps.length
  | _ => 0

/-- Whether a function has a rest parameter. -/
def hasRestParam : Tree → Bool
  | .node (.function _) [_, _, _, .node .params ps, _, _] => ps.any isRest
  | _ => false

/-- A getter takes no parameter and a setter exactly one, which is no rest parameter. -/
def checkAccessor (kind : PropertyKind) (f : Tree) : Parse Unit :=
  match kind with
  | .get => faultIf (paramCount f != 0)
  | .set => faultIf (paramCount f != 1 || hasRestParam f)
  | .value => pure ()

/-! ## Object literals -/

/-- Whether the current word introduces an accessor. -/
def atAccessor (w : String) : Parse Bool := do return (← atWord w) && (← nextIs atKey)

/-- A method of an object literal, from its key on. -/
def objectMethod (kind : PropertyKind) (async generator : Bool) : Parse Tree := do
  let (k, computed) ← key
  let f ← methodFunction async generator true
  checkAccessor kind f
  let info : PropertyInfo := { kind, method := kind == .value, computed }
  return .node (.property info) [k, f]

/-- One property of an object literal. -/
def objectProperty : Parse Tree := do
  let async ← if ← atWord "async" then
      lookahead do
        advance
        return !(← onNewLine) && ((← atKey) || (← atPunct "*"))
    else pure false
  if ← eat "..." then return .node .spread [← call (.assignment true)]
  else if async then
    advance
    let generator ← eat "*"
    objectMethod .value true generator
  else if ← atAccessor "get" then advance; objectMethod .get false false
  else if ← atAccessor "set" then advance; objectMethod .set false false
  else if ← eat "*" then objectMethod .value false true
  else
    let named ← atIdentifier
    let (k, computed) ← key
    if ← atAny ["(", "<"] then
      let f ← methodFunction false false true
      return .node (.property { method := true, computed }) [k, f]
    else
      match named, k, ← atPunct ":" with
      | true, .name n, false =>
        let s ← setting
        faultIf ((s.await && n == "await") || (s.yield && n == "yield"))
        let value ← if ← eat "=" then
            pure (Tree.node .coverDefault [.reference n, ← initialiser])
          else pure (.reference n)
        return .node (.property { shorthand := true }) [k, value]
      | _, _, _ =>
        expect ":"
        let value ← call (.assignment true)
        return .node (.property { computed }) [k, value]

/-- An object literal. -/
def objectLiteral : Parse Tree := do
  expect "\x7b"
  let (ps, comma) ← withIn (separated "\x7d" objectProperty)
  expect "\x7d"
  return .node (.object comma) ps

/-- An array literal. -/
def arrayLiteral : Parse Tree := do
  expect "["
  let (es, comma) ← withIn (elements do
    if ← eat "..." then return .node .spread [← call (.assignment true)]
    else call (.assignment true))
  expect "]"
  return .node (.array comma) es

/-! ## Classes -/

/-- The words that may modify a class member. -/
def memberModifiers : List String :=
  ["abstract", "accessor", "async", "declare", "public", "private", "protected", "readonly",
   "static", "override"]

/-- Whether the key is the plain name given. -/
def keyIs (k : Tree) (computed : Bool) (n : String) : Bool :=
  !computed && match k with
    | .name m => m == n
    | .string lit => lit.value == n
    | _ => false

/-- Whether the key is the private name given. -/
def privateKeyIs (k : Tree) (n : String) : Bool :=
  match k with
  | .privateName m => m == n
  | _ => false

/-- Whether the key is a private name. -/
def isPrivateKey : Tree → Bool
  | .privateName _ => true
  | _ => false

/-- A method of a class, from its parameters on. -/
def classMethod (ds k : Tree) (kind : MethodKind) (generator : Bool) (info : MemberInfo) :
    Parse Tree := do
  let async := info.modifiers.async
  let f ← methodFunction async generator false
  if lacksBody f.parts then endStatement
  let named := keyIs k info.computed
  let constructs := kind == .method && !info.modifiers.static && named "constructor"
  faultIf (constructs && (async || generator || !ds.parts.isEmpty))
  faultIf (constructs && (info.modifiers.override || info.modifiers.abstract))
  faultIf (info.modifiers.ambient || info.modifiers.readonly || info.modifiers.accessor)
  faultIf (isPrivateKey k && info.modifiers.access.isSome)
  faultIf ((kind == .get || kind == .set) && !info.modifiers.static && named "constructor")
  faultIf (info.modifiers.static && named "prototype")
  faultIf (privateKeyIs k "constructor")
  match kind with
  | .get => checkAccessor .get f
  | .set => checkAccessor .set f
  | _ => pure ()
  return .node (.method (if constructs then .constructor else kind) info) [ds, k, f]

/-- A field of a class, from its type on. -/
def classField (ds k : Tree) (info : MemberInfo) : Parse Tree := do
  let t ← annotation
  let v ← if ← eat "=" then
      within (fun s => { s with inOperator := true, await := false, yield := false })
        (call (.assignment true))
    else pure .absent
  endStatement
  faultIf (keyIs k info.computed "constructor")
  faultIf (info.modifiers.static && keyIs k info.computed "prototype")
  faultIf (privateKeyIs k "constructor")
  faultIf (isPrivateKey k && info.modifiers.access.isSome)
  return .node (.field info) [ds, k, t, v]

/-- One member of a class. -/
def classMember : Parse Tree := do
  let ds ← decorators
  if (← atWord "static") && (← nextIs (atPunct "\x7b")) then
    faultIf !ds.parts.isEmpty
    advance
    let b ← within (fun s => { s with await := true, yield := false, «return» := false,
                                      inOperator := true }) (call .block)
    return .node .staticBlock b.parts
  else
    let ms ← modifiers memberModifiers
    faultIf (ms.isTyped && !(← typed))
    let getter ← (atWord "get" <&&> nextIs (do return (← atKey) || (← isPrivate)))
    let setter ← (atWord "set" <&&> nextIs (do return (← atKey) || (← isPrivate)))
    faultIf ((getter || setter) && ms.async)
    if getter || setter then advance
    if !(getter || setter) && (← typed) && (← atIndexSignature) then
      faultIf !ds.parts.isEmpty
      faultIf ({ ms with static := false, readonly := false } != ({} : Modifiers))
      let sig ← indexSignature ms.static ms.readonly
      endStatement
      return sig
    else
      let generator ← eat "*"
      let (k, computed) ← memberKey
      let optional ← if ← typed then eat "?" else pure false
      let definite ← if (← typed) && !optional && !(← onNewLine) then eat "!" else pure false
      let info : MemberInfo := { modifiers := ms, computed, optional, definite }
      if getter then classMethod ds k .get false info
      else if setter then classMethod ds k .set false info
      else if generator || (← atAny ["(", "<"]) then classMethod ds k .method generator info
      else
        require !ms.async
        classField ds k info
where
  /-- Whether the current token is a private name. -/
  isPrivate : Parse Bool := do
    match ← token with
    | .privateName _ => return true
    | _ => return false

/-- The members of a class, in braces. -/
def classMembers : Parse Tree := do
  expect "\x7b"
  let ms ← iterate [] fun ms => do
    if ← atPunct "\x7d" then return .inr ms.reverse
    else if ← eat ";" then return .inl ms
    else return .inl ((← classMember) :: ms)
  expect "\x7d"
  return .group ms

/-- A base type with its arguments. -/
def heritageType : Parse Tree := do
  let n ← typeName
  let args ← typeArguments?
  return .node .heritage [n, args]

/-- The body of `Rule.class`, at the keyword `class`. -/
def classBodyOf (expression : Bool) (ds : Tree) (ms : Modifiers) : Parse Tree := do
  expectWord "class"
  let heritage ← lookahead do
    return (← eatWord "implements") && ((← atIdentifier) || (← atPunct "\x7b"))
  let n ← if (← atIdentifier) && !heritage then bindingName else pure .absent
  let tps ← call .typeParams
  let (base, args) ← if ← eatWord "extends" then do
      let e ← call .leftHandSide
      match e with
      | .node .instantiation [e, args] => pure (e, args)
      | e => pure (e, ← if ← typed then typeArguments? else pure .absent)
    else pure (.absent, .absent)
  let ifaces ← if ← typed <&&> eatWord "implements" then
      let first ← heritageType
      let more ← many (eat ",") heritageType
      pure (Tree.group (first :: more))
    else pure .absent
  let members ← within (fun s => { s with decorator := false }) classMembers
  let info : ClassInfo := { expression, abstract := ms.abstract, ambient := ms.ambient }
  return .node (.class info) [ds, n, tps, base, args, ifaces, members]

end Parse

end Abridge
