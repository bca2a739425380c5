import Abridge.Syntax.Grammar.Names

/-!
# Types

The grammar of static types, from the outside in: conditional types, unions, intersections, prefix
operators, array and index suffixes, and the types that stand alone.

Function types need a look ahead, because an opening parenthesis may also enclose a type.  A
conditional type is excluded where it could swallow the `extends` or the question mark of an outer
one; `Setting.conditionalTypes` records that.
-/

set_option autoImplicit false

namespace Abridge

namespace Parse

/-- A type under a setting that permits or excludes conditional types. -/
def typeWith (conditional : Bool) : Parse Tree :=
  within (fun s => { s with conditionalTypes := conditional }) (call .type)

/-- A type after a colon, or nothing. -/
def annotation : Parse Tree := do
  if ← typed <&&> eat ":" then typeWith true else return .absent

/-- A return type or type guard after a colon, or nothing. -/
def returnAnnotation : Parse Tree := do
  if ← typed <&&> eat ":" then call .returnType else return .absent

/-! ## Names and arguments -/

/-- A dotted name. -/
def typeName : Parse Tree := do
  let first ← if ← eatWord "this" then pure (Tree.node .this []) else referenceName
  iterate first fun left => do
    if ← eat "." then return .inl (.node .qualified [left, ← propertyWord]) else return .inr left

/-- Type arguments in angle brackets. -/
def typeArguments : Parse Tree := do
  splitAngle
  expect "<"
  let (ts, comma) ← separated ">" (typeWith true)
  require (!ts.isEmpty && !comma)
  expectClosingAngle
  return .node .typeArgs ts

/-- Type arguments on the same line, or nothing. -/
def typeArguments? : Parse Tree := do
  if !(← onNewLine) && (← atAny ["<", "<<"]) then typeArguments else return .absent

/-- The variance and constancy words that may stand before a type parameter. -/
def typeParamModifiers : Parse (List String) :=
  many
    (do
      let follows ← lookahead do
        advance
        return !(← onNewLine) && (← atIdentifier)
      if ← atWords ["in", "const"] then return true
      else return (← atWord "out") && follows)
    anyWord

/-- One type parameter. -/
def typeParam : Parse Tree := do
  let ms ← typeParamModifiers
  let n ← bindingName
  let constraint ← if ← eatWord "extends" then typeWith true else pure .absent
  let default ← if ← eat "=" then typeWith true else pure .absent
  return .node (.typeParam ms) [n, constraint, default]

/-- The body of `Rule.typeParams`. -/
def typeParamsBody : Parse Tree := do
  if !(← typed) then return .absent
  else if ← atPunct "<" then
    advance
    let (ps, _) ← separated ">" typeParam
    require !ps.isEmpty
    expectClosingAngle
    return .node .typeParams ps
  else return .absent

/-! ## Function types -/

/-- Skips what could be the start of a parameter; tells whether it was one. -/
def skipParamStart : Parse Bool := do
  let _ ← modifiers ["public", "private", "protected", "readonly", "override"]
  if (← atIdentifier) || (← atWord "this") then advance; return true
  else if ← atAny ["[", "\x7b"] then
    let _ ← call .pattern
    return true
  else return false

/-- Whether the parenthesis at the current token opens a parameter list rather than a type. -/
def opensParams : Parse Bool := lookahead do
  advance
  if ← atAny [")", "..."] then return true
  else if ← skipParamStart then
    if ← atAny [":", ",", "?", "="] then return true
    else if ← eat ")" then atPunct "=>"
    else return false
  else return false

/-- Whether a function or constructor type starts here. -/
def atFunctionType : Parse Bool := do
  if ← atPunct "<" then return true
  else if ← atPunct "(" then opensParams
  else if ← atWord "new" then return true
  else return (← atWord "abstract") && (← nextIs (atWord "new"))

/-- The `this` parameter and the parameters of a list read by `Rule.params`. -/
def splitParams (t : Tree) : Tree × Tree :=
  match t with
  | .node .group [this, params] => (this, params)
  | t => (.absent, t)

/-- A function or constructor type. -/
def functionType : Parse Tree := do
  let abstract ← eatWord "abstract"
  let constructs ← eatWord "new"
  let tps ← call .typeParams
  let (this, ps) := splitParams (← call .params)
  expect "=>"
  let ret ← call .returnType
  if constructs then return .node (.constructorType abstract) [tps, ps, ret]
  else return .node .functionType [tps, this, ps, ret]

/-! ## Types that stand alone -/

/-- Types that are a keyword. -/
def typeKeywords : List String :=
  ["any", "unknown", "string", "number", "bigint", "symbol", "boolean", "undefined", "never",
   "object", "null", "void"]

/-- A named type with its arguments. -/
def typeReference : Parse Tree := do
  let n ← typeName
  let args ← typeArguments?
  return .node .typeRef [n, args]

/-- The pieces and holes of a template whose first piece is the current token.  The flag tells whether
the escapes of all pieces are well formed. -/
def templateParts (hole : Parse Tree) : Parse (List String × Bool × List Tree) :=
  iterate ([], true, []) fun (pieces, ok, holes) => do
    match ← token with
    | .template raw cooked true =>
      advance
      return .inr ((raw :: pieces).reverse, ok && cooked, holes.reverse)
    | .template raw cooked false =>
      advance
      let h ← hole
      require (← atPunct "\x7d")
      reread Source.templateTail
      return .inl (raw :: pieces, ok && cooked, h :: holes)
    | _ => fail

/-- A type in backquotes. -/
def templateType : Parse Tree := do
  let (pieces, ok, holes) ← templateParts (typeWith true)
  require ok
  return .node (.templateType pieces) holes

/-- A mapped type starts at the current brace. -/
def atMappedType : Parse Bool := lookahead do
  advance
  if ← atAny ["+", "-"] then advance; atWord "readonly"
  else
    let _ ← eatWord "readonly"
    return (← eat "[") && (← atAnyWord) && (← nextIs (atWord "in"))

/-- The added or removed modifier of a mapped type. -/
def mappedModifier (present : Parse Bool) : Parse MappedModifier := do
  if ← eat "+" then require (← present); return .plus
  else if ← eat "-" then require (← present); return .minus
  else if ← present then return .present
  else return .absent

/-- A mapped type. -/
def mappedType : Parse Tree := do
  expect "\x7b"
  let readonly ← mappedModifier (eatWord "readonly")
  expect "["
  let key : Tree := .binding (← anyWord)
  expectWord "in"
  let constraint ← typeWith true
  let nameType ← if ← eatWord "as" then typeWith true else pure .absent
  expect "]"
  let optional ← mappedModifier (eat "?")
  let ty ← if ← eat ":" then typeWith true else pure .absent
  let _ ← eat ";"
  expect "\x7d"
  return .node (.mappedType readonly optional) [key, constraint, nameType, ty]

/-- One element of a tuple type. -/
def tupleElement : Parse Tree := do
  let labelled ← lookahead do
    let _ ← eat "..."
    if !(← atAnyWord) then return false
    else
      advance
      if ← atPunct ":" then return true
      else return (← atPunct "?") && (← nextIs (atPunct ":"))
  if labelled then
    let spread ← eat "..."
    let label ← propertyWord
    let optional ← eat "?"
    expect ":"
    let ty ← typeWith true
    let t := Tree.node (.namedMember optional) [label, ty]
    return if spread then .node .restType [t] else t
  else if ← eat "..." then return .node .restType [← typeWith true]
  else
    match ← typeWith true with
    | .node (.nullableType false) [t] => return .node .optionalType [t]
    | t =>
      if ← eat "?" then return .node .optionalType [t] else return t

/-- A tuple type. -/
def tupleType : Parse Tree := do
  expect "["
  let (es, _) ← separated "]" tupleElement
  expect "]"
  return .node .tupleType es

/-- The type of an imported module. -/
def importType : Parse Tree := do
  expectWord "import"
  expect "("
  let source ← quotedString
  let options ← if ← eat "," then
      if ← atPunct ")" then pure Tree.absent
      else
        let o ← call (.assignment true)
        let _ ← eat ","
        pure o
    else pure .absent
  expect ")"
  let qualifier ← if ← eat "." then
      let first ← propertyWord
      iterate first fun left => do
        if ← eat "." then return .inl (.node .qualified [left, ← propertyWord])
        else return .inr left
    else pure .absent
  let args ← typeArguments?
  return .node .importType [source, options, qualifier, args]

/-- The type of a value. -/
def typeQuery : Parse Tree := do
  expectWord "typeof"
  let n ← if ← atWord "import" then importType else typeName
  let args ← match n with
    | .node .importType _ => pure Tree.absent
    | _ => typeArguments?
  return .node .typeQuery [n, args]

/-- A literal type that starts with a minus sign. -/
def negativeType : Parse Tree := do
  expect "-"
  let start ← position
  match ← token with
  | .number v raw => advance; return .node .literalType [.node (.unary .minus) [.number ⟨v, raw, start⟩]]
  | .bigint ds => advance; return .node .literalType [.node (.unary .minus) [.node (.bigint ds) []]]
  | _ => fail

/-- A type that stands alone. -/
def simpleType : Parse Tree := do
  match ← token with
  | .string lit _ => advance; return .node .literalType [.quoted lit]
  | .number _ raw => advance; return .node (.numberType raw) []
  | .bigint ds => advance; return .node .literalType [.node (.bigint ds) []]
  | .template .. => templateType
  | .punct "-" => negativeType
  | .punct "\x7b" =>
    if ← atMappedType then mappedType
    else
      match ← call .typeMembers with
      | .node .group ms => return .node .typeLiteral ms
      | _ => fail
  | .punct "[" => tupleType
  | .punct "(" =>
    advance
    let t ← typeWith true
    expect ")"
    return .node .parenType [t]
  | .word "true" false => advance; return .node .literalType [.node (.bool true) []]
  | .word "false" false => advance; return .node .literalType [.node (.bool false) []]
  | .word "typeof" false => typeQuery
  | .word "import" false => importType
  | .word "this" false =>
    advance
    if (← atWord "is") && !(← onNewLine) then
      advance
      let t ← typeWith true
      return .node (.predicate false) [.node .thisType [], t]
    else return .node .thisType []
  | .word "asserts" false =>
    let guards ← lookahead do
      advance
      return !(← onNewLine) && ((← atIdentifier) || (← atWord "this"))
    if guards then
      advance
      let n ← if ← eatWord "this" then pure (Tree.node .thisType []) else propertyWord
      let t ← if ← eatWord "is" then typeWith true else pure .absent
      return .node (.predicate true) [n, t]
    else typeReference
  | .word w false =>
    if typeKeywords.contains w && !(← nextIs (atPunct ".")) then
      advance
      return .node (.keywordType w) []
    else typeReference
  | _ => typeReference

/-! ## Operators on types -/

/-- Whether a type can start at the current token. -/
def atTypeStart : Parse Bool := do
  match ← token with
  | .string .. | .number .. | .bigint .. | .template .. => return true
  | .punct p =>
    if p == "(" then return true else return ["\x7b", "[", "<", "|", "&", "-", "*", "?", "!", "..."].contains p
  | .word w _ =>
    return !reservedWords.contains w ||
      ["null", "this", "typeof", "void", "new", "true", "false", "import", "function", "in"].contains w
  | _ => return false

/-- A type with its array and index suffixes. -/
def suffixedType : Parse Tree := do
  let first ← simpleType
  iterate first fun t => do
    if ← onNewLine then return .inr t
    else if ← atPunct "!" then
      fault
      advance
      return .inl t
    else if ← atPunct "?" then
      if ← nextIs atTypeStart then return .inr t
      else
        advance
        return .inl (.node (.nullableType false) [t])
    else if ← eat "[" then
      if ← eat "]" then return .inl (.node .arrayType [t])
      else
        let i ← typeWith true
        expect "]"
        return .inl (.node .indexedType [t, i])
    else return .inr t

/-- The constraint of an inferred type, unless it turns out to belong to a conditional type. -/
def inferConstraint : Parse Tree := do
  let found ← attempt do
    expectWord "extends"
    let c ← typeWith false
    require (!(← setting).conditionalTypes || !(← atPunct "?"))
    return c
  return found.getD .absent

/-- Whether a type is written as an array or a tuple, which alone can be read-only. -/
def isListType : Tree → Bool
  | .node .arrayType _ | .node .tupleType _ => true
  | _ => false

/-- Puts operators before a type, the innermost one first. -/
def applyOperators (t : Tree) : List String → Parse Tree
  | [] => return t
  | w :: ws => do
    faultIf (w == "readonly" && !isListType t)
    applyOperators (.node (.operatorType w) [t]) ws

/-- A type with its prefix operators. -/
def operatorType : Parse Tree := do
  let words ← many (atWords ["keyof", "unique", "readonly"] <&&>
      nextIs (do return (← atTypeStart) && !(← onNewLine))) anyWord
  let inner ←
    if (← atWord "infer") && (← nextIs atIdentifier) then
      advance
      let n ← bindingName
      let c ← inferConstraint
      pure (Tree.node .inferType [.node (.typeParam []) [n, c, .absent]])
    else within (fun s => { s with conditionalTypes := true }) suffixedType
  applyOperators inner words.reverse

/-- Types joined by an operator, which may also stand in front of the first. -/
def joined (op : String) (form : Form) (item : Parse Tree) : Parse Tree := do
  let leading ← eat op
  let first ← item
  if leading || (← atPunct op) then
    let more ← many (eat op) item
    return .node form (first :: more)
  else return first

/-- A member of a union or intersection; a function type may stand there unparenthesised. -/
def constituent : Parse Tree := do
  if ← atFunctionType then functionType else operatorType

/-- Unions of intersections. -/
def unionType : Parse Tree := joined "|" .unionType (joined "&" .intersectionType constituent)

/-- The body of `Rule.type`. -/
def typeBody : Parse Tree := do
  if ← atFunctionType then functionType
  else
    let check ← unionType
    if (← setting).conditionalTypes && !(← onNewLine) && (← atWord "extends") then
      advance
      let bound ← typeWith false
      expect "?"
      let yes ← typeWith true
      expect ":"
      let no ← typeWith true
      return .node .conditionalType [check, bound, yes, no]
    else return check

/-- The body of `Rule.returnType`: a type, or a type guard on a parameter. -/
def returnTypeBody : Parse Tree := do
  let guarded ← if !(← atIdentifier) then pure none else attempt do
    let n ← propertyWord
    require ((← atWord "is") && !(← onNewLine))
    advance
    return n
  let t ← typeWith true
  match guarded with
  | some n => return .node (.predicate false) [n, t]
  | none => return t

/-! ## Members of object types -/

/-- Whether an index signature starts at the current bracket. -/
def atIndexSignature : Parse Bool := lookahead do
  if !(← eat "[") then return false
  else if ← atAny ["...", "]"] then return true
  else if !(← atIdentifier) then return false
  else
    advance
    return ← atAny [":", ","]

/-- An index signature. -/
def indexSignature (static readonly : Bool) : Parse Tree := do
  expect "["
  let n ← anyWord
  expect ":"
  let t ← typeWith true
  expect "]"
  let v ← annotation
  return .node (.indexSignature static readonly [n]) [t, v]

/-- The parameters and return type of a signature: `this` parameter, parameters, return type. -/
def signatureTail : Parse (Tree × Tree × Tree) := do
  let (this, ps) := splitParams (← call .params)
  let ret ← returnAnnotation
  return (this, ps, ret)

/-- One member of an object type. -/
def typeMember : Parse Tree := do
  if ← atAny ["(", "<"] then
    let tps ← call .typeParams
    let (this, ps, ret) ← signatureTail
    return .node .callSignature [tps, this, ps, ret]
  else if (← atWord "new") && (← nextIs (atAny ["(", "<"])) then
    advance
    let tps ← call .typeParams
    let (_, ps, ret) ← signatureTail
    return .node .constructSignature [tps, ps, ret]
  else
    let ms ← modifiers ["readonly"]
    let accessor (w : String) : Parse Bool := do
      return (← atWord w) && (← nextIs atKey)
    let kind : PropertyKind ←
      if ← accessor "get" then advance; pure .get
      else if ← accessor "set" then advance; pure .set
      else pure .value
    if kind == .value && (← atIndexSignature) then indexSignature false ms.readonly
    else
      let (k, computed) ← key
      let optional ← eat "?"
      if ← atAny ["(", "<"] then
        let tps ← call .typeParams
        let (this, ps, ret) ← signatureTail
        return .node (.methodSignature kind computed optional) [k, tps, this, ps, ret]
      else
        require (kind == .value)
        let t ← annotation
        return .node (.propertySignature computed optional ms.readonly) [k, t]

/-- Ends a member of an object type. -/
def endMember : Parse Unit := do
  if ← eat "," then pure () else if ← eat ";" then pure () else require (← canEndStatement)

/-- The body of `Rule.typeMembers`. -/
def typeMembersBody : Parse Tree := do
  expect "\x7b"
  let ms ← many (do return !(← atPunct "\x7d")) do
    let m ← typeMember
    endMember
    return m
  expect "\x7d"
  return .group ms

end Parse

end Abridge
