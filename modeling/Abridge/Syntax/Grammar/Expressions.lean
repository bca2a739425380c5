import Abridge.Syntax.Grammar.Markup
import Abridge.Syntax.Level

/-!
# Expressions

From the inside out: primary expressions, members and calls, operators before and after an operand,
binary operators by level, conditionals, assignments, arrow functions and sequences.

An arrow function cannot be told from a parenthesised expression at its first token.  `arrowHint`
looks a few tokens ahead; where that leaves the question open, the text is read as an arrow function
if it can be.
-/

set_option autoImplicit false

namespace Abridge

namespace Parse

/-! ## Primary expressions -/

/-- A template that is not tagged: its escapes must be well formed. -/
def templateLiteral : Parse Tree := do
  let (pieces, ok, holes) ← templateParts (withIn (call .expression))
  require ok
  return .node (.template pieces) holes

/-- A template with a tag before it. -/
def taggedTemplate (tag args : Tree) : Parse Tree := do
  let (pieces, _, holes) ← templateParts (withIn (call .expression))
  return .node .tagged [tag, args, .node (.template pieces) holes]

/-- A parenthesised expression. -/
def parenthesised : Parse Tree := do
  expect "("
  let (es, comma) ← within (fun s => { s with inOperator := true, decorator := false })
    (separated ")" (call (.assignment true)))
  expect ")"
  require !comma
  match es with
  | [] => fail
  | [e] => return .node .paren [e]
  | es => return .node .paren [.node .sequence es]

/-- The arguments of a call, in parentheses. -/
def arguments : Parse Tree := do
  expect "("
  let (es, _) ← within (fun s => { s with inOperator := true, decorator := false })
    (separated ")" do
      if ← eat "..." then return .node .spread [← call (.assignment true)]
      else call (.assignment true))
  expect ")"
  return .group es

/-- A dynamic import, from its parenthesis on. -/
def importCall (phase : Option String) : Parse Tree := do
  expect "("
  let (source, options) ← withIn do
    let source ← call (.assignment true)
    let options ← if (← eat ",") && !(← atPunct ")") then call (.assignment true) else pure .absent
    let _ ← eat ","
    return (source, options)
  expect ")"
  return .node (.importCall phase) [source, options]

/-- An expression that starts with `import`. -/
def importExpression : Parse Tree := do
  expectWord "import"
  if ← eat "." then
    match ← token with
    | .word w false =>
      advance
      if w == "meta" then return .node .metaProperty [.name "import", .name "meta"]
      else
        require (w == "source" || w == "defer")
        importCall (some w)
    | _ => fail
  else importCall none

/-- A regular expression at the current slash. -/
def regexLiteral : Parse Tree := do
  reread Source.regex
  match ← token with
  | .regex pattern flags => advance; return .node (.regex pattern flags) []
  | _ => fail

/-- Whether `async` is followed by `function` on the same line. -/
def atAsyncFunction : Parse Bool := do
  return (← atWord "async") && (← nextIs do return (← atWord "function") && !(← onNewLine))

/-- A reference. -/
def identifierExpression : Parse Tree := referenceName

/-- An expression that starts with a word. -/
def wordExpression (w : String) : Parse Tree := do
  match w with
  | "this" => advance; return .node .this []
  | "null" => advance; return .node .null []
  | "true" => advance; return .node (.bool true) []
  | "false" => advance; return .node (.bool false) []
  | "function" => call (.function true false {} false)
  | "class" => call (.class true (.group []) {})
  | "import" => importExpression
  | "super" =>
    advance
    faultIf !(← atAny [".", "[", "("])
    return .node .super []
  | "async" =>
    if ← atAsyncFunction then advance; call (.function true true {} false)
    else identifierExpression
  | _ => identifierExpression

/-- A primary expression. -/
def primary : Parse Tree := do
  let start ← position
  match ← token with
  | .number value raw => advance; return .number ⟨value, raw, start⟩
  | .string lit _ => advance; return .string lit
  | .bigint digits => advance; return .node (.bigint digits) []
  | .template .. => templateLiteral
  | .punct "(" => parenthesised
  | .punct "[" => arrayLiteral
  | .punct "\x7b" => objectLiteral
  | .punct "/" => regexLiteral
  | .punct "/=" => regexLiteral
  | .punct "<" => if ← markup then markupExpression else fail
  | .punct "@" =>
    let ds ← decorators
    require (← atWord "class")
    call (.class true ds {})
  | .word w false => wordExpression w
  | .word _ true => identifierExpression
  | _ => fail

/-! ## Members and calls -/

/-- The member after a dot. -/
def memberAfterDot (object : Tree) (optional : Bool) : Parse Tree := do
  match ← token with
  | .privateName n =>
    advance
    return .node (.privateMember optional) [object, .privateName n]
  | _ => return .node (.member optional) [object, ← propertyWord]

/-- The member in brackets. -/
def memberInBrackets (object : Tree) (optional : Bool) : Parse Tree := do
  expect "["
  let e ← within (fun s => { s with inOperator := true, decorator := false }) (call .expression)
  expect "]"
  return .node (.index optional) [object, e]

/-- Whether an expression can start at the current token. -/
def atExpressionStart : Parse Bool := do
  match ← token with
  | .number .. | .bigint .. | .string .. | .template .. | .privateName _ => return true
  | .punct p =>
    return ["(", "[", "\x7b", "+", "-", "~", "!", "++", "--", "<", "/", "/=", "@"].contains p
  | .word w _ =>
    return !reservedWords.contains w ||
      ["this", "super", "null", "true", "false", "function", "class", "new", "delete", "typeof",
       "void", "import"].contains w
  | _ => return false

/-- Whether a binary operator stands at the current token. -/
def atBinaryOperator : Parse Bool := do
  match ← token with
  | .punct p => return (BinaryOp.ofSign? p).isSome
  | .word w false =>
    if w == "in" then return (← setting).inOperator
    else return ["instanceof", "as", "satisfies"].contains w
  | _ => return false

/-- Whether what follows a list of type arguments agrees with reading it as one. -/
def followsTypeArguments : Parse Bool := do
  match ← token with
  | .template .. => return true
  | .punct "(" => return true
  | .punct p =>
    if ["<", ">", "+", "-"].contains p then return false
    else return (← onNewLine) || (← atBinaryOperator) || !(← atExpressionStart)
  | _ => return (← onNewLine) || (← atBinaryOperator) || !(← atExpressionStart)

/-- Type arguments inside an expression, if the text can be read so. -/
def expressionTypeArguments : Parse (Option Tree) := do
  if !(← typed) || !(← atAny ["<", "<<"]) then return none
  else attempt do
    splitAngle
    expect "<"
    let (ts, comma) ← separated ">" (typeWith true)
    require (!ts.isEmpty && !comma)
    let touching ← lookahead do joinAngle; atPunct ">="
    require !touching
    expectClosingAngle
    require (← followsTypeArguments)
    return .node .typeArgs ts

/-- The members, templates and type arguments after an object; `chain` tells whether an optional link
has occurred and `links` whether one may. -/
def memberRest (object : Tree) (chain links : Bool) : Parse (Tree × Bool) :=
  iterate (object, chain) fun (e, chain) => do
    let stop := Sum.inr (e, chain)
    match ← token with
    | .punct "." =>
      advance
      return .inl (← memberAfterDot e false, chain)
    | .punct "[" =>
      if (← setting).decorator then return stop
      else return .inl (← memberInBrackets e false, chain)
    | .punct "?." =>
      if !links then return stop
      else if ← nextIs (do return (← atAny ["(", "<", "<<"]) || (← isTemplate)) then return stop
      else
        advance
        if ← atPunct "[" then return .inl (← memberInBrackets e true, true)
        else return .inl (← memberAfterDot e true, true)
    | .punct "!" =>
      if (← typed) && !(← onNewLine) then
        advance
        return .inl (.node .nonNull [e], chain)
      else return stop
    | .template .. =>
      faultIf chain
      match e with
      | .node .instantiation [inner, args] => return .inl (← taggedTemplate inner args, chain)
      | e => return .inl (← taggedTemplate e .absent, chain)
    | .punct _ =>
      match ← expressionTypeArguments with
      | some args => return .inl (.node .instantiation [e, args], chain)
      | none => return stop
    | _ => return stop
where
  /-- Whether the current token starts a template. -/
  isTemplate : Parse Bool := do
    match ← token with
    | .template .. => return true
    | _ => return false

/-- The type arguments that an instantiation gives to a call. -/
def splitInstantiation : Tree → Tree × Tree
  | .node .instantiation [e, args] => (e, args)
  | e => (e, .absent)

/-- The calls and members after an object. -/
def callRest (object : Tree) : Parse (Tree × Bool) :=
  iterate (object, false) fun (e, chain) => do
    let (e, chain) ← memberRest e chain true
    if ← atPunct "?." then
      advance
      let args ← expressionTypeArguments
      match ← token with
      | .template .. =>
        fault
        return .inl (← taggedTemplate e (args.getD .absent), true)
      | _ =>
        let vs ← arguments
        return .inl (.node (.call true) [e, args.getD .absent, vs], true)
    else if ← atPunct "(" then
      let (callee, args) := splitInstantiation e
      let vs ← arguments
      return .inl (.node (.call false) [callee, args, vs], chain)
    else return .inr (e, chain)

/-- Marks the whole of an optional chain. -/
def asChain : Tree → Tree
  | .node .instantiation [e, args] => .node .instantiation [asChain e, args]
  | e =>
    match e with
    | .node (.member _) _ | .node (.privateMember _) _ | .node (.index _) _ | .node (.call _) _
    | .node .nonNull _ => .node .chain [e]
    | e => e

/-- A `new` expression, or its meta property. -/
def newExpression (target : Parse Tree) : Parse Tree := do
  expectWord "new"
  if ← eat "." then
    require (← atWord "target")
    advance
    return .node .metaProperty [.name "new", .name "target"]
  else
    let first ← target
    let (e, _) ← memberRest first false false
    let (callee, args) := splitInstantiation e
    let vs ← if ← atPunct "(" then arguments else do
      require !(← atPunct "?.")
      pure .absent
    match callee with
    | .node (.importCall _) _ => fail
    | _ => return .node .new [callee, args, vs]

/-- A primary expression or the target of `new`, which may be another `new`; `n` bounds how many. -/
def primaryOrNew : Nat → Parse Tree
  | 0 => fail
  | n + 1 => do if ← atWord "new" then newExpression (primaryOrNew n) else primary

/-- The body of `Rule.leftHandSide`. -/
def leftHandSideBody : Parse Tree := do
  let first ← primaryOrNew (← get).bound
  let (e, chain) ← callRest first
  return if chain then asChain e else e

/-! ## Operators around an operand -/

/-- The operator that a token writes before an operand. -/
def unaryOp? : Token → Option UnaryOp
  | .punct "+" => some .plus
  | .punct "-" => some .minus
  | .punct "!" => some .not
  | .punct "~" => some .bitNot
  | .word "typeof" false => some .typeof
  | .word "void" false => some .void
  | .word "delete" false => some .delete
  | _ => none

/-- Whether `await` is an operator here: it is where the setting says so, and elsewhere when an
operand follows it on the same line, which is then rejected. -/
def atAwait : Parse Bool := do
  if !(← atWord "await") then return false
  else if (← setting).await then return true
  else nextIs (do return !(← onNewLine) && (← operandFollows))
where
  /-- Whether a word or a literal follows. -/
  operandFollows : Parse Bool := do
    match ← token with
    | .word w _ => return !(["in", "instanceof", "of", "as", "satisfies"].contains w)
    | .number .. | .bigint .. | .string .. => return true
    | _ => return false

/-- An operand with the increments before or after it. -/
def updateExpression : Parse Tree := do
  if ← atAny ["++", "--"] then
    let increment ← atPunct "++"
    advance
    let t ← placeTarget (← call .unary)
    return .node (.update increment true) [t]
  else
    let e ← call .leftHandSide
    if (← atAny ["++", "--"]) && !(← onNewLine) then
      let increment ← atPunct "++"
      advance
      return .node (.update increment false) [← placeTarget e]
    else return e

/-- A type assertion in angle brackets. -/
def typeAssertion : Parse Tree := do
  expect "<"
  let t ← typeWith true
  expectClosingAngle
  let e ← call .unary
  return .node .assertion [t, e]

/-- The body of `Rule.unary`. -/
def unaryBody : Parse Tree := do
  match unaryOp? (← token) with
  | some op =>
    advance
    return .node (.unary op) [← call .unary]
  | none =>
    if (← atPunct "<") && !(← markup) then
      if ← typed then typeAssertion else fail
    else if ← atAwait then
      faultIf !(← setting).await
      advance
      let e ← within (fun s => { s with await := true }) (call .unary)
      return .node .await [e]
    else updateExpression

/-! ## Binary operators -/

/-- The operator at the current token, with greater-than signs joined. -/
def binaryOp? : Parse (Option BinaryOp) := do
  joinAngle
  match ← token with
  | .punct p => return BinaryOp.ofSign? p
  | .word "instanceof" false => return some .instanceof
  | .word "in" false => return if (← setting).inOperator then some .in else none
  | _ => return none

/-- The operands of a coalescing operator must not be other logical operators without parentheses. -/
def mixesCoalesce (op : BinaryOp) (left right : Tree) : Bool :=
  let logical : Tree → Bool
    | .node (.binary .or) _ => true
    | .node (.binary .and) _ => true
    | _ => false
  op == .coalesce && (logical left || logical right)

/-- An operator before the base of a power needs parentheses. -/
def isBarePrefixed : Tree → Bool
  | .node (.unary _) _ => true
  | .node .await _ => true
  | .node .assertion _ => true
  | _ => false

/-- The operators after a left operand that bind tighter than `level`. -/
def binaryRest (left : Tree) (level : Nat) : Parse Tree :=
  iterate left fun left => do
    match ← binaryOp? with
    | some op =>
      let own := op.level.rank
      let stop := if op == .pow then own < level else own ≤ level
      if stop then return .inr left
      else
        advance
        let right ← call (.binary own)
        faultIf (mixesCoalesce op left right)
        faultIf (op == .pow && isBarePrefixed left)
        return .inl (.node (.binary op) [left, right])
    | none =>
      if (← atWords ["as", "satisfies"]) && !(← onNewLine) && (← typed) &&
          Level.compare.rank > level then
        let satisfies ← atWord "satisfies"
        advance
        if !satisfies && (← atWord "const") then
          advance
          return .inl (.node .as [left, .node .typeRef [.reference "const", .absent]])
        else
          let t ← typeWith true
          return .inl (.node (if satisfies then .satisfies else .as) [left, t])
      else return .inr left

/-- The body of `Rule.binary`. -/
def binaryBody (level : Nat) : Parse Tree := do
  match ← token with
  | .privateName n =>
    advance
    require ((← atWord "in") && (← setting).inOperator && level < Level.compare.rank)
    advance
    let right ← call (.binary Level.compare.rank)
    binaryRest (.node .privateIn [.privateName n, right]) level
  | _ => binaryRest (← call .unary) level

/-! ## Arrow functions -/

/-- What a few tokens tell about whether an arrow function starts here. -/
inductive Hint where
  | yes | no | maybe
  deriving DecidableEq, Repr

/-- The hint after an opening parenthesis. -/
def parenHint : Parse Hint := do
  if ← eat ")" then
    if ← atAny ["=>", "\x7b"] then return .yes
    else return if (← atPunct ":") && (← typed) then .maybe else .no
  else if ← atAny ["[", "\x7b"] then return .maybe
  else if ← atPunct "..." then
    return .yes
  else if ← atPunct "@" then return .maybe
  else
    match ← token with
    | .word w _ =>
      let modifier := ["public", "private", "protected", "readonly", "override"].contains w
      let named := (← atIdentifier) || (← atWord "this")
      advance
      if modifier && (← typed) && (← atIdentifier) && !(← atWord "as") then return .yes
      else if !named then return .no
      else if ← atPunct ":" then return .yes
      else if ← eat "?" then
        return if ← atAny [":", ",", "=", ")"] then .yes else .no
      else return if ← atAny [",", "=", ")"] then .maybe else .no
    | _ => return .no

/-- The hint after an opening angle bracket. -/
def angleHint : Parse Hint := do
  if !((← atIdentifier) || (← atWord "const")) then return .no
  else if !(← markup) then return .maybe
  else
    let _ ← eatWord "const"
    advance
    if ← eatWord "extends" then
      return if ← atAny ["=", ">", "/"] then .no else .yes
    else return if ← atAny [",", "="] then .yes else .no

/-- Whether an arrow function with a parameter list starts here. -/
def arrowHint : Parse Hint := do
  let found ← lookahead? do
    let async ← atWord "async"
    if async then advance
    if async && (← onNewLine) then return Hint.no
    else if ← eat "(" then parenHint
    else if ← typed <&&> eat "<" then angleHint
    else return .no
  return found.getD .no

/-- The type parameters, parameters and return type of an arrow function, up to its arrow. -/
structure ArrowHead where
  async : Bool
  typeParams : Tree
  params : Tree
  returnType : Tree

/-- The head of an arrow function with a parameter list. -/
def arrowHead : Parse ArrowHead := do
  let async ← eatWord "async"
  let (tps, ps, ret) ← within (fun s => { s with await := s.await || async }) do
    let tps ← call .typeParams
    let (this, ps) := splitParams (← call .params)
    faultIf !this.isAbsent
    let ret ← returnAnnotation
    return (tps, ps, ret)
  faultIf (← onNewLine)
  expect "=>"
  return ⟨async, tps, ps, ret⟩

/-- The body of an arrow function. -/
def arrowBody (head : ArrowHead) (returnType : Bool) : Parse Tree :=
  within (fun s => { s with await := head.async, yield := false }) do
    let concise := !(← atPunct "\x7b")
    let b ← if concise then call (.assignment returnType) else call .functionBody
    return .node (.arrow head.async concise) [head.typeParams, head.params, head.returnType, b]

/-- An arrow function with a parameter list, if the text can be read as one.  In the middle of a
conditional a return type is accepted only if the conditional's colon still follows. -/
def possibleArrow (returnType : Bool) : Parse (Option Tree) :=
  attempt do
    let head ← arrowHead
    let f ← arrowBody head returnType
    require (returnType || head.returnType.isAbsent || (← atPunct ":"))
    return f

/-- An arrow function with one bare parameter, from its arrow on. -/
def bareArrow (name : String) (async returnType : Bool) : Parse Tree := do
  let s ← setting
  faultIf ((s.await || async) && name == "await")
  faultIf (← onNewLine)
  expect "=>"
  let p : Tree := .node .params [.node (.param {} false) [.group [], .binding name, .absent, .absent]]
  arrowBody ⟨async, .absent, p, .absent⟩ returnType

/-- An async arrow function with one bare parameter starts here. -/
def atAsyncBareArrow : Parse Bool := do
  if !(← atWord "async") then return false
  else lookahead do
    advance
    if (← onNewLine) || !(← atIdentifier) then return false
    else
      advance
      return (← atPunct "=>") && !(← onNewLine)

/-! ## Assignments and sequences -/

/-- Whether `yield` is an operator here: it is where the setting says so, and elsewhere when an operand
follows it on the same line, which is then rejected. -/
def atYield : Parse Bool := do
  if !(← atWord "yield") then return false
  else if (← setting).yield then return true
  else nextIs (do return !(← onNewLine) && (← atAwait.operandFollows))

/-- A `yield` expression. -/
def yieldExpression : Parse Tree := do
  faultIf !(← setting).yield
  advance
  if ← onNewLine then return .node (.yield false) [.absent]
  else
    let delegate ← eat "*"
    let ends := (← atAny [";", "\x7d", ")", "]", ":", ","]) || (← token) == .eof || (← atWord "in")
    if ends && !delegate then return .node (.yield false) [.absent]
    else return .node (.yield delegate) [← call (.assignment true)]

/-- A conditional, assignment or simple arrow function. -/
def operatorExpression (returnType : Bool) : Parse Tree := do
  let left ← call (.binary Level.lowest.rank)
  match left, ← token with
  | .reference n, .punct "=>" => bareArrow n false returnType
  | left, .punct p =>
    match BinaryOp.ofAssignment? p with
    | some op =>
      let t ← if op.isNone then target left else placeTarget left
      advance
      let value ← call (.assignment returnType)
      return .node (.assign op) [t, value]
    | none =>
      if p == "?" then
        advance
        let yes ← withIn (call (.assignment false))
        expect ":"
        let no ← call (.assignment returnType)
        return .node .conditional [left, yes, no]
      else return left
  | left, _ => return left

/-- The body of `Rule.assignment`. -/
def assignmentBody (returnType : Bool) : Parse Tree := do
  if ← atYield then yieldExpression
  else
    let arrow ← match ← arrowHint with
      | .no => pure none
      | .yes => some <$> (do arrowBody (← arrowHead) returnType)
      | .maybe => possibleArrow returnType
    match arrow with
    | some f => return f
    | none =>
      if ← atAsyncBareArrow then
        advance
        bareArrow (← identifier) true returnType
      else operatorExpression returnType

/-- The body of `Rule.expression`. -/
def expressionBody : Parse Tree := do
  let first ← within (fun s => { s with decorator := false }) (call (.assignment true))
  if ← atPunct "," then
    let more ← many (eat ",") (call (.assignment true))
    return .node .sequence (first :: more)
  else return first

end Parse

end Abridge
