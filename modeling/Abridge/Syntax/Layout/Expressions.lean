import Abridge.Syntax.Layout.Types

/-!
# The layout of expressions

Parentheses are not copied from the source but recomputed: an expression is wrapped when its place
binds at least as tightly as the expression itself.  Functions are the one exception, since a function
written in parentheses is likely to be called at once and keeps them.
-/

set_option autoImplicit false

namespace Abridge

namespace Layout

/-! ## Names and literals -/

/-- A number, which must not absorb a point written after it. -/
def number (lit : NumberLiteral) (m : Mode) : Layout Unit := do
  if lit.value.isFinite then
    let s := numberSpelling lit.value
    word s
    if absorbsPoint s then
      modify fun o => { o with numberEnd := some o.text.utf8ByteSize }
  else wrap (decide (Level.multiply ≤ m.level)) (word "1/0")

/-- A regular expression, which must not touch a slash or turn a less-than sign into a tag. -/
def regexText (pattern flags : String) : Layout Unit := do
  let last ← last?
  if last == some '/' || (last == some '<' && startsScript pattern.toList) then emit " "
  emit "/"
  emit pattern
  emit "/"
  emit (orderFlags flags)
  modify fun o => { o with regexEnd := some o.text.utf8ByteSize }

/-! ## Functions -/

/-- The parameters, return type and body of a method. -/
def methodTail (f : Tree) : Layout Unit := do
  match f with
  | .node (.function _) [_, tps, this, params, ret, body] =>
    optional tps
    paramList this params
    annotated ret
    if body.isAbsent then emit ";" else free body
  | _ => pure ()

/-- The words before the key of a method. -/
def methodWords (f : Tree) : Layout Unit := do
  match f with
  | .node (.function info) _ =>
    if info.async then word "async"
    if info.generator then emit "*"
  | _ => pure ()

/-- A function from its keyword on. -/
def function (info : FunctionInfo) (ps : List Tree) : Layout Unit := do
  match ps with
  | [n, tps, this, params, ret, body] =>
    wordGap
    if info.ambient then emit "declare "
    if info.async then emit "async "
    emit "function"
    if info.generator then emit "*"
    optional n
    optional tps
    paramList this params
    if !ret.isAbsent then
      emit ": "
      free ret
    if body.isAbsent then emit ";" else free body
  | _ => pure ()

/-- Whether an arrow function's parameter list is one bare name. -/
def isBareParam (tps params ret : Tree) : Bool :=
  tps.isAbsent && ret.isAbsent &&
    match params with
    | .node .params [.node (.param ms false) [.node .group [], .binding _, .absent, .absent]] =>
      ms == {}
    | _ => false

/-- An arrow function. -/
def arrow (async concise : Bool) (tps params ret body : Tree) (m : Mode) : Layout Unit := do
  if async then word "async"
  optional tps
  if isBareParam tps params ret then free params else paramList .absent params
  annotated ret
  emit "=>"
  if concise then
    markArrow
    sub body { level := .comma, forbidIn := m.forbidIn, forbidCall := m.forbidCall }
  else free body

/-- Whether the place is where a statement or a default export starts. -/
def atStart : Layout Bool := do
  return (← atMark Out.statementStart) || (← atMark Out.defaultStart)

/-- Whether the place is where a statement or an arrow body starts. -/
def atBraceStart : Layout Bool := do
  return (← atMark Out.statementStart) || (← atMark Out.arrowStart)

/-! ## Objects and patterns -/

/-- The name of a key that is a plain word. -/
def plainKey? : Tree → Option String
  | .name n => some n
  | _ => none

/-- The name of a value that is a reference or a binding. -/
def plainValue? : Tree → Option String
  | .reference n => some n
  | .binding n => some n
  | _ => none

/-- Whether a property is written as its value alone. -/
def isShorthand (shorthand computed : Bool) (k value : Tree) : Bool :=
  !computed &&
    match plainKey? k with
    | some "__proto__" => shorthand
    | some n => plainValue? value == some n
    | none => false

/-- A property of an object literal. -/
def property (info : PropertyInfo) (k v : Tree) : Layout Unit := do
  if info.method || info.kind != .value then
    match info.kind with
    | .get => word "get"
    | .set => word "set"
    | .value => pure ()
    methodWords v
    bracketedKey info.computed k
    methodTail v
  else
    if !isShorthand info.shorthand info.computed k v.stripParens then
      bracketedKey info.computed k
      emit ":"
    item v

/-- The value of a pattern or target without its default. -/
def withoutDefault : Tree → Tree
  | .node .defaulted [p, _] => p
  | .node .targetDefault [t, _] => t
  | t => t

/-- A property of a pattern or of a target; one whose key and name agree is written once. -/
def patternProperty (computed : Bool) (k v : Tree) : Layout Unit := do
  let same := match plainKey? k with
    | some n => !computed && plainValue? (withoutDefault v) == some n
    | none => false
  if !same then
    bracketedKey computed k
    emit ":"
  free v

/-- Elements separated by commas; a hole at the end keeps its comma. -/
def elements (ts : List Tree) : Layout Unit := do
  sepBy "," (fun t => if t.isAbsent then pure () else item t) ts
  if (ts.getLast?.map Tree.isAbsent).getD false then emit ","

/-- Whether a decorator can stand without parentheses. -/
def isPlainDecorator : Tree → Bool
  | .reference _ => true
  | .node (.member _) [o, _] => isPlainDecorator o
  | .node (.privateMember _) [o, _] => isPlainDecorator o
  | .node (.call _) [c, _, _] => isPlainDecorator c
  | _ => false

/-- Decorators, each followed by a space. -/
def decorators (ds : Tree) : Layout Unit :=
  each (fun d => do
    emit "@"
    wrap (!isPlainDecorator d) (free d)
    emit " ") ds.parts

/-! ## Classes -/

/-- The modifiers of a member in the order in which they are written. -/
def memberWords (ms : Modifiers) (field : Bool) : Layout Unit := do
  if field && ms.ambient then word "declare"
  match ms.access with
  | some a => word a.text
  | none => pure ()
  if ms.abstract then word "abstract"
  if ms.static then word "static"
  if field && ms.readonly then word "readonly"
  if ms.accessor then word "accessor"

/-- A member of a class. -/
def member (f : Form) (ps : List Tree) : Layout Unit := do
  match f, ps with
  | .method kind info, [ds, k, fn] =>
    decorators ds
    memberWords info.modifiers false
    match kind with
    | .get => word "get"
    | .set => word "set"
    | _ => pure ()
    methodWords fn
    bracketedKey info.computed k
    if info.optional then emit "?"
    methodTail fn
  | .field info, [ds, k, t, v] =>
    decorators ds
    memberWords info.modifiers true
    bracketedKey info.computed k
    if info.optional then emit "?"
    annotated t
    if !v.isAbsent then
      emit "="
      item v
    owe
  | .staticBlock, ss =>
    word "static"
    braced free ss
  | .indexSignature .., ps =>
    type f ps
    owe
  | _, _ => pure ()

/-- A class from its decorators on. -/
def classText (info : ClassInfo) (ps : List Tree) : Layout Unit := do
  match ps with
  | [ds, n, tps, base, args, ifaces, members] =>
    decorators ds
    wordGap
    if info.ambient then emit "declare "
    if info.abstract then emit "abstract "
    emit "class"
    if !n.isAbsent then
      emit " "
      free n
    optional tps
    if !base.isAbsent then
      emit " extends "
      sub base { level := .update }
      optional args
    if !ifaces.isAbsent then
      emit " implements "
      sepBy "," free ifaces.parts
    braced (fun t => match t with
      | .node f ps => member f ps
      | _ => pure ()) members.parts
  | _ => pure ()

/-! ## Markup -/

/-- An attribute string, in the quote that it does not contain. -/
def attributeText (raw : String) : Layout Unit := do
  let quote := if raw.toList.contains '"' then "'" else "\""
  emit quote
  emit raw
  emit quote

/-- The layout of markup. -/
def markupText (f : Form) (ps : List Tree) : Layout Unit := do
  match f, ps with
  | .element, [opening, .node .group cs, closing] =>
    free opening
    each free cs
    optional closing
  | .fragment, [.node .group cs] =>
    emit "<>"
    each free cs
    emit "</>"
  | .opening selfClosing, [tag, _, .node .group attrs] =>
    emit "<"
    free tag
    each (fun a => do
      match a with
      | .node .markupAttribute _ => emit " "
      | _ => pure ()
      free a) attrs
    emit (if selfClosing then "/>" else ">")
  | .closing, [tag] =>
    emit "</"
    free tag
    emit ">"
  | .namespacedTag, [a, b] =>
    free a
    emit ":"
    free b
  | .memberTag, [o, n] =>
    free o
    emit "."
    free n
  | .markupAttribute, [n, v] =>
    free n
    if !v.isAbsent then
      emit "="
      free v
  | .spreadAttribute, [e] =>
    emit "\x7b..."
    item e
    emit "\x7d"
  | .attributeText raw, _ => attributeText raw
  | .container, [e] =>
    emit "\x7b"
    optional e
    emit "\x7d"
  | .spreadChild, [e] =>
    emit "\x7b..."
    free e
    emit "\x7d"
  | .markupText raw, _ => emit raw
  | _, _ => pure ()

/-! ## Operators -/

/-- The sign of a binary operator that matters to its neighbours. -/
def signOf : BinaryOp → Sign
  | .add => .plus
  | .sub => .minus
  | .gt => .greater
  | _ => .other

/-- Writes a binary operator. -/
def binarySign (op : BinaryOp) : Layout Unit :=
  match op with
  | .in | .instanceof => word op.text
  | .or | .and | .coalesce => emit op.text
  | op => signed (signOf op) op.text

/-- Whether a tree is a logical operator other than coalescing. -/
def isAndOr (t : Tree) : Bool :=
  match t.stripParens with
  | .node (.binary .and) _ => true
  | .node (.binary .or) _ => true
  | _ => false

/-- Whether a tree is a prefix operator. -/
def isUnary (t : Tree) : Bool :=
  match t.stripParens with
  | .node (.unary _) _ => true
  | _ => false

/-- The levels of the two operands of a binary operator. -/
def operandLevels (op : BinaryOp) (l r : Tree) : Level × Level :=
  let own := op.level
  let below := own.below
  match op with
  | .pow => (if isUnary l then .call else own, below)
  | .coalesce => (if isAndOr l then .unary else below, if isAndOr r then .unary else below)
  | .or | .and => (below, below)
  | _ => (below, own)

/-- A binary operator with its operands. -/
def binary (op : BinaryOp) (l r : Tree) (m : Mode) : Layout Unit := do
  let wrapped := decide (op.level ≤ m.level) || (op == .in && m.forbidIn)
  let forbidIn := m.forbidIn && !wrapped
  let (ll, rl) := operandLevels op l r
  wrap wrapped do
    sub l { level := ll, forbidIn }
    binarySign op
    sub r { level := rl, forbidIn }

/-- The sign of a prefix operator that matters to its neighbours. -/
def unarySign : UnaryOp → Sign
  | .plus => .plus
  | .minus => .minus
  | .not => .not
  | _ => .other

/-- Arguments in parentheses. -/
def arguments (args : Tree) : Layout Unit := do
  emit "("
  sepBy "," item args.parts
  emit ")"

/-- Whether a tree is a reference of the given name. -/
def isReferenceTo (n : String) : Tree → Bool
  | .reference m => m == n
  | _ => false

/-- Whether a tree is a parenthesised expression. -/
def isParen : Tree → Bool
  | .node .paren _ => true
  | _ => false

/-- The layout of expressions. -/
def expression (f : Form) (ps : List Tree) (m : Mode) : Layout Unit := do
  match f, ps with
  | .this, _ => word "this"
  | .super, _ => word "super"
  | .null, _ => word "null"
  | .bool b, _ => word (if b then "true" else "false")
  | .bigint ds, _ => word (ds ++ "n")
  | .regex p fl, _ => regexText p fl
  | .template pieces, holes => template pieces holes
  | .tagged, [tag, args, t] =>
    sub tag { level := .update }
    optional args
    free t
  | .array _, es =>
    emit "["
    elements es
    emit "]"
  | .object _, props =>
    let wrapped ← atBraceStart
    wrap wrapped do
      emit "\x7b"
      sepBy "," free props
      emit "\x7d"
  | .property info, [k, v] => property info k v
  | .spread, [e] =>
    emit "..."
    item e
  | .function info, ps =>
    let wrapped ← if info.role == .expression then atStart else pure false
    wrap wrapped (function info ps)
  | .arrow async concise, [tps, params, ret, body] =>
    wrap (decide (Level.assign ≤ m.level)) (arrow async concise tps params ret body m)
  | .class info, ps =>
    let wrapped ← if info.expression then atStart else pure false
    wrap wrapped (classText info ps)
    settle
  | .paren, [e] =>
    -- A function directly inside parentheses keeps them, and is not wrapped twice.
    match e with
    | .node (.function info) ps => wrap true (function info ps)
    | .node (.arrow async concise) [tps, params, ret, body] =>
      wrap true (arrow async concise tps params ret body m)
    | e => sub e m
  | .call opt, [callee, targs, args] =>
    let start ← atMark Out.statementStart
    let default ← atMark Out.defaultStart
    wrap (decide (Level.new ≤ m.level) || m.forbidCall) do
      if default then markDefault else if start then markStatement
      sub callee { level := .update }
      if opt then emit "?."
      optional targs
      arguments args
  | .new, [callee, targs, args] =>
    wrap (decide (Level.member ≤ m.level)) do
      word "new"
      sub callee { level := .new, forbidCall := true }
      optional targs
      if !args.parts.isEmpty || decide (Level.update ≤ m.level) then arguments args
  | .chain, [e] => wrap (decide (Level.update ≤ m.level)) (sub e m)
  | .member opt, [o, n] =>
    sub o { level := .update, forbidCall := m.forbidCall }
    if opt then emit "?"
    else if ← atMark Out.numberEnd then emit " "
    emit "."
    free n
  | .privateMember opt, [o, n] =>
    sub o { level := .update, forbidCall := m.forbidCall }
    if opt then emit "?"
    emit "."
    free n
  | .index opt, [o, i] =>
    wrap (isReferenceTo "let" o) (sub o { level := .update, forbidCall := m.forbidCall })
    if opt then emit "?."
    emit "["
    free i
    emit "]"
  | .binary op, [l, r] => binary op l r m
  | .privateIn, [n, r] =>
    wrap (decide (Level.compare ≤ m.level) || m.forbidIn) do
      free n
      word "in"
      sub r { level := .equals }
  | .unary op, [e] =>
    wrap (decide (Level.unary ≤ m.level)) do
      if op.isWord then word op.text else signed (unarySign op) op.text
      sub e { level := .power, forbidIn := m.forbidIn, forbidCall := m.forbidCall }
  | .update increment before, [t] =>
    let sign := if increment then Sign.increment else .decrement
    let text := if increment then "++" else "--"
    if before then
      wrap (decide (Level.unary ≤ m.level)) do
        signed sign text
        sub t { level := .unary }
    else
      wrap (decide (Level.update ≤ m.level)) do
        sub t { level := .update }
        emit text
        modify fun o => { o with sign := some (sign, o.text.utf8ByteSize) }
  | .assign op, [t, v] =>
    let destructures := match t with
      | .node .objectTarget _ => true
      | _ => false
    let wrapped := destructures && (← atBraceStart) || decide (Level.assign ≤ m.level)
    wrap wrapped do
      item t
      match op with
      | none => emit "="
      | some op => emit (op.text ++ "=")
      sub v { level := .comma, forbidIn := m.forbidIn && !wrapped }
  | .conditional, [c, y, n] =>
    let wrapped := decide (Level.conditional ≤ m.level)
    let forbidIn := m.forbidIn && !wrapped
    wrap wrapped do
      sub c { level := .conditional, forbidIn }
      emit "?"
      sub y { level := .yield }
      emit ":"
      sub n { level := .yield, forbidIn }
  | .sequence, es =>
    wrap (decide (Level.comma ≤ m.level)) (sepBy "," (fun e => sub e { forbidIn := m.forbidIn }) es)
  | .await, [e] =>
    wrap (decide (Level.unary ≤ m.level)) do
      word "await"
      sub e { level := .power }
  | .yield delegate, [e] =>
    wrap (decide (Level.assign ≤ m.level)) do
      word "yield"
      if delegate then emit "*"
      if !e.isAbsent then sub e { level := .yield, forbidIn := m.forbidIn }
  | .importCall phase, [s, o] =>
    wrap (decide (Level.new ≤ m.level) || m.forbidCall) do
      word "import"
      match phase with
      | some p => emit ("." ++ p)
      | none => pure ()
      emit "("
      item s
      if !o.isAbsent then
        emit ","
        item o
      emit ")"
  | .metaProperty, [a, b] =>
    free a
    emit "."
    free b
  | .as, [e, t] =>
    wrap (decide (Level.compare ≤ m.level)) do
      sub e { level := .power }
      emit " as "
      free t
  | .satisfies, [e, t] =>
    wrap (decide (Level.compare ≤ m.level)) do
      sub e { level := .power }
      emit " satisfies "
      free t
  | .assertion, [t, e] =>
    emit "(<"
    free t
    emit ">"
    sub e { level := .member }
    emit ")"
  | .nonNull, [e] =>
    wrap (isParen e) (sub e m)
    emit "! "
  | .instantiation, [e, args] =>
    sub e m
    free args
    emit " "
  | _, _ => pure ()

/-- The layout of patterns and targets. -/
def pattern (f : Form) (ps : List Tree) : Layout Unit := do
  match f, ps with
  | .objectPattern, ts | .objectTarget, ts =>
    emit "\x7b"
    sepBy "," free ts
    emit "\x7d"
  | .arrayPattern, ts | .arrayTarget, ts =>
    emit "["
    elements ts
    emit "]"
  | .bindingProperty _ computed, [k, v] | .targetProperty computed, [k, v] =>
    patternProperty computed k v
  | .defaulted, [p, v] | .targetDefault, [p, v] =>
    item p
    emit "="
    item v
  | .targetShorthand, [r, v] =>
    free r
    if !v.isAbsent then
      emit "="
      item v
  | .rest, [p] | .targetRest, [p] =>
    emit "..."
    free p
  | .params, ps => sepBy "," free ps
  | .param ms opt, [ds, p, t, v] =>
    decorators ds
    match ms.access with
    | some a => word a.text
    | none => pure ()
    if ms.override then word "override"
    if ms.readonly then word "readonly"
    free p
    if opt then emit "?"
    annotated t
    if !v.isAbsent then
      emit "="
      item v
  | .restParam, [ds, p, t] =>
    decorators ds
    emit "..."
    free p
    annotated t
  | _, _ => pure ()

end Layout

end Abridge
