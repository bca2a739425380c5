import Abridge.Syntax.Grammar.Types

/-!
# Patterns, parameters and assignment targets

Patterns introduce names and targets assign to existing ones.  A pattern is read as such; a target is
not, because the text before an assignment sign first reads as an expression.  `targetOf` turns that
expression into a target afterwards, or rejects it.
-/

set_option autoImplicit false

namespace Abridge

namespace Parse

/-! ## Patterns -/

/-- The expression after an equals sign, where `in` is permitted. -/
def initialiser : Parse Tree := withIn (call (.assignment true))

/-- A pattern with its default value. -/
def defaultedPattern : Parse Tree := do
  let p ← call .pattern
  if ← eat "=" then return .node .defaulted [p, ← initialiser] else return p

/-- A rest element of a pattern. -/
def restPattern : Parse Tree := do
  expect "..."
  return .node .rest [← call .pattern]

/-- One property of an object pattern. -/
def bindingProperty : Parse Tree := do
  if ← atPunct "..." then restPattern
  else
    let named ← atIdentifier
    let (k, computed) ← key
    match named, k, ← atPunct ":" with
    | true, .name n, false =>
      let value ← if ← eat "=" then pure (Tree.node .defaulted [.binding n, ← initialiser])
        else pure (.binding n)
      return .node (.bindingProperty true computed) [k, value]
    | _, _, _ =>
      expect ":"
      let value ← defaultedPattern
      return .node (.bindingProperty false computed) [k, value]

/-- Whether a tree is a rest element. -/
def isRest : Tree → Bool
  | .node .rest _ => true
  | .node .restParam _ => true
  | _ => false

/-- A rest element stands last and no comma follows it. -/
def restIsLast (ts : List Tree) (comma : Bool) : Bool :=
  !(ts.dropLast.any isRest) && !(comma && (ts.getLast?.map isRest).getD false)

/-- An object pattern. -/
def objectPattern : Parse Tree := do
  expect "\x7b"
  let (ps, comma) ← withIn (separated "\x7d" bindingProperty)
  expect "\x7d"
  faultIf !(restIsLast ps comma)
  return .node .objectPattern ps

/-- The elements of an array pattern or literal up to the bracket; a lone comma is a hole.  The flag
tells whether the last element is followed by a comma. -/
def elements (item : Parse Tree) : Parse (List Tree × Bool) :=
  iterate ([], true, false) fun (items, fresh, comma) => do
    if ← atPunct "]" then return .inr (items.reverse, comma)
    else if ← atPunct "," then
      advance
      if fresh then return .inl (.absent :: items, true, false)
      else return .inl (items, true, true)
    else
      require fresh
      return .inl ((← item) :: items, false, false)

/-- An array pattern. -/
def arrayPattern : Parse Tree := do
  expect "["
  let (ps, comma) ← withIn (elements do
    if ← atPunct "..." then restPattern else defaultedPattern)
  expect "]"
  faultIf !(restIsLast ps comma)
  return .node .arrayPattern ps

/-- The body of `Rule.pattern`. -/
def patternBody : Parse Tree := do
  if ← atPunct "\x7b" then objectPattern
  else if ← atPunct "[" then arrayPattern
  else bindingName

/-! ## Parameters -/

/-- Whether a pattern is a plain name. -/
def isBinding : Tree → Bool
  | .binding _ => true
  | _ => false

/-- One parameter. -/
def param : Parse Tree := do
  let ds ← decorators
  if ← atPunct "..." then
    advance
    let p ← call .pattern
    let question ← atPunct "?"
    faultIf question
    let t ← annotation
    faultIf (← atPunct "=")
    return .node .restParam [ds, p, t]
  else
    let ms ← if ← typed then modifiers ["public", "private", "protected", "readonly", "override"]
      else pure {}
    let p ← call .pattern
    faultIf (ms != {} && !isBinding p)
    let optional ← if ← typed then eat "?" else pure false
    let t ← annotation
    let init ← if ← eat "=" then initialiser else pure .absent
    faultIf (optional && !init.isAbsent)
    return .node (.param ms optional) [ds, p, t, init]

/-- The body of `Rule.params`: a group of the `this` parameter and the parameters. -/
def paramsBody : Parse Tree := do
  expect "("
  let this ← if (← typed) && (← atWord "this") then
      advance
      let t ← annotation
      if !(← atPunct ")") then expect ","
      pure (Tree.node .thisParam [t])
    else pure .absent
  let (ps, comma) ← withIn (separated ")" param)
  expect ")"
  faultIf !(restIsLast ps comma)
  return .group [this, .node .params ps]

/-! ## Targets -/

/-- Whether an expression can be assigned to as it stands. -/
def isPlace : Tree → Bool
  | .reference _ => true
  | .node (.member _) _ => true
  | .node (.privateMember _) _ => true
  | .node (.index _) _ => true
  | _ => false

/-- The expression inside parentheses and type assertions. -/
def assertedInner : Tree → Tree
  | .node .paren [e] => assertedInner e
  | .node .as [e, _] => assertedInner e
  | .node .satisfies [e, _] => assertedInner e
  | .node .assertion [_, e] => assertedInner e
  | .node .nonNull [e] => assertedInner e
  | e => e

/-- The target that an expression without inner structure denotes. -/
def simpleTarget? : Tree → Option Tree
  | .node .paren [e] =>
    match e with
    | .node (.object _) _ => none
    | .node (.array _) _ => none
    | e => simpleTarget? e
  | .node .as [e, t] => if isPlace (assertedInner e) then some (.node .as [e, t]) else none
  | .node .satisfies [e, t] =>
    if isPlace (assertedInner e) then some (.node .satisfies [e, t]) else none
  | .node .assertion [t, e] =>
    if isPlace (assertedInner e) then some (.node .assertion [t, e]) else none
  | .node .nonNull [e] => if isPlace (assertedInner e) then some (.node .nonNull [e]) else none
  | e => if isPlace e then some e else none

/-- Whether the last target is a rest. -/
def endsInRest (ts : List Tree) : Bool :=
  match ts.getLast? with
  | some (.node .targetRest _) => true
  | _ => false

mutual

/-- The target that an expression denotes.  An element or property value may carry a default, which
reads as an assignment. -/
def targetOf (defaults : Bool) : Tree → Option Tree
  | .node (.assign none) [t, v] => if defaults then some (.node .targetDefault [t, v]) else none
  | .node (.array comma) es =>
    match targetElements es with
    | some ts => if comma && endsInRest ts then none else some (.node .arrayTarget ts)
    | none => none
  | .node (.object comma) ps =>
    match targetProperties ps with
    | some ts => if comma && endsInRest ts then none else some (.node .objectTarget ts)
    | none => none
  | e => simpleTarget? e

/-- The targets of array elements; a spread must be the last. -/
def targetElements : List Tree → Option (List Tree)
  | [] => some []
  | .absent :: es => (targetElements es).map (.absent :: ·)
  | .node .spread [e] :: es =>
    if es.isEmpty then (targetOf false e).map fun t => [.node .targetRest [t]] else none
  | e :: es =>
    match targetOf true e, targetElements es with
    | some t, some ts => some (t :: ts)
    | _, _ => none

/-- The targets of object properties; a spread must be the last. -/
def targetProperties : List Tree → Option (List Tree)
  | [] => some []
  | .node .spread [e] :: es =>
    if es.isEmpty then (targetOf false e).map fun t => [.node .targetRest [t]] else none
  | .node (.property info) [k, v] :: es =>
    let found : Option Tree :=
      if info.shorthand then
        match v with
        | .node .coverDefault [r, init] => some (.node .targetShorthand [r, init])
        | v => some (.node .targetShorthand [v, .absent])
      else if info.method || info.kind != .value then none
      else (targetOf true v).map fun t => .node (.targetProperty info.computed) [k, t]
    match found, targetProperties es with
    | some t, some ts => some (t :: ts)
    | _, _ => none
  | _ => none

end

/-- The target that an expression denotes; the text is rejected if there is none. -/
def target (e : Tree) : Parse Tree :=
  match targetOf false e with
  | some t => pure t
  | none => fail

/-- The target of an operator that assigns to one place. -/
def placeTarget (e : Tree) : Parse Tree :=
  match simpleTarget? e with
  | some t => pure t
  | none => fail

end Parse

end Abridge
