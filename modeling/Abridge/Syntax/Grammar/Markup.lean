import Abridge.Syntax.Grammar.Functions

/-!
# Markup elements

Tags, attributes and the text between tags.  The text follows rules of its own, so the token after
the end of a tag is read in the mode for children whenever the tag stands inside another element or
opens one.
-/

set_option autoImplicit false

namespace Abridge

namespace Parse

/-- Takes a punctuator after which the children of an element continue. -/
def expectThenChild (p : String) : Parse Unit := do
  require (← atPunct p)
  advanceBy Source.markupChild

/-- Takes the punctuator that ends a tag or a container; `inside` tells what follows it. -/
def expectEnd (p : String) (inside : Bool) : Parse Unit :=
  if inside then expectThenChild p else expect p

/-- A name of the markup vocabulary, in which hyphens may occur. -/
def markupWord : Parse String := do
  require (← atAnyWord)
  reread Source.markupName
  match ← token with
  | .word w _ => advance; return w
  | _ => fail

/-- Whether a tag of one word refers to a binding: it does unless it starts with a small letter or
has a hyphen. -/
def isReferenceTag (w : String) : Bool :=
  match w.toList with
  | c :: rest => !(c.isLower || rest.contains '-')
  | [] => false

/-- The object of a dotted tag. -/
def tagObject (w : String) : Tree := if w == "this" then .node .this [] else .reference w

/-- The name of an element. -/
def tagName : Parse Tree := do
  let w ← markupWord
  if ← eat ":" then
    let n ← markupWord
    return .node .namespacedTag [.markupName w, .markupName n]
  else if ← atPunct "." then
    require !(w.toList.contains '-')
    iterate (tagObject w) fun t => do
      if ← eat "." then return .inl (.node .memberTag [t, .markupName (← markupWord)])
      else return .inr t
  else if w == "this" then return .node .this []
  else if isReferenceTag w then return .reference w
  else return .markupName w

/-- Whether two tags are written alike. -/
def sameTag : Tree → Tree → Bool
  | .markupName a, .markupName b => a == b
  | .reference a, .reference b => a == b
  | .node .this [], .node .this [] => true
  | .node .namespacedTag [.markupName a, .markupName b],
    .node .namespacedTag [.markupName c, .markupName d] => a == c && b == d
  | .node .memberTag [a, .markupName b], .node .memberTag [c, .markupName d] =>
    sameTag a c && b == d
  | _, _ => false

/-- The expression in braces; absent when the braces are empty. -/
def containerExpression : Parse Tree := do
  if ← atPunct "\x7d" then return .absent
  else within (fun s => { s with inOperator := true, decorator := false }) (call .expression)

/-- The value of an attribute. -/
def attributeValue : Parse Tree := do
  match ← token with
  | .attributeText raw => advance; return .node (.attributeText raw) []
  | .punct "\x7b" =>
    advance
    let e ← containerExpression
    require !e.isAbsent
    expect "\x7d"
    return .node .container [e]
  | .punct "<" => call (.markup false)
  | _ => fail

/-- One attribute. -/
def markupAttribute : Parse Tree := do
  if ← eat "\x7b" then
    expect "..."
    let e ← withIn (call (.assignment true))
    expect "\x7d"
    return .node .spreadAttribute [e]
  else
    let w ← markupWord
    let n ← if ← eat ":" then do
        let m ← markupWord
        pure (Tree.node .namespacedTag [.markupName w, .markupName m])
      else pure (.markupName w)
    if ← atPunct "=" then
      advanceBy (Source.attributeValue (!(← get).dialect.module))
      let v ← attributeValue
      return .node .markupAttribute [n, v]
    else return .node .markupAttribute [n, .absent]

/-- One child of an element, or nothing before a closing tag. -/
def child : Parse (Option Tree) := do
  match ← token with
  | .markupText raw =>
    advanceBy Source.markupChild
    return some (.node (.markupText raw) [])
  | .punct "\x7b" =>
    advance
    if ← eat "..." then
      let e ← withIn (call .expression)
      expectThenChild "\x7d"
      return some (.node .spreadChild [e])
    else
      let e ← containerExpression
      expectThenChild "\x7d"
      return some (.node .container [e])
  | .punct "<" =>
    if ← nextIs (atPunct "/") then return none
    else return some (← call (.markup true))
  | _ => fail

/-- The children up to the closing tag. -/
def children : Parse (List Tree) :=
  iterate [] fun cs => do
    match ← child with
    | some c => return .inl (c :: cs)
    | none => return .inr cs.reverse

/-- The body of `Rule.markup`. -/
def markupBody (inside : Bool) : Parse Tree := do
  expect "<"
  if ← atPunct ">" then
    expectThenChild ">"
    let cs ← children
    expect "<"
    expect "/"
    expectEnd ">" inside
    return .node .fragment [.group cs]
  else
    let tag ← tagName
    let args ← if ← typed then typeArguments? else pure .absent
    let attrs ← many (do return !(← atAny ["/", ">"])) markupAttribute
    if ← eat "/" then
      expectEnd ">" inside
      return .node .element [.node (.opening true) [tag, args, .group attrs], .group [], .absent]
    else
      expectThenChild ">"
      let cs ← children
      expect "<"
      expect "/"
      let close ← tagName
      require (sameTag tag close)
      expectEnd ">" inside
      return .node .element
        [.node (.opening false) [tag, args, .group attrs], .group cs, .node .closing [close]]

/-- A markup element as an expression; another element must not follow it directly. -/
def markupExpression : Parse Tree := do
  let e ← call (.markup false)
  require !(← atPunct "<")
  return e

end Parse

end Abridge
