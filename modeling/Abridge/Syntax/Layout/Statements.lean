import Abridge.Syntax.Layout.Expressions

/-!
# The layout of statements

A statement that ends in an expression owes a semicolon, which is written only when something follows
it in the same list or at the end of the program, never before a closing brace.
-/

set_option autoImplicit false

namespace Abridge

namespace Layout

/-- The body of a loop, a label or a branch; `gap` asks for a space before a statement that is no
block. -/
def bodyText (gap : Bool) (s : Tree) : Layout Unit := do
  match s with
  | .node .block _ => free s
  | .node .empty _ => emit ";"
  | s =>
    if gap then emit " "
    free s

/-- Whether an `else` written after the statement would be taken by it. -/
def capturesElse : Tree → Bool
  | .node .if [_, _, no] => if no.isAbsent then true else capturesElse no
  | .node .for [_, _, _, b] => capturesElse b
  | .node .forIn [_, _, b] => capturesElse b
  | .node (.forOf _) [_, _, b] => capturesElse b
  | .node .while [_, b] => capturesElse b
  | .node .with [_, b] => capturesElse b
  | .node .labelled [_, b] => capturesElse b
  | _ => false

/-- An if statement; the branch of one with an alternative must not take its `else`. -/
def ifText (test yes no : Tree) : Layout Unit := do
  word "if("
  free test
  emit ")"
  if capturesElse yes then
    emit "\x7b"
    free yes
    settle
    emit "\x7d"
  else bodyText false yes
  if !no.isAbsent then
    paySemicolon
    word "else"
    match no with
    | .node .if _ =>
      emit " "
      free no
    | no => bodyText true no

/-- The keyword of a variable declaration. -/
def varText : VarWord → String
  | .var => "var"
  | .let => "let"
  | .const => "const"
  | .using => "using"
  | .awaitUsing => "await using"

/-- A variable declaration without its semicolon. -/
def variableList (keyword : VarWord) (ambient : Bool) (ds : List Tree) (forbidIn : Bool) :
    Layout Unit := do
  if ambient then word "declare "
  word (varText keyword)
  sepBy "," (fun d => match d with
    | .node (.declarator definite) [p, t, v] => do
      free p
      if definite then emit "!"
      annotated t
      if !v.isAbsent then
        emit "="
        sub v { level := .comma, forbidIn }
    | _ => pure ()) ds

/-- The head of a counting loop. -/
def loopInit (t : Tree) : Layout Unit :=
  match t with
  | .absent => pure ()
  | .node (.variables keyword ambient) ds => variableList keyword ambient ds true
  | e => sub e { forbidIn := true }

/-- The left side of a loop over keys or values. -/
def loopLeft (t : Tree) : Layout Unit :=
  match t with
  | .node (.variables keyword ambient) ds => variableList keyword ambient ds true
  | t => wrap (isReferenceTo "async" t) (free t)

/-- A catch clause. -/
def catchText (p t b : Tree) : Layout Unit := do
  word "catch"
  if !p.isAbsent then
    emit "("
    free p
    annotated t
    emit ")"
  free b

/-- A clause of a switch. -/
def caseText (test : Tree) (ss : List Tree) : Layout Unit := do
  if test.isAbsent then word "default"
  else
    word "case"
    free test
  emit ":"
  each (fun s => do paySemicolon; free s) ss

/-- A directive with its semicolon. -/
def directive (raw : String) : Layout Unit := do
  let quote := String.ofList [directiveQuote raw.toList]
  emit quote
  emit raw
  emit quote
  emit ";"

/-- The layout of statements. -/
def statement (f : Form) (ps : List Tree) : Layout Unit := do
  match f, ps with
  | .directive raw, _ => directive raw
  | .block, ss | .body, ss | .moduleBlock, ss => braced free ss
  | .empty, _ => emit ";"
  | .expression, [e] =>
    markStatement
    free e
    owe
  | .variables keyword ambient, ds =>
    variableList keyword ambient ds false
    owe
  | .if, [test, yes, no] => ifText test yes no
  | .for, [init, test, update, body] =>
    word "for("
    loopInit init
    emit ";"
    optional test
    emit ";"
    optional update
    emit ")"
    bodyText false body
  | .forIn, [left, right, body] =>
    word "for("
    loopLeft left
    word "in"
    free right
    emit ")"
    bodyText false body
  | .forOf isAwait, [left, right, body] =>
    word (if isAwait then "for await(" else "for(")
    loopLeft left
    word "of"
    item right
    emit ")"
    bodyText false body
  | .while, [test, body] =>
    word "while("
    free test
    emit ")"
    bodyText false body
  | .doWhile, [body, test] =>
    word "do"
    bodyText true body
    paySemicolon
    word "while("
    free test
    emit ")"
    owe
  | .return, [e] =>
    word "return"
    optional e
    owe
  | .throw, [e] =>
    word "throw"
    free e
    owe
  | .break, [l] =>
    word "break"
    optional l
    owe
  | .continue, [l] =>
    word "continue"
    optional l
    owe
  | .labelled, [l, s] =>
    free l
    emit ":"
    bodyText false s
  | .switch, e :: cases =>
    word "switch("
    free e
    emit ")"
    braced free cases
  | .case, test :: ss => caseText test ss
  | .try, [b, h, fin] =>
    word "try"
    free b
    optional h
    if !fin.isAbsent then
      word "finally"
      free fin
  | .catch, [p, t, b] => catchText p t b
  | .with, [o, body] =>
    word "with("
    free o
    emit ")"
    bodyText false body
  | .debugger, _ =>
    word "debugger"
    owe
  | _, _ => pure ()

/-! ## The module interface -/

/-- Import attributes. -/
def attributes (t : Tree) : Layout Unit := do
  match t with
  | .node (.attributes w) es =>
    emit w
    emit "\x7b"
    sepBy "," (fun e => match e with
      | .node .attributeEntry [k, v] => do
        keyText k
        emit ":"
        keyText v
      | _ => pure ()) es
    emit "\x7d"
  | _ => pure ()

/-- The text of a name of the module interface. -/
def interfaceText : Tree → String
  | .name n => n
  | .reference n => n
  | .binding n => n
  | .quoted lit => lit.value
  | _ => ""

/-- Two names joined by `as`, or one of them when they agree. -/
def renamed (a b : Tree) : Layout Unit := do
  keyText a
  if interfaceText a != interfaceText b then
    emit " as "
    keyText b

/-- The specifiers of an import: a default, then everything or a list. -/
def importSpecifiers (ss : List Tree) : Layout Unit := do
  let (named, plain) := ss.partition fun
    | .node (.importNamed _) _ => true
    | _ => false
  sepBy "," (fun s => match s with
    | .node .importDefault [n] => do
      word ""
      free n
    | .node .importAll [n] => do
      emit "*as "
      free n
    | _ => pure ()) plain
  if !plain.isEmpty && !named.isEmpty then emit ","
  if !named.isEmpty then
    emit "\x7b"
    sepBy "," (fun s => match s with
      | .node (.importNamed typeOnly) [a, b] => do
        if typeOnly then emit "type "
        renamed a b
      | _ => pure ()) named
    emit "\x7d"

/-- The source of an import or export. -/
def fromSource (source : Tree) : Layout Unit := do
  word "from"
  keyText source

/-- The layout of imports and exports. -/
def moduleItem (f : Form) (ps : List Tree) : Layout Unit := do
  match f, ps with
  | .import typeOnly phase, [specs, source, attrs] =>
    word "import"
    if typeOnly then emit " type"
    match phase with
    | some p => emit (" " ++ p)
    | none => pure ()
    match specs with
    | .absent =>
      keyText source
      attributes attrs
    | .node .group [] =>
      emit "\x7b\x7d"
      fromSource source
      if !attrs.isAbsent then emit " "
      attributes attrs
    | specs =>
      importSpecifiers specs.parts
      fromSource source
      attributes attrs
    owe
  | .exportNamed typeOnly, [d, .node .group specs, source, _] =>
    word "export"
    if d.isAbsent then
      if typeOnly then emit " type"
      emit "\x7b"
      sepBy "," (fun s => match s with
        | .node (.exportSpecifier typeOnly) [a, b] => do
          if typeOnly then emit "type "
          renamed a b
        | _ => pure ()) specs
      emit "\x7d"
      if !source.isAbsent then fromSource source
      owe
    else
      emit " "
      free d
  | .exportDefault, [d] =>
    word "export default "
    match d with
    | .node (.function info) _ => if info.role == .expression then value d else free d
    | .node (.class info) _ => if info.expression then value d else free d
    | .node (.interface _) _ => free d
    | d => value d
  | .exportAll typeOnly, [n, source, attrs] =>
    word "export"
    if typeOnly then emit " type"
    emit "*"
    if !n.isAbsent then
      emit "as "
      keyText n
    fromSource source
    if !attrs.isAbsent then emit " "
    attributes attrs
    owe
  | _, _ => pure ()
where
  /-- An expression exported by default. -/
  value (e : Tree) : Layout Unit := do
    markDefault
    item e
    owe

end Layout

end Abridge
