import Abridge.Syntax.Grammar.Expressions

/-!
# Statements and declarations

Blocks, control flow, variables, the module interface and the declarations of static types.

String statements at the head of a body are directives.  They are recognised only after they have
been read as statements, since `'a'.b` starts like one and is none.
-/

set_option autoImplicit false

namespace Abridge

namespace Parse

/-! ## Lists of statements -/

/-- The directive that a statement turns out to be, when it was read from the token given. -/
def directive? (first : Token) (statement : Tree) : Option String :=
  match first, statement with
  | .string lit raw, .node .expression [.string lit'] =>
    if lit.start == lit'.start then some raw else none
  | _, _ => none

/-- Directives and statements up to the end given. -/
def bodyItems (atEnd : Parse Bool) : Parse (List String × List Tree) :=
  iterate ([], [], true) fun (ds, ss, head) => do
    if ← atEnd then return .inr (ds.reverse, ss.reverse)
    else
      let first ← token
      let s ← call (.statement .list)
      match directive? first s with
      | some raw =>
        if head then return .inl (raw :: ds, ss, true) else return .inl (ds, s :: ss, false)
      | none => return .inl (ds, s :: ss, false)

/-- Whether the current token closes a block. -/
def atBlockEnd : Parse Bool := atPunct "\x7d"

/-- The statements of a block, in braces. -/
def bracedStatements : Parse (List Tree) := do
  expect "\x7b"
  let ss ← many (do return !(← atBlockEnd)) (call (.statement .list))
  expect "\x7d"
  return ss

/-- The body of `Rule.block`. -/
def blockBody : Parse Tree := do return .node .block (← bracedStatements)

/-- The body of `Rule.functionBody`. -/
def functionBodyBody : Parse Tree := do
  expect "\x7b"
  let (ds, ss) ← within (fun s => { s with «return» := true }) (bodyItems atBlockEnd)
  expect "\x7d"
  return .node .body (ds.map (fun d => .node (.directive d) []) ++ ss)

/-- The body of `Rule.moduleBlock`. -/
def moduleBlockBody : Parse Tree := do return .node .moduleBlock (← bracedStatements)

/-! ## Variables -/

/-- Whether a pattern is a single name. -/
def isName : Tree → Bool
  | .binding _ => true
  | _ => false

/-- One declarator; `loose` in the head of a loop, where a value may come from the loop. -/
def declarator (word : VarWord) (ambient loose : Bool) : Parse Tree := do
  let p ← call .pattern
  let definite ← if (← typed) && isName p && !(← onNewLine) then eat "!" else pure false
  let t ← annotation
  let init ← if ← eat "=" then call (.assignment true) else pure .absent
  faultIf (definite && (!init.isAbsent || t.isAbsent))
  let ambient := ambient || (← setting).ambient
  if !loose && !ambient && init.isAbsent then
    faultIf (!isName p || word == .const || word == .using || word == .awaitUsing)
  return .node (.declarator definite) [p, t, init]

/-- The declarators after a variable keyword. -/
def declarators (word : VarWord) (ambient loose : Bool) : Parse Tree := do
  let first ← declarator word ambient loose
  let more ← many (eat ",") (declarator word ambient loose)
  return .node (.variables word ambient) (first :: more)

/-- A variable statement, from its keyword on. -/
def variableStatement (word : VarWord) (place : Place) (ambient : Bool) : Parse Tree := do
  advance
  faultIf (place != .list && word.isLexical)
  let d ← declarators word ambient false
  endStatement
  return d

/-! ## Simple statements -/

/-- An expression as a statement. -/
def expressionStatement (e : Tree) : Parse Tree := do
  endStatement
  return .node .expression [e]

/-- An expression statement or a labelled statement. -/
def expressionOrLabelled : Parse Tree := do
  let e ← call .expression
  match e, ← atPunct ":" with
  | .reference n, true =>
    advance
    let s ← call (.statement .label)
    return .node .labelled [.label n, s]
  | e, _ => expressionStatement e

/-- A parenthesised expression. -/
def condition : Parse Tree := do
  expect "("
  let e ← withIn (call .expression)
  expect ")"
  return e

/-- How a statement that starts with `let` goes on. -/
inductive LetUse where
  /-- An operator follows: the word is an operand. -/
  | operand
  /-- A member or a call follows. -/
  | object
  /-- The word is the whole statement. -/
  | alone
  | declaration
  deriving DecidableEq, Repr

/-- Judges `let` by the token after it. -/
def letUse (place : Place) : Parse LetUse := do
  let next? ← lookahead? do advance; token
  match next?.getD .eof with
  | .punct p =>
    if (BinaryOp.ofAssignment? p).isSome || (BinaryOp.ofSign? p).isSome then return .operand
    else if p == "." || p == "(" then return .object
    else if p == ";" || (place != .list && p != "[") then return .alone
    else return .declaration
  | .word w false =>
    if w == "in" || w == "instanceof" then return .operand
    else return if place != .list then .alone else .declaration
  | _ => return if place != .list then .alone else .declaration

/-- A statement that starts with `let`. -/
def letStatement (place : Place) : Parse Tree := do
  match ← letUse place with
  | .operand => expressionStatement (← call (.assignment true))
  | .object => expressionStatement (← call .expression)
  | .alone => expressionStatement (← referenceName)
  | .declaration => variableStatement .let place false

/-- A jump to a label or to the nearest target. -/
def jump (form : Form) : Parse Tree := do
  advance
  let label ← if !(← canEndStatement) && (← atIdentifier) then pure (Tree.label (← identifier))
    else pure .absent
  endStatement
  return .node form [label]

/-- A return statement. -/
def returnStatement : Parse Tree := do
  faultIf !(← setting).return
  advance
  let e ← if ← canEndStatement then pure .absent else withIn (call .expression)
  endStatement
  return .node .return [e]

/-- A throw statement. -/
def throwStatement : Parse Tree := do
  advance
  faultIf (← onNewLine)
  let e ← withIn (call .expression)
  endStatement
  return .node .throw [e]

/-! ## Compound statements -/

/-- An if statement. -/
def ifStatement : Parse Tree := do
  advance
  let test ← condition
  let yes ← call (.statement .branch)
  let no ← if ← eatWord "else" then call (.statement .branch) else pure .absent
  return .node .if [test, yes, no]

/-- A while statement. -/
def whileStatement : Parse Tree := do
  advance
  let test ← condition
  let body ← call (.statement .body)
  return .node .while [test, body]

/-- A do-while statement, whose semicolon may always be left out. -/
def doStatement : Parse Tree := do
  advance
  let body ← call (.statement .body)
  expectWord "while"
  let test ← condition
  let _ ← eat ";"
  return .node .doWhile [body, test]

/-- A with statement. -/
def withStatement : Parse Tree := do
  advance
  let object ← condition
  let body ← call (.statement .body)
  return .node .with [object, body]

/-- One clause of a switch. -/
def caseClause : Parse Tree := do
  let test ← if ← eatWord "default" then pure Tree.absent
    else
      expectWord "case"
      withIn (call .expression)
  expect ":"
  let ss ← many (do return !((← atBlockEnd) || (← atWords ["case", "default"])))
    (call (.statement .list))
  return .node .case (test :: ss)

/-- A switch statement. -/
def switchStatement : Parse Tree := do
  advance
  let value ← condition
  expect "\x7b"
  let cases ← many (do return !(← atBlockEnd)) caseClause
  expect "\x7d"
  return .node .switch (value :: cases)

/-- A try statement. -/
def tryStatement : Parse Tree := do
  advance
  let block ← call .block
  let handler ← if ← eatWord "catch" then do
      let (p, t) ← if ← eat "(" then do
          let p ← call .pattern
          let t ← annotation
          expect ")"
          pure (p, t)
        else pure (Tree.absent, Tree.absent)
      let b ← call .block
      pure (Tree.node .catch [p, t, b])
    else pure .absent
  let finaliser ← if ← eatWord "finally" then call .block else pure .absent
  faultIf (handler.isAbsent && finaliser.isAbsent)
  return .node .try [block, handler, finaliser]

/-! ## Loops with a head -/

/-- The rest of a counting loop, from its first semicolon on. -/
def countingLoop (init : Tree) (isAwait : Bool) : Parse Tree := do
  faultIf isAwait
  expect ";"
  let test ← if ← atPunct ";" then pure .absent else withIn (call .expression)
  expect ";"
  let update ← if ← atPunct ")" then pure .absent else withIn (call .expression)
  expect ")"
  let body ← call (.statement .body)
  return .node .for [init, test, update, body]

/-- The rest of a loop over keys or values, at its word. -/
def iteratingLoop (left : Tree) (isAwait : Bool) : Parse Tree := do
  if ← eatWord "of" then
    let right ← withIn (call (.assignment true))
    expect ")"
    let body ← call (.statement .body)
    return .node (.forOf isAwait) [left, right, body]
  else
    expectWord "in"
    faultIf isAwait
    let right ← withIn (call .expression)
    expect ")"
    let body ← call (.statement .body)
    return .node .forIn [left, right, body]

/-- Reads with the operator `in` excluded. -/
def withoutIn {α : Type} (p : Parse α) : Parse α :=
  within (fun s => { s with inOperator := false }) p

/-- The variable keyword that opens the head of a loop. -/
def loopWord? : Parse (Option VarWord) := do
  if ← atWord "var" then return some .var
  else if ← atWord "const" then return some .const
  else if ← atWord "let" then
    let declares ← nextIs (do
      match ← token with
      | .word w false => return w != "in"
      | .word _ true => return true
      | .punct p => return p == "[" || p == "\x7b"
      | _ => return false)
    return if declares then some .let else none
  else if ← atWord "using" then
    let declares ← nextIs (do
      return (← atIdentifier) && !(← onNewLine) && !(← atWord "of"))
    return if declares then some .using else none
  else return none

/-- A loop that starts with `for`. -/
def forStatement : Parse Tree := do
  advance
  let isAwait ← eatWord "await"
  faultIf (isAwait && !(← setting).await)
  expect "("
  if ← atPunct ";" then countingLoop .absent isAwait
  else
    match ← loopWord? with
    | some word =>
      advance
      let d ← withoutIn (declarators word false true)
      if ← atWords ["of", "in"] then iteratingLoop d isAwait else countingLoop d isAwait
    | none =>
      let ofAfter ← nextIs (atWord "of")
      let isLet ← atWord "let"
      let isAsync ← atWord "async"
      let e ← withoutIn (call .expression)
      if ← atWord "of" then
        faultIf (isLet || (isAsync && ofAfter && !isAwait))
        iteratingLoop (← target e) isAwait
      else if ← atWord "in" then iteratingLoop (← target e) isAwait
      else countingLoop e isAwait

/-! ## Functions and classes as statements -/

/-- A function statement; only a plain one may be the body of another statement. -/
def functionStatement (place : Place) (async : Bool) (ms : Modifiers) : Parse Tree := do
  if async then advance
  let generator ← nextIs (atPunct "*")
  faultIf (place != .list && (async || generator))
  call (.function false async ms false)

/-- A class statement; it may not be the body of another statement. -/
def classStatement (place : Place) (ds : Tree) (ms : Modifiers) : Parse Tree := do
  faultIf (place != .list)
  call (.class false ds ms)

/-! ## Declarations of types -/

/-- A type alias. -/
def typeAlias (ambient : Bool) : Parse Tree := do
  expectWord "type"
  let n ← bindingName
  let tps ← call .typeParams
  expect "="
  let intrinsic ← atWord "intrinsic" <&&> nextIs canEndStatement
  let t ← if intrinsic then do advance; pure (Tree.node (.keywordType "intrinsic") [])
    else typeWith true
  endStatement
  return .node (.typeAlias ambient) [n, tps, t]

/-- A base of an interface: an expression with type arguments. -/
def interfaceBase : Parse Tree := do
  let e ← call .leftHandSide
  match e with
  | .node .instantiation [e, args] => return .node .heritage [e, args]
  | e => return .node .heritage [e, ← typeArguments?]

/-- An interface. -/
def interfaceDeclaration (ambient : Bool) : Parse Tree := do
  expectWord "interface"
  let n ← bindingName
  let tps ← call .typeParams
  let bases ← if ← eatWord "extends" then
      let first ← interfaceBase
      let more ← many (eat ",") interfaceBase
      pure (first :: more)
    else pure []
  let ms ← call .typeMembers
  return .node (.interface ambient) [n, tps, .group bases, ms]

/-- One member of an enumeration. -/
def enumMember : Parse Tree := do
  let (k, computed) ← match ← token with
    | .string lit _ => do advance; pure (Tree.quoted lit, false)
    | .punct "[" => do
      advance
      let k ← match ← token with
        | .string lit _ => do advance; pure (Tree.quoted lit)
        | .template raw true true => do advance; pure (Tree.node (.template [raw]) [])
        | _ => fail
      expect "]"
      pure (k, true)
    | _ => do pure (← propertyWord, false)
  let init ← if ← eat "=" then initialiser else pure .absent
  return .node (.enumMember computed) [k, init]

/-- An enumeration. -/
def enumDeclaration (const ambient : Bool) : Parse Tree := do
  expectWord "enum"
  let n ← bindingName
  expect "\x7b"
  let (ms, _) ← separated "\x7d" enumMember
  expect "\x7d"
  return .node (.enum const ambient) [n, .group ms]

/-- The names and body of a namespace; each dotted name is a namespace inside the one before it. -/
def namespaceBody (word : String) (ambient : Bool) : Parse Tree := do
  let names ← iterate [] fun ns => do
    let n ← bindingName
    if ← eat "." then return .inl (n :: ns) else return .inr (n :: ns)
  let block ← call .moduleBlock
  return names.foldl (fun body n => .node (.namespace word ambient) [n, body]) block

/-- A namespace, a module given by a string, or an extension of the global scope. -/
def moduleDeclaration (ambient : Bool) : Parse Tree :=
  within (fun s => { s with ambient := s.ambient || ambient }) do
    if ← eatWord "global" then return .node (.global ambient) [← call .moduleBlock]
    else
      let word ← anyWord
      match ← token with
      | .string lit _ =>
        advance
        let body ← if ← atPunct "\x7b" then call .moduleBlock
          else do endStatement; pure .absent
        return .node (.namespace word ambient) [.quoted lit, body]
      | _ => namespaceBody word ambient

/-- Whether a declaration of types, or one marked by a modifier, starts here; `n` bounds the
modifiers. -/
def atTypeDeclaration : Nat → Parse Bool
  | 0 => return false
  | n + 1 => do
    match ← token with
    | .word w false =>
      if w == "interface" || w == "type" then
        nextIs (do return (← atIdentifier) && !(← onNewLine))
      else if w == "module" || w == "namespace" then
        nextIs (do
          return !(← onNewLine) && ((← atIdentifier) || (← isString)))
      else if w == "enum" then nextIs atIdentifier
      else if w == "global" then nextIs (atPunct "\x7b")
      else if w == "declare" || w == "abstract" then
        nextIs (do
          if ← onNewLine then return false
          else if ← atWords ["var", "let", "const", "function", "class", "import", "using"] then
            return true
          else if ← atAsyncFunction then return true
          else atTypeDeclaration n)
      else if w == "const" then nextIs (atWord "enum")
      else return false
    | _ => return false
where
  /-- Whether the current token is a string. -/
  isString : Parse Bool := do
    match ← token with
    | .string .. => return true
    | _ => return false

/-- The reference of an import alias. -/
def importReference : Parse Tree := do
  if (← atWord "require") && (← nextIs (atPunct "(")) then
    advance
    expect "("
    let s ← quotedString
    expect ")"
    return .node .externalModule [s]
  else typeName

/-- An import alias, from its equals sign on. -/
def importEquals (typeOnly : Bool) (name : Tree) : Parse Tree := do
  expect "="
  let r ← importReference
  endStatement
  return .node (.importEquals typeOnly) [name, r]

/-- A declaration of types or one marked by a modifier. -/
def typeDeclaration (ds : Tree) (place : Place) : Parse Tree := do
  let ms ← iterate ({} : Modifiers) fun ms => do
    if ← atWords ["declare", "abstract"] then return .inl (← addModifier ms (← anyWord))
    else return .inr ms
  let inAmbient {α : Type} (p : Parse α) : Parse α :=
    within (fun s => { s with ambient := s.ambient || ms.ambient }) p
  match ← token with
  | .word "interface" false => interfaceDeclaration ms.ambient
  | .word "type" false => typeAlias ms.ambient
  | .word "enum" false => inAmbient (enumDeclaration false ms.ambient)
  | .word "const" false =>
    if ← nextIs (atWord "enum") then
      advance
      inAmbient (enumDeclaration true ms.ambient)
    else inAmbient (variableStatement .const place ms.ambient)
  | .word "var" false => inAmbient (variableStatement .var place ms.ambient)
  | .word "let" false => inAmbient (variableStatement .let place ms.ambient)
  | .word "function" false => inAmbient (functionStatement place false ms)
  | .word "async" false => inAmbient (functionStatement place true ms)
  | .word "class" false => inAmbient (classStatement place ds ms)
  | .word "import" false =>
    advance
    let n ← bindingName
    importEquals false n
  | _ => moduleDeclaration ms.ambient

/-! ## The module interface -/

/-- Import attributes, or nothing. -/
def importAttributes : Parse Tree := do
  let word ← if ← atWord "with" then pure (some "with")
    else if (← atWord "assert") && !(← onNewLine) then pure (some "assert")
    else pure none
  match word with
  | none => return .absent
  | some w =>
    advance
    expect "\x7b"
    let (es, _) ← separated "\x7d" do
      let k ← moduleName
      expect ":"
      let v ← quotedString
      return .node .attributeEntry [k, v]
    expect "\x7d"
    return .node (.attributes w) es

/-- Whether the word `type` marks what follows it in a list of specifiers. -/
def specifierIsTyped : Parse Bool := do
  if !((← typed) && (← atWord "type")) then return false
  else lookahead do
    advance
    if ← atAny [",", "\x7d"] then return false
    else if ← eatWord "as" then
      if ← atAny [",", "\x7d"] then return true
      else if ← eatWord "as" then return !(← atAny [",", "\x7d"])
      else return false
    else return true

/-- One named import. -/
def importSpecifier : Parse Tree := do
  let typeOnly ← specifierIsTyped
  if typeOnly then advance
  let usable ← atIdentifier
  let imported ← moduleName
  if ← eatWord "as" then
    return .node (.importNamed typeOnly) [imported, ← bindingName]
  else
    match imported with
    | .name n =>
      require usable
      let s ← setting
      faultIf (s.await && n == "await")
      return .node (.importNamed typeOnly) [imported, .binding n]
    | _ => fail

/-- The specifiers of an import after its default. -/
def importSpecifiers : Parse (List Tree) := do
  if ← eat "*" then
    expectWord "as"
    return [.node .importAll [← bindingName]]
  else
    expect "\x7b"
    let (ss, _) ← separated "\x7d" importSpecifier
    expect "\x7d"
    return ss

/-- Whether the current word stands before the specifiers of an import rather than naming one. -/
def opensImport (word : String) : Parse Bool := do
  if !(← atWord word) then return false
  else lookahead do
    advance
    if ← atAny ["\x7b", "*"] then return true
    else if !(← atIdentifier) then return false
    else if ← eatWord "from" then return (← atWord "from") || (← atPunct "=")
    else return true

/-- An import declaration. -/
def importDeclaration : Parse Tree := do
  advance
  match ← token with
  | .string .. =>
    let source ← quotedString
    let attrs ← importAttributes
    endStatement
    return .node (.import false none) [.absent, source, attrs]
  | _ =>
    let typeOnly ← typed <&&> opensImport "type"
    if typeOnly then advance
    let phase ← if ← opensImport "source" then pure (some "source")
      else if ← opensImport "defer" then pure (some "defer") else pure none
    if phase.isSome then advance
    let first ← if ← atIdentifier then some <$> bindingName else pure none
    match first with
    | some n =>
      if (← typed) && (← atPunct "=") then importEquals typeOnly n
      else
        let more ← if ← eat "," then importSpecifiers else pure []
        finish typeOnly phase (.node .importDefault [n] :: more)
    | none => finish typeOnly phase (← importSpecifiers)
where
  /-- The source of an import with specifiers. -/
  finish (typeOnly : Bool) (phase : Option String) (ss : List Tree) : Parse Tree := do
    expectWord "from"
    let source ← quotedString
    let attrs ← importAttributes
    endStatement
    return .node (.import typeOnly phase) [.group ss, source, attrs]

/-- One export specifier, with whether its local name could be a reference. -/
def exportSpecifier : Parse (Bool × Bool × Tree × Tree) := do
  let typeOnly ← specifierIsTyped
  if typeOnly then advance
  let usable ← atIdentifier
  let name ← moduleName
  let exported ← if ← eatWord "as" then moduleName else pure name
  return (typeOnly, usable, name, exported)

/-- The local name of an export as a reference. -/
def localReference : Tree → Tree
  | .name n => .reference n
  | t => t

/-- A list of exports, in braces. -/
def exportList (typeOnly : Bool) : Parse Tree := do
  expect "\x7b"
  let (ss, _) ← separated "\x7d" exportSpecifier
  expect "\x7d"
  if ← eatWord "from" then
    let source ← quotedString
    let attrs ← importAttributes
    endStatement
    let specs := ss.map fun (ty, _, l, e) => Tree.node (.exportSpecifier ty) [l, e]
    return .node (.exportNamed typeOnly) [.absent, .group specs, source, attrs]
  else
    faultIf !(ss.all fun (_, usable, _, _) => usable)
    endStatement
    let specs := ss.map fun (ty, _, l, e) => Tree.node (.exportSpecifier ty) [localReference l, e]
    return .node (.exportNamed typeOnly) [.absent, .group specs, .absent, .absent]

/-- An export of everything. -/
def exportAll (typeOnly : Bool) : Parse Tree := do
  expect "*"
  let name ← if ← eatWord "as" then moduleName else pure .absent
  expectWord "from"
  let source ← quotedString
  let attrs ← importAttributes
  endStatement
  return .node (.exportAll typeOnly) [name, source, attrs]

/-- Whether a statement declares a class or exports one, so that decorators may belong to it. -/
def declaresClass : Tree → Bool
  | .node (.class info) _ => !info.expression
  | .node (.exportNamed _) (d :: _) => declaresClass d
  | .node .exportDefault [d] => declaresClass d
  | _ => false

/-- A default export. -/
def exportDefault (ds : Tree) : Parse Tree := do
  expectWord "default"
  let ds ← if ← atPunct "@" then decorators else pure ds
  faultIf (!ds.parts.isEmpty && !(← atWords ["class", "abstract"]))
  if ← atWord "class" then return .node .exportDefault [← call (.class false ds {})]
  else if (← typed) && (← atWord "abstract") && (← nextIs (atWord "class")) then
    advance
    return .node .exportDefault [← call (.class false ds { abstract := true })]
  else if ← atWord "function" then
    return .node .exportDefault [← call (.function false false {} true)]
  else if ← atAsyncFunction then
    advance
    return .node .exportDefault [← call (.function false true {} true)]
  else if (← typed) && (← atWord "interface") &&
      (← nextIs (do return (← atIdentifier) && !(← onNewLine))) then
    return .node .exportDefault [← interfaceDeclaration false]
  else
    let e ← withIn (call (.assignment true))
    endStatement
    return .node .exportDefault [e]

/-- Wraps a declaration as an export. -/
def exported (d : Tree) : Tree := .node (.exportNamed false) [d, .group [], .absent, .absent]

/-- An export declaration; the decorators of a class may stand before or after the keyword. -/
def exportDeclaration (ds : Tree) : Parse Tree := do
  advance
  let inner ← decorators
  faultIf (!inner.parts.isEmpty && !(← atWords ["class", "abstract", "declare"]))
  let ds := if inner.parts.isEmpty then ds else inner
  if ← atPunct "*" then exportAll false
  else if ← atPunct "\x7b" then exportList false
  else if ← atWord "default" then exportDefault ds
  else if (← typed) && (← atPunct "=") then
    advance
    let e ← withIn (call .expression)
    endStatement
    return .node .exportAssignment [e]
  else if (← typed) && (← atWord "as") && (← nextIs (atWord "namespace")) then
    advance
    advance
    let n ← propertyWord
    endStatement
    return .node .namespaceExport [n]
  else if (← typed) && (← atWord "import") then
    advance
    let typeOnly ← opensImport "type"
    if typeOnly then advance
    let n ← bindingName
    return exported (← importEquals typeOnly n)
  else if (← typed) && (← atWord "type") && (← nextIs (atPunct "\x7b")) then
    advance
    exportList true
  else if (← typed) && (← atWord "type") && (← nextIs (atPunct "*")) then
    advance
    exportAll true
  else if (← typed) && (← atTypeDeclaration (← get).bound) then
    return exported (← typeDeclaration ds .list)
  else if ← atWord "class" then return exported (← classStatement .list ds {})
  else if ← atWord "function" then return exported (← functionStatement .list false {})
  else if ← atAsyncFunction then return exported (← functionStatement .list true {})
  else if ← atWord "var" then return exported (← variableStatement .var .list false)
  else if ← atWord "let" then return exported (← variableStatement .let .list false)
  else if ← atWord "const" then return exported (← variableStatement .const .list false)
  else fail

/-! ## Statements -/

/-- A statement that starts with a word. -/
def wordStatement (w : String) (place : Place) : Parse Tree := do
  match w with
  | "if" => ifStatement
  | "for" => forStatement
  | "while" => whileStatement
  | "do" => doStatement
  | "switch" => switchStatement
  | "try" => tryStatement
  | "with" => withStatement
  | "return" => returnStatement
  | "throw" => throwStatement
  | "break" => jump .break
  | "continue" => jump .continue
  | "debugger" =>
    advance
    endStatement
    return .node .debugger []
  | "var" => variableStatement .var place false
  | "function" => functionStatement place false {}
  | "class" => classStatement place (.group []) {}
  | "import" =>
    if ← nextIs (atAny ["(", "."]) then expressionOrLabelled
    else importDeclaration
  | "export" => exportDeclaration (.group [])
  | "let" => letStatement place
  | "const" =>
    if (← typed) && (← nextIs (atWord "enum")) then typeDeclaration (.group []) place
    else variableStatement .const place false
  | "async" =>
    if ← atAsyncFunction then functionStatement place true {} else expressionOrLabelled
  | "using" =>
    if ← nextIs (do return (← atIdentifier) && !(← onNewLine)) then
      variableStatement .using place false
    else expressionOrLabelled
  | "await" =>
    let declares ← lookahead do
      advance
      if (← onNewLine) || !(← eatWord "using") then return false
      else return (← atIdentifier) && !(← onNewLine)
    if declares then
      advance
      variableStatement .awaitUsing place false
    else expressionOrLabelled
  | _ =>
    if ← typed <&&> atTypeDeclaration (← get).bound then typeDeclaration (.group []) place
    else expressionOrLabelled

/-- A statement with decorators before it: a class, possibly exported. -/
def decoratedStatement (place : Place) : Parse Tree := do
  let ds ← decorators
  let s ← if ← atWord "export" then exportDeclaration ds
    else if ← typed <&&> atWords ["abstract", "declare"] then typeDeclaration ds place
    else do
      require (← atWord "class")
      classStatement place ds {}
  faultIf !(declaresClass s)
  return s

/-- The body of `Rule.statement`. -/
def statementBody (place : Place) : Parse Tree := do
  match ← token with
  | .punct "\x7b" => call .block
  | .punct ";" =>
    advance
    return .node .empty []
  | .punct "@" => decoratedStatement place
  | .word w false => wordStatement w place
  | _ => expressionOrLabelled

end Parse

end Abridge
