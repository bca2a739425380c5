import Abridge.Syntax.Layout.Out

/-!
# The layout of types

Types, their members and their declarations as compact text.
-/

set_option autoImplicit false

namespace Abridge

namespace Layout

/-- A type after a colon, or nothing. -/
def annotated (t : Tree) : Layout Unit := do
  if !t.isAbsent then
    emit ":"
    free t

/-- A part that may be missing. -/
def optional (t : Tree) : Layout Unit := if t.isAbsent then pure () else free t

/-- Text pieces and holes in backquotes. -/
def templateText : List String → List Tree → Layout Unit
  | piece :: pieces, hole :: holes => do
    emit (String.ofList (guardScript piece.toList))
    emit "$\x7b"
    free hole
    emit "\x7d"
    templateText pieces holes
  | pieces, _ => each (fun p => emit (String.ofList (guardScript p.toList))) pieces

/-- A template with its backquotes. -/
def template (pieces : List String) (holes : List Tree) : Layout Unit := do
  emit "`"
  templateText pieces holes
  emit "`"

/-- A `this` parameter and parameters, in parentheses. -/
def paramList (this params : Tree) : Layout Unit := do
  emit "("
  match this with
  | .node .thisParam [t] =>
    word "this"
    if !t.isAbsent then
      emit ": "
      free t
    if !params.parts.isEmpty then emit ","
  | _ => pure ()
  free params
  emit ")"

/-- A key of an object, class or type; strings among keys never take backquotes. -/
def keyText (k : Tree) : Layout Unit :=
  match k with
  | .string lit => emit (stringSpelling false lit)
  | .quoted lit => emit (stringSpelling false lit)
  | k => item k

/-- A key with its brackets when it is computed. -/
def bracketedKey (computed : Bool) (k : Tree) : Layout Unit := do
  if computed then emit "["
  keyText k
  if computed then emit "]"

/-- Whether a member of a union needs parentheses. -/
def needsTypeParens : Tree → Bool
  | .node .functionType _ => true
  | .node (.constructorType _) _ => true
  | .node .conditionalType _ => true
  | _ => false

/-- A member of a union or intersection. -/
def constituent (t : Tree) : Layout Unit := wrap (needsTypeParens t) (free t)

/-- The sign of an added or removed modifier. -/
def mappedSign : MappedModifier → String
  | .plus => "+"
  | .minus => "-"
  | _ => ""

/-- The layout of types. -/
def type (f : Form) (ps : List Tree) : Layout Unit := do
  match f, ps with
  | .keywordType w, _ => word w
  | .thisType, _ => word "this"
  | .numberType raw, _ => word raw
  | .typeRef, [n, args] | .heritage, [n, args] =>
    free n
    optional args
  | .qualified, [l, n] =>
    free l
    emit "."
    free n
  | .typeQuery, [n, args] =>
    word "typeof "
    free n
    optional args
  | .typeLiteral, ms =>
    emit "\x7b"
    each (fun m => do free m; emit ";") ms
    emit "\x7d"
  | .arrayType, [t] =>
    free t
    emit "[]"
  | .indexedType, [t, i] =>
    free t
    emit "["
    free i
    emit "]"
  | .tupleType, ts =>
    emit "["
    sepBy "," free ts
    emit "]"
  | .optionalType, [t] =>
    free t
    emit "?"
  | .nullableType _, [t] =>
    free t
    emit "?"
  | .restType, [t] =>
    emit "..."
    free t
  | .namedMember opt, [n, t] =>
    free n
    if opt then emit "?"
    emit ":"
    free t
  | .unionType, ts => sepBy "|" constituent ts
  | .intersectionType, ts => sepBy "&" constituent ts
  | .parenType, [t] =>
    emit "("
    free t
    emit ")"
  | .conditionalType, [c, e, y, n] =>
    free c
    emit " extends "
    free e
    emit " ? "
    free y
    emit " : "
    free n
  | .inferType, [p] =>
    word "infer "
    free p
  | .operatorType w, [t] =>
    word w
    emit " "
    free t
  | .mappedType readonly opt, [k, c, n, t] =>
    emit "\x7b"
    if readonly != .absent then
      emit (mappedSign readonly)
      emit "readonly "
    emit "["
    free k
    emit " in "
    free c
    if !n.isAbsent then
      emit " as "
      free n
    emit "]"
    if opt != .absent then
      emit (mappedSign opt)
      emit "?"
    annotated t
    emit "\x7d"
  | .literalType, [t] =>
    match t with
    | .quoted lit => emit (stringSpelling true lit)
    | t => item t
  | .templateType pieces, holes => template pieces holes
  | .functionType, [tps, this, params, ret] =>
    optional tps
    paramList this params
    emit "=>"
    free ret
  | .constructorType abstract, [tps, params, ret] =>
    if abstract then word "abstract "
    word "new "
    optional tps
    paramList .absent params
    emit "=>"
    free ret
  | .importType, [source, options, qualifier, args] =>
    word "import("
    keyText source
    if !options.isAbsent then
      emit ","
      item options
    emit ")"
    if !qualifier.isAbsent then
      emit "."
      free qualifier
    optional args
  | .predicate asserts, [n, t] =>
    if asserts then word "asserts "
    free n
    if !t.isAbsent then
      emit " is "
      free t
  | .typeParams, ts =>
    emit "<"
    sepBy "," free ts
    if (← get).markup && ts.length == 1 then emit ","
    emit ">"
  | .typeParam ms, [n, c, d] =>
    each (fun m => do word m; emit " ") ms
    free n
    if !c.isAbsent then
      emit " extends "
      free c
    if !d.isAbsent then
      emit "="
      free d
  | .typeArgs, ts =>
    emit "<"
    sepBy "," free ts
    emit ">"
  | .propertySignature computed opt readonly, [k, t] =>
    if readonly then word "readonly "
    bracketedKey computed k
    if opt then emit "?"
    annotated t
  | .methodSignature kind computed opt, [k, tps, this, params, ret] =>
    match kind with
    | .get => word "get "
    | .set => word "set "
    | .value => pure ()
    bracketedKey computed k
    if opt then emit "?"
    optional tps
    paramList this params
    annotated ret
  | .callSignature, [tps, this, params, ret] =>
    optional tps
    paramList this params
    annotated ret
  | .constructSignature, [tps, params, ret] =>
    word "new "
    optional tps
    paramList .absent params
    annotated ret
  | .indexSignature static readonly names, ts =>
    if static then word "static "
    if readonly then word "readonly "
    emit "["
    sepBy "," (fun (n, t) => do emit n; emit ":"; free t) (names.zip ts)
    emit "]"
    each annotated (ts.drop names.length)
  | _, _ => pure ()

/-- The layout of type declarations. -/
def typeDeclaration (f : Form) (ps : List Tree) : Layout Unit := do
  match f, ps with
  | .typeAlias ambient, [n, tps, t] =>
    if ambient then word "declare "
    word "type "
    free n
    optional tps
    emit "="
    free t
    owe
  | .interface _, [n, tps, .node .group bases, .node .group ms] =>
    word "interface "
    free n
    optional tps
    if !bases.isEmpty then
      emit " extends "
      sepBy "," free bases
    emit "\x7b"
    each (fun m => do free m; emit ";") ms
    emit "\x7d"
  | .enum const ambient, [n, .node .group ms] =>
    if ambient then word "declare "
    if const then word "const "
    word "enum "
    free n
    emit " \x7b"
    sepBy "," free ms
    emit "\x7d"
  | .enumMember computed, [k, v] =>
    bracketedKey computed k
    if !v.isAbsent then
      emit "="
      free v
  | .global ambient, [b] =>
    if ambient then word "declare "
    word "global"
    free b
  | .importEquals typeOnly, [n, r] =>
    word "import "
    if typeOnly then emit "type "
    free n
    emit "="
    free r
    owe
  | .externalModule, [s] =>
    word "require("
    keyText s
    emit ")"
  | .exportAssignment, [e] =>
    word "export = "
    free e
    owe
  | .namespaceExport, [n] =>
    word "export as namespace "
    free n
    owe
  | _, _ => pure ()

/-- The dotted names after the first of a namespace, and the body of the innermost. -/
def namespaceChain : Tree → List Tree × Tree
  | .node (.namespace _ _) [n, body] =>
    let (ns, b) := namespaceChain body
    (n :: ns, b)
  | t => ([], t)

/-- A namespace or a module given by a string. -/
def namespaceDeclaration (keyword : String) (ambient : Bool) (n body : Tree) : Layout Unit := do
  if ambient then word "declare "
  word keyword
  emit " "
  keyText n
  let (ns, b) := namespaceChain body
  each (fun n => do emit "."; free n) ns
  if b.isAbsent then owe else free b

end Layout

end Abridge
