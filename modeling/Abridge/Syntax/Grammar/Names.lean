import Abridge.Syntax.Reader

/-!
# Names and keys

Which words can name a variable, how property keys are written, and the modifiers that may stand
before a member, a parameter or a declaration.

A modifier is a word like any other, so it counts as one only when what follows it could be the thing
it modifies: `static` followed by a name is a modifier, `static` followed by `=` is the name of a
field.
-/

set_option autoImplicit false

namespace Abridge

/-- Modifiers that only a typed dialect has. -/
def Modifiers.isTyped (m : Modifiers) : Bool :=
  m.access.isSome || m.ambient || m.abstract || m.override || m.readonly || m.const ||
    m.export || !m.variance.isEmpty

namespace Parse

/-- Words that never name a variable. -/
def reservedWords : List String :=
  ["break", "case", "catch", "class", "const", "continue", "debugger", "default", "delete", "do",
   "else", "enum", "export", "extends", "false", "finally", "for", "function", "if", "import", "in",
   "instanceof", "new", "null", "return", "super", "switch", "this", "throw", "true", "try",
   "typeof", "var", "void", "while", "with"]

/-- Whether the current token can name a variable. -/
def atIdentifier : Parse Bool := do
  match ← token with
  | .word w _ => return !reservedWords.contains w
  | _ => return false

/-- Whether the current token is a word of any kind. -/
def atAnyWord : Parse Bool := do
  match ← token with
  | .word .. => return true
  | _ => return false

/-- A word of any kind, as a property may be named. -/
def anyWord : Parse String := do
  match ← token with
  | .word w _ => advance; return w
  | _ => fail

/-- The name of a variable.  Where `await` or `yield` is an operator it is no name. -/
def identifier : Parse String := do
  match ← token with
  | .word w _ =>
    require (!reservedWords.contains w)
    let s ← setting
    faultIf ((s.await && w == "await") || (s.yield && w == "yield"))
    advance
    return w
  | _ => fail

/-- A name introduced here. -/
def bindingName : Parse Tree := do return .binding (← identifier)

/-- A name that refers to a binding. -/
def referenceName : Parse Tree := do return .reference (← identifier)

/-- A property or member name. -/
def propertyWord : Parse Tree := do return .name (← anyWord)

/-- A string that names a module or a part of its interface. -/
def quotedString : Parse Tree := do
  match ← token with
  | .string lit _ => advance; return .quoted lit
  | _ => fail

/-- A name of the module interface: a word or a string. -/
def moduleName : Parse Tree := do
  match ← token with
  | .string lit _ =>
    faultIf lit.surrogates
    advance
    return .quoted lit
  | _ => propertyWord

/-- Whether a property key can start at the current token. -/
def atKey : Parse Bool := do
  match ← token with
  | .word .. | .string .. | .number .. | .bigint .. => return true
  | .punct "[" => return true
  | _ => return false

/-- The body of `Rule.propertyName`: a computed key is a group of one part. -/
def propertyNameBody : Parse Tree := do
  let start ← position
  match ← token with
  | .string lit _ => advance; return .string lit
  | .number value raw => advance; return .number ⟨value, raw, start⟩
  | .bigint digits => advance; return .node (.bigint digits) []
  | .punct "[" =>
    advance
    let e ← withIn (call (.assignment true))
    expect "]"
    return .group [e]
  | _ => propertyWord

/-- A property key, and whether it is computed. -/
def key : Parse (Tree × Bool) := do
  match ← call .propertyName with
  | .node .group [e] => return (e, true)
  | k => return (k, false)

/-- A property key that may be private, and whether it is computed. -/
def memberKey : Parse (Tree × Bool) := do
  match ← token with
  | .privateName n => advance; return (.privateName n, false)
  | _ => key

/-! ## Modifiers -/

/-- Whether the current token can follow a modifier of a member. -/
def atModified : Parse Bool := do
  match ← token with
  | .privateName _ => return true
  | .punct p => return ["[", "\x7b", "*", "..."].contains p
  | _ => atKey

/-- Whether a modifier repeats one of those before it, or should stand before one of them. -/
def isMisplaced (m : Modifiers) (w : String) : Bool :=
  match w with
  | "public" | "private" | "protected" =>
    m.access.isSome || m.override || m.static || m.accessor || m.readonly || m.async
  | "static" => m.static || m.readonly || m.async || m.accessor || m.override
  | "override" => m.override || m.readonly || m.accessor || m.async
  | "declare" => m.ambient
  | "abstract" => m.abstract
  | "readonly" => m.readonly
  | "async" => m.async
  | "const" => m.const
  | "accessor" => m.accessor
  | "export" => m.«export»
  | "in" => !m.variance.isEmpty
  | w => m.variance.contains w

/-- Records a modifier, marking a text where it is misplaced. -/
def addModifier (m : Modifiers) (w : String) : Parse Modifiers := do
  faultIf (isMisplaced m w)
  match w with
  | "public" => return { m with access := some .public }
  | "private" => return { m with access := some .private }
  | "protected" => return { m with access := some .protected }
  | "static" => return { m with static := true }
  | "declare" => return { m with ambient := true }
  | "abstract" => return { m with abstract := true }
  | "override" => return { m with override := true }
  | "readonly" => return { m with readonly := true }
  | "async" => return { m with async := true }
  | "const" => return { m with const := true }
  | "accessor" => return { m with accessor := true }
  | "export" => return { m with «export» := true }
  | w => return { m with variance := m.variance ++ [w] }

/-- Whether the current word is a modifier of what follows. -/
def atModifier (words : List String) (seen : Modifiers) : Parse Bool := do
  match ← token with
  | .word w false =>
    if !words.contains w then return false
    else if w == "static" then
      if seen.static then return false
      else lookahead do
        advance
        if ← atPunct "\x7b" then return false else atModified
    else lookahead do
      advance
      return !(← onNewLine) && (← atModified)
  | _ => return false

/-- The modifiers at the current token, among the given words. -/
def modifiers (words : List String) : Parse Modifiers :=
  iterate {} fun seen => do
    if ← atModifier words seen then
      return .inl (← addModifier seen (← anyWord))
    else return .inr seen

/-! ## Decorators -/

/-- The decorators at the current token, as a group. -/
def decorators : Parse Tree := do
  let ds ← many (atPunct "@") do
    advance
    within (fun s => { s with decorator := true }) (call .leftHandSide)
  return .group ds

end Parse

end Abridge
