import Abridge.Manifest.Basic

/-!
# Glossaries

A glossary undoes a run in any text: in shortened code, in the message of an error, in a stack trace.
It replaces whole words and nothing else.  A word is a maximal run of ASCII letters, digits, `_` and
`$` that does not start with a digit, so that `v12` is never read as `v1` and a `2`.

## What is here

* `Glossary`, from a manifest or from pairs.
* `Glossary.expand`: the text with every known word replaced.
* `Glossary.explain`: an error with its words replaced and advice on what it may mean.
-/

set_option autoImplicit false

namespace Abridge

/-- Words and what they stand for. -/
structure Glossary where
  table : Table String String := []
  deriving Repr, Inhabited

namespace Glossary

/-- The glossary of pairs; of several with one word the last counts. -/
def ofPairs (pairs : List (String × String)) : Glossary := ⟨Table.ofEntries pairs⟩

/-- The glossary of a manifest: names stand for themselves, literals for their source texts. -/
def ofManifest (m : Manifest) : Glossary :=
  ofPairs <|
    m.categories.flatMap (fun (_, table) => table) ++
    m.strings.map (fun (key, s) => (key, Json.quote s)) ++
    m.numbers.map fun (key, n) => (key, n.text)

/-- What a word stands for. -/
def lookup (g : Glossary) (word : String) : Option String := g.table.get? word

/-! ## Words -/

/-- The characters that a word may start with. -/
def isWordStart (c : Char) : Bool := c.isAlpha || c == '_' || c == '$'

/-- The characters that a word may go on with. -/
def isWordPart (c : Char) : Bool := c.isAlphanum || c == '_' || c == '$'

/-- Splits a text into words and single characters between them, in order. -/
def pieces : List Char → List (String ⊕ Char)
  | [] => []
  | c :: cs =>
    if isWordStart c then
      .inl (String.ofList (c :: cs.takeWhile isWordPart)) :: pieces (cs.dropWhile isWordPart)
    else .inr c :: pieces cs
  termination_by cs => cs.length
  decreasing_by
    · have := (List.dropWhile_sublist (l := cs) isWordPart).length_le
      simp only [List.length_cons]
      omega
    · simp

/-- What stands for a piece. -/
def expandPiece (g : Glossary) : String ⊕ Char → String
  | .inl word => (g.lookup word).getD word
  | .inr c => String.singleton c

/-- The text with every word replaced that the glossary knows. -/
def expand (g : Glossary) (text : String) : String :=
  String.join ((pieces text.toList).map g.expandPiece)

/-! ## Advice -/

/-- Phrases of error messages and what to do about them. -/
structure Advice where
  phrases : List String
  text : String
  deriving Repr, Inhabited

/-- The advice that is known, in the order in which it is given. -/
def advices : List Advice :=
  [⟨["is not a function"],
    "A function is missing or incorrectly defined: check that it is declared, imported, and " ++
      "spelled correctly before it is called."⟩,
   ⟨["is not defined"],
    "A name is referenced outside its scope or before it is declared: check imports and " ++
      "declarations."⟩,
   ⟨["Cannot read property of undefined", "Cannot read property of null",
     "Cannot read properties of undefined", "Cannot read properties of null", "is undefined",
     "is null"],
    "A value was null or undefined when one of its members was accessed: guard the access or " ++
      "check where the value comes from."⟩,
   ⟨["is not a constructor"],
    "The value used with `new` is not a class or constructor function: check the import and " ++
      "export shape."⟩,
   ⟨["ENOENT", "No such file or directory", "no such file or directory", "Cannot find module",
     "Module not found"],
    "A file or module could not be found: check the path and that the dependency is installed."⟩,
   ⟨["Invalid hook call", "Rendered more hooks", "Rendered fewer hooks",
     "Hooks can only be called"],
    "A framework hook was called incorrectly: hooks must run at the top level of a component or " ++
      "custom hook, in the same order on every render."⟩,
   ⟨["Maximum call stack size exceeded", "too much recursion"],
    "Unbounded recursion: look for a function or effect that calls itself without a base case."⟩]

/-- Whether a phrase stands somewhere in a text. -/
def occursIn (phrase : List Char) : List Char → Bool
  | [] => phrase.isEmpty
  | c :: cs => phrase.isPrefixOf (c :: cs) || occursIn phrase cs

/-- Whether the advice fits a text. -/
def Advice.fits (a : Advice) (text : String) : Bool :=
  a.phrases.any fun phrase => occursIn phrase.toList text.toList

/-- An error in its unabridged words. -/
structure Explanation where
  message : String
  stack : Option String
  suggestions : List String
  deriving DecidableEq, Repr, Inhabited

/-- The advice for texts, each piece of it once, in the order of the texts. -/
def suggestions (texts : List String) : List String :=
  (texts.flatMap fun text => (advices.filter fun a => a.fits text).map Advice.text).eraseDups

/-- The error with its words replaced, and the advice that fits it. -/
def explain (g : Glossary) (message : String) (stack : Option String) : Explanation :=
  let message := g.expand message
  let stack := stack.map g.expand
  { message, stack, suggestions := suggestions (message :: stack.toList) }

end Glossary

end Abridge
