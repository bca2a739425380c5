import Abridge.Text.Classes

/-!
# Patterns

Regular patterns over characters, and where they match.  A profile asks one question of a pattern: does
it match anywhere in a text?  So matching is defined by the places where a match that starts at a given
place can end (`Pattern.ends`), without captures or priorities.

Letter case is folded for ASCII letters and the two other characters that fold to one of them; a letter of
another script has no other case here (`CharClass.cases`).

## What is here

* `CharClass`: a set of characters.
* `Pattern`: concatenation, choice, repetition and assertions over classes.
* `Pattern.ends`, `Pattern.isMatch`: the meaning of a pattern.
-/

set_option autoImplicit false

namespace Abridge

/-! ## Classes -/

/-- The classes that have a name. -/
inductive NamedClass where
  | word | digit | space | letter | capital | small | number
  /-- The same, restricted to ASCII. -/
  | asciiWord | asciiDigit | asciiSpace
  deriving DecidableEq, Repr, Inhabited

/-- Whether a character is in a named class. -/
def NamedClass.contains : NamedClass → Char → Bool
  | .word, c => Text.isWord c
  | .digit, c => Text.isDecimal c
  | .space, c => Text.isSpace c
  | .letter, c => Text.isLetter c
  | .capital, c => Text.isCapital c
  | .small, c => Text.isSmall c
  | .number, c => Text.isNumber c
  | .asciiWord, c => c.isAlphanum || c == '_'
  | .asciiDigit, c => c.isDigit
  | .asciiSpace, c => (9 ≤ c.toNat && c.toNat ≤ 13) || c == ' '

/-- A set of characters. -/
inductive CharClass where
  /-- The characters from the first to the last. -/
  | range (first last : Char)
  | named (which : NamedClass)
  | none
  | not (c : CharClass)
  | or (a b : CharClass)
  | and (a b : CharClass)
  /-- The characters of which some letter case is in the set. -/
  | anyCase (c : CharClass)
  deriving DecidableEq, Repr, Inhabited

namespace CharClass

/-- The set of one character. -/
def single (c : Char) : CharClass := .range c c

/-- A character in both letter cases, with the two letters outside ASCII whose simple case folding is
an ASCII letter. -/
def cases (c : Char) : List Char :=
  let folded := if c == '\u017f' then 's' else if c == '\u212a' then 'k' else c.toLower
  [c, folded, folded.toUpper] ++
    if folded == 's' then ['\u017f'] else if folded == 'k' then ['\u212a'] else []

/-- Whether a character is in the set. -/
def contains : CharClass → Char → Bool
  | .range a b, c => a ≤ c && c ≤ b
  | .named n, c => n.contains c
  | .none, _ => false
  | .not s, c => !s.contains c
  | .or s t, c => s.contains c || t.contains c
  | .and s t, c => s.contains c && t.contains c
  | .anyCase s, c => (cases c).any s.contains

/-- The union of sets. -/
def union (cs : List CharClass) : CharClass := cs.foldr .or .none

end CharClass

/-! ## Patterns -/

/-- Assertions about a place. -/
inductive Anchor where
  | textStart | textEnd | lineStart | lineEnd
  | wordBoundary | notWordBoundary | wordStart | wordEnd
  deriving DecidableEq, Repr, Inhabited

/-- A regular pattern. -/
inductive Pattern where
  | empty
  | one (c : CharClass)
  | anchor (a : Anchor)
  | then (a b : Pattern)
  | or (a b : Pattern)
  /-- Between `least` and `most` copies. -/
  | times (least : Nat) (most : Option Nat) (p : Pattern)
  deriving DecidableEq, Repr, Inhabited

/-- A place in a text: the character before it, the text after it and the length of that text. -/
structure Cursor where
  before : Option Char
  rest : List Char
  left : Nat
  deriving DecidableEq, Repr, Inhabited

/-- Whether an assertion holds at a place. -/
def Anchor.holds (a : Anchor) (c : Cursor) : Bool :=
  let wordBefore := (c.before.map Text.isWord).getD false
  let wordAfter := (c.rest.head?.map Text.isWord).getD false
  match a with
  | .textStart => c.before.isNone
  | .textEnd => c.rest.isEmpty
  | .lineStart => c.before.isNone || c.before == some '\n'
  | .lineEnd => c.rest.isEmpty || c.rest.head? == some '\n'
  | .wordBoundary => wordBefore != wordAfter
  | .notWordBoundary => wordBefore == wordAfter
  | .wordStart => !wordBefore && wordAfter
  | .wordEnd => wordBefore && !wordAfter

namespace Pattern

/-- Adds the places that are not yet there. -/
def merge (places : List Cursor) : List Cursor → List Cursor
  | [] => places
  | c :: cs =>
    if places.any (fun d => d.left == c.left) then merge places cs else merge (places ++ [c]) cs

/-- The places after `n` steps. -/
def after (step : Cursor → List Cursor) : Nat → List Cursor → List Cursor
  | 0, places => places
  | n + 1, places => if places.isEmpty then [] else after step n (merge [] (places.flatMap step))

/-- The places after at most `n` steps. -/
def within (step : Cursor → List Cursor) : Nat → List Cursor → List Cursor → List Cursor
  | 0, _, places => places
  | n + 1, fresh, places =>
    let next := (fresh.flatMap step).filter fun c => !places.any fun d => d.left == c.left
    if next.isEmpty then places
    else
      let next := merge [] next
      within step n next (places ++ next)

/-- The places where a match that starts at a place can end. -/
def ends : Pattern → Cursor → List Cursor
  | .empty, c => [c]
  | .one s, c =>
    match c.rest with
    | ch :: rest => if s.contains ch then [⟨some ch, rest, c.left - 1⟩] else []
    | [] => []
  | .anchor a, c => if a.holds c then [c] else []
  | .then p q, c => merge [] ((p.ends c).flatMap q.ends)
  | .or p q, c => merge (p.ends c) (q.ends c)
  | .times least most p, c =>
    let first := after p.ends least [c]
    match most with
    | some n => within p.ends (n - least) first first
    | none => within p.ends (c.left + 1) first first

/-- Whether a pattern matches from some place on. -/
def matchesFrom (p : Pattern) (before : Option Char) : Nat → List Char → Bool
  | left, [] => !(p.ends ⟨before, [], left⟩).isEmpty
  | left, c :: cs =>
    !(p.ends ⟨before, c :: cs, left⟩).isEmpty || p.matchesFrom (some c) (left - 1) cs

/-- Whether a pattern matches somewhere in a text. -/
def isMatch (p : Pattern) (text : String) : Bool :=
  let cs := text.toList
  p.matchesFrom none cs.length cs

end Pattern

end Abridge
