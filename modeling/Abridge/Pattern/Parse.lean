import Abridge.Pattern.Basic
import Abridge.Text.Hex

/-!
# Reading patterns

The written form of patterns.  Flags in a group change how the rest of the group is read: letter case
(`i`), lines (`m`), whether a point matches a line feed (`s`), blanks in the pattern (`x`) and whether
named classes reach beyond ASCII (`u`).  Look-around and references to groups are not part of the
form, and neither is a repetition of nothing.

Of the Unicode properties those that `property?` lists can be named: letters, capitals and small letters,
numbers and decimal digits, white space, ASCII and everything.  The other general categories, scripts and
ages are left out, and a pattern that names one of them is refused like a pattern with a mistake.
-/

set_option autoImplicit false

namespace Abridge

namespace Pattern

/-- How the rest of a group is read. -/
structure Flags where
  anyCase : Bool := false
  lines : Bool := false
  pointAll : Bool := false
  blanks : Bool := false
  unicode : Bool := true
  deriving DecidableEq, Repr, Inhabited

/-- A character class under the flags. -/
def Flags.apply (flags : Flags) (c : CharClass) : CharClass :=
  if flags.anyCase then .anyCase c else c

/-- One character under the flags. -/
def Flags.literal (flags : Flags) (c : Char) : Pattern := .one (flags.apply (.single c))

/-! ## Escapes -/

/-- The number that hexadecimal digits stand for. -/
def hexNumber? (cs : List Char) : Option Nat :=
  if cs.isEmpty || cs.length > 8 then none
  else cs.foldl (fun n? c => n?.bind fun n => (Text.hexValue? c).map (16 * n + ·)) (some 0)

/-- The character with a number. -/
def charOf? (n : Nat) : Option Char := if n.isValidChar then some (Char.ofNat n) else none

/-- The character of a hexadecimal escape with `width` digits, or with any number of them in braces. -/
def hexEscape (width : Nat) : List Char → Option (Char × List Char)
  | '\x7b' :: rest =>
    let digits := rest.takeWhile (· != '\x7d')
    match rest.drop digits.length with
    | '\x7d' :: rest => (hexNumber? digits >>= charOf?).map fun c => (c, rest)
    | _ => none
  | cs =>
    if cs.length < width then none
    else (hexNumber? (cs.take width) >>= charOf?).map fun c => (c, cs.drop width)

/-- The named class of a letter. -/
def letterClass? (unicode : Bool) : Char → Option CharClass
  | 'd' => some (.named (if unicode then .digit else .asciiDigit))
  | 'w' => some (.named (if unicode then .word else .asciiWord))
  | 's' => some (.named (if unicode then .space else .asciiSpace))
  | 'D' => some (.not (.named (if unicode then .digit else .asciiDigit)))
  | 'W' => some (.not (.named (if unicode then .word else .asciiWord)))
  | 'S' => some (.not (.named (if unicode then .space else .asciiSpace)))
  | _ => none

/-- The class of a Unicode property; names are compared without case, blanks, hyphens and
underscores. -/
def property? (name : List Char) : Option CharClass :=
  let plain := name.filter fun c => c != ' ' && c != '_' && c != '-'
  match String.ofList (plain.map Char.toLower) with
  | "l" | "letter" => some (.named .letter)
  | "lu" | "uppercaseletter" => some (.named .capital)
  | "ll" | "lowercaseletter" => some (.named .small)
  | "n" | "number" => some (.named .number)
  | "nd" | "decimalnumber" | "digit" => some (.named .digit)
  | "whitespace" | "wspace" | "space" => some (.named .space)
  | "any" => some (.not .none)
  | "ascii" => some (.range '\x00' '\x7f')
  | _ => none

/-- The class of a property escape, after its letter. -/
def propertyEscape (negated : Bool) : List Char → Option (CharClass × List Char)
  | '\x7b' :: rest =>
    let name := rest.takeWhile (· != '\x7d')
    match rest.drop name.length with
    | '\x7d' :: rest =>
      let (flipped, name) := match name with
        | '^' :: name => (true, name)
        | name => (false, name)
      (property? name).map fun c => (if negated != flipped then .not c else c, rest)
    | _ => none
  | c :: rest => (property? [c]).map fun s => (if negated then .not s else s, rest)
  | [] => none

/-- The character that an escape of one letter stands for. -/
def letterEscape? : Char → Option Char
  | 'a' => some '\x07'
  | 'f' => some '\x0c'
  | 't' => some '\t'
  | 'n' => some '\n'
  | 'r' => some '\r'
  | 'v' => some '\x0b'
  | _ => none

/-- Whether a character may stand for itself after a backslash. -/
def isEscapable (c : Char) : Bool :=
  c.toNat < 0x80 && !c.isAlphanum && c != '<' && c != '>'

/-- What an escape stands for: a character or a class. -/
inductive Escape where
  | char (c : Char)
  | class (c : CharClass)

/-- An escape that is legal both in and outside brackets, after its backslash. -/
def readEscape (unicode : Bool) : List Char → Option (Escape × List Char)
  | [] => none
  | 'x' :: rest => (hexEscape 2 rest).map fun (c, rest) => (.char c, rest)
  | 'u' :: rest => (hexEscape 4 rest).map fun (c, rest) => (.char c, rest)
  | 'U' :: rest => (hexEscape 8 rest).map fun (c, rest) => (.char c, rest)
  | 'p' :: rest => (propertyEscape false rest).map fun (c, rest) => (.class c, rest)
  | 'P' :: rest => (propertyEscape true rest).map fun (c, rest) => (.class c, rest)
  | c :: rest =>
    match letterClass? unicode c, letterEscape? c with
    | some s, _ => some (.class s, rest)
    | none, some d => some (.char d, rest)
    | none, none => if isEscapable c then some (.char c, rest) else none

/-- The assertion of an escape letter. -/
def anchorEscape? : Char → Option Anchor
  | 'A' => some .textStart
  | 'z' => some .textEnd
  | 'b' => some .wordBoundary
  | 'B' => some .notWordBoundary
  | '<' => some .wordStart
  | '>' => some .wordEnd
  | _ => none

/-! ## Brackets -/

/-- The classes that are named between colons. -/
def colonClass? (name : List Char) : Option CharClass :=
  let r (a b : Char) : CharClass := .range a b
  match String.ofList name with
  | "alnum" => some (.or (r '0' '9') (.or (r 'A' 'Z') (r 'a' 'z')))
  | "alpha" => some (.or (r 'A' 'Z') (r 'a' 'z'))
  | "ascii" => some (r '\x00' '\x7f')
  | "blank" => some (.or (.single '\t') (.single ' '))
  | "cntrl" => some (.or (r '\x00' '\x1f') (.single '\x7f'))
  | "digit" => some (r '0' '9')
  | "graph" => some (r '!' '~')
  | "lower" => some (r 'a' 'z')
  | "print" => some (r ' ' '~')
  | "punct" => some (.or (r '!' '/') (.or (r ':' '@') (.or (r '[' '\x60') (r '\x7b' '~'))))
  | "space" => some (.named .asciiSpace)
  | "upper" => some (r 'A' 'Z')
  | "word" => some (.named .asciiWord)
  | "xdigit" => some (.or (r '0' '9') (.or (r 'A' 'F') (r 'a' 'f')))
  | _ => none

/-- A class named between colons at the head of a text, after its opening bracket. -/
def readColonClass : List Char → Option (CharClass × List Char)
  | ':' :: rest =>
    let (negated, rest) := match rest with
      | '^' :: rest => (true, rest)
      | rest => (false, rest)
    let name := rest.takeWhile fun c => c.isAlpha
    match rest.drop name.length with
    | ':' :: ']' :: rest => (colonClass? name).map fun c => (if negated then .not c else c, rest)
    | _ => none
  | _ => none

/-- One member of brackets: a character, or a class that no range can start from. -/
def readMember (flags : Flags) : List Char → Option (Escape × List Char)
  | [] => none
  | '\\' :: rest => readEscape flags.unicode rest
  | c :: rest => some (.char c, rest)

/-- A member, extended to a range when a hyphen and another member follow. -/
def readRange (flags : Flags) (cs : List Char) : Option (CharClass × List Char) :=
  match readMember flags cs with
  | none => none
  | some (first, rest) =>
    let alone := match first with
      | .char c => flags.apply (.single c)
      | .class s => s
    match rest with
    | '-' :: next =>
      match next with
      | ']' :: _ => some (alone, rest)
      | '-' :: _ => some (alone, rest)
      | _ =>
        match first, readMember flags next with
        | .char a, some (.char b, rest) =>
          if a ≤ b then some (flags.apply (.range a b), rest) else none
        | _, _ => none
    | _ => some (alone, rest)

/-- How two classes are joined inside brackets. -/
inductive Joint where
  | and | minus | xor

/-- Joins two classes. -/
def Joint.join (a b : CharClass) : Joint → CharClass
  | .and => .and a b
  | .minus => .and a (.not b)
  | .xor => .or (.and a (.not b)) (.and b (.not a))

/-- Closes the operand that has been read so far. -/
def closeOperand (left : Option (CharClass × Joint)) (members : List CharClass) : CharClass :=
  let right := CharClass.union members.reverse
  match left with
  | none => right
  | some (a, j) => j.join a right

/-- The members of brackets up to the closing one.  `left` is the operand before the last joint. -/
def readMembers : Nat → Flags → Option (CharClass × Joint) → List CharClass → List Char →
    Option (CharClass × List Char)
  | 0, _, _, _, _ => none
  | fuel + 1, flags, left, members, cs =>
    match cs with
    | [] => none
    | ']' :: rest => some (closeOperand left members, rest)
    | '&' :: '&' :: rest => readMembers fuel flags (some (closeOperand left members, .and)) [] rest
    | '-' :: '-' :: rest => readMembers fuel flags (some (closeOperand left members, .minus)) [] rest
    | '~' :: '~' :: rest => readMembers fuel flags (some (closeOperand left members, .xor)) [] rest
    | '[' :: rest =>
      match readColonClass rest with
      | some (c, rest) => readMembers fuel flags left (flags.apply c :: members) rest
      | none =>
        match openBrackets fuel flags rest with
        | some (c, rest) => readMembers fuel flags left (c :: members) rest
        | none => none
    | c :: rest =>
      if flags.blanks && c.isWhitespace then readMembers fuel flags left members rest
      else
        match readRange flags cs with
        | some (s, rest) => readMembers fuel flags left (s :: members) rest
        | none => none
where
  /-- Brackets after the opening one: a circumflex negates, and a closing bracket or hyphens that come
  first stand for themselves. -/
  openBrackets (fuel : Nat) (flags : Flags) (cs : List Char) : Option (CharClass × List Char) :=
    match fuel with
    | 0 => none
    | fuel + 1 =>
      let (negated, cs) := match cs with
        | '^' :: rest => (true, rest)
        | cs => (false, cs)
      let hyphens := cs.takeWhile (· == '-')
      let rest := cs.drop hyphens.length
      let members := hyphens.map fun c => CharClass.single c
      let (members, rest) := match hyphens, rest with
        | [], ']' :: rest => ([CharClass.single ']'], rest)
        | _, rest => (members, rest)
      (readMembers fuel flags none members rest).map fun (c, rest) =>
        (if negated then .not c else c, rest)

/-! ## Repetitions -/

/-- The decimal number at the head of a text; blanks around it are skipped. -/
def readCount (cs : List Char) : Option (Nat × List Char) :=
  let cs := cs.dropWhile Char.isWhitespace
  let digits := cs.takeWhile Char.isDigit
  let rest := (cs.drop digits.length).dropWhile Char.isWhitespace
  if digits.isEmpty then none
  else
    let n := digits.foldl (fun n c => 10 * n + (c.toNat - 48)) 0
    if n < Nat.pow 2 32 then some (n, rest) else none

/-- The bounds of a counted repetition, after its opening brace. -/
def readBounds (cs : List Char) : Option (Nat × Option Nat × List Char) := do
  let (least, rest) ← readCount cs
  match rest with
  | '\x7d' :: rest => some (least, some least, rest)
  | ',' :: rest =>
    match rest.dropWhile Char.isWhitespace with
    | '\x7d' :: rest => some (least, none, rest)
    | rest =>
      let (most, rest) ← readCount rest
      match rest with
      | '\x7d' :: rest => if least ≤ most then some (least, some most, rest) else none
      | _ => none
  | _ => none

/-- The text after a mark that makes a repetition lazy; where a match ends does not depend on it. -/
def skipLazy : List Char → List Char
  | '?' :: rest => rest
  | rest => rest

/-! ## Groups -/

/-- Changes one flag. -/
def Flags.set (flags : Flags) (value : Bool) : Char → Option Flags
  | 'i' => some { flags with anyCase := value }
  | 'm' => some { flags with lines := value }
  | 's' => some { flags with pointAll := value }
  | 'x' => some { flags with blanks := value }
  | 'u' => some { flags with unicode := value }
  | 'U' => some flags
  | 'R' => some flags
  | _ => none

/-- Flags up to a colon or a closing parenthesis, which is left in place.  No flag may be repeated, and
a minus sign must be followed by one. -/
def readFlags (flags : Flags) (seen : List Char) (value : Bool) :
    List Char → Option (Flags × List Char)
  | [] => none
  | ':' :: rest => if seen.head? == some '-' then none else some (flags, ':' :: rest)
  | ')' :: rest => if seen.head? == some '-' || seen.isEmpty then none else some (flags, ')' :: rest)
  | '-' :: rest => if value then readFlags flags ('-' :: seen) false rest else none
  | c :: rest =>
    if seen.contains c then none
    else
      match flags.set value c with
      | some flags => readFlags flags (c :: seen) value rest
      | none => none

/-- Whether a text can name a group. -/
def isGroupName (name : List Char) : Bool :=
  match name with
  | [] => false
  | c :: cs =>
    (c == '_' || Text.isLetter c) &&
      cs.all fun c => c == '_' || c == '.' || c == '[' || c == ']' || Text.isLetter c || Text.isNumber c

/-- The name of a group up to its closing angle bracket. -/
def readGroupName (names : List String) (cs : List Char) : Option (String × List Char) :=
  let name := cs.takeWhile (· != '>')
  match cs.drop name.length with
  | '>' :: rest =>
    let text := String.ofList name
    if isGroupName name && !names.contains text then some (text, rest) else none
  | _ => none

/-! ## The whole -/

/-- A piece of a branch; a change of flags is one that cannot be repeated. -/
structure Piece where
  pattern : Pattern
  repeatable : Bool := true

/-- The pattern of a branch whose pieces were read last first. -/
def branch (pieces : List Piece) : Pattern :=
  match pieces.map Piece.pattern with
  | [] => .empty
  | p :: ps => ps.foldl (fun acc q => .then q acc) p

/-- The choice between branches that were read last first. -/
def choice (current : Pattern) (earlier : List Pattern) : Pattern :=
  earlier.foldl (fun acc p => .or p acc) current

/-- Where a group or the whole pattern ends: what was read, the names of groups so far, the rest. -/
abbrev Reading := Option (Pattern × List String × List Char)

/-- Reads up to a closing parenthesis, which is left in place, or to the end.  `earlier` holds the
branches before the current one and `pieces` the pieces of the current one, both last first. -/
def readBranches : Nat → Flags → List String → List Pattern → List Piece → List Char → Reading
  | 0, _, _, _, _, _ => none
  | fuel + 1, flags, names, earlier, pieces, cs =>
    let push (p : Pattern) (rest : List Char) : Reading :=
      readBranches fuel flags names earlier (⟨p, true⟩ :: pieces) rest
    let again (least : Nat) (most : Option Nat) (rest : List Char) : Reading :=
      match pieces with
      | piece :: pieces =>
        if piece.repeatable then
          readBranches fuel flags names earlier (⟨.times least most piece.pattern, true⟩ :: pieces)
            (skipLazy rest)
        else none
      | [] => none
    let group (flags' : Flags) (names : List String) (rest : List Char) : Reading :=
      match readBranches fuel flags' names [] [] rest with
      | some (p, names, ')' :: rest) => readBranches fuel flags names earlier (⟨p, true⟩ :: pieces) rest
      | _ => none
    match cs with
    | [] => some (choice (branch pieces) earlier, names, [])
    | ')' :: _ => some (choice (branch pieces) earlier, names, cs)
    | '|' :: rest => readBranches fuel flags names (branch pieces :: earlier) [] rest
    | '*' :: rest => again 0 none rest
    | '+' :: rest => again 1 none rest
    | '?' :: rest => again 0 (some 1) rest
    | '\x7b' :: rest =>
      match readBounds rest with
      | some (least, most, rest) => again least most rest
      | none => none
    | '(' :: '?' :: 'P' :: '<' :: rest =>
      match readGroupName names rest with
      | some (name, rest) => group flags (name :: names) rest
      | none => none
    | '(' :: '?' :: '<' :: rest =>
      match readGroupName names rest with
      | some (name, rest) => group flags (name :: names) rest
      | none => none
    | '(' :: '?' :: rest =>
      match readFlags flags [] true rest with
      | some (flags', ':' :: rest) => group flags' names rest
      | some (flags', ')' :: rest) =>
        readBranches fuel flags' names earlier (⟨.empty, false⟩ :: pieces) rest
      | _ => none
    | '(' :: rest => group flags names rest
    | '[' :: rest =>
      match readMembers.openBrackets fuel flags rest with
      | some (c, rest) => push (.one c) rest
      | none => none
    | '\\' :: c :: rest =>
      match anchorEscape? c with
      | some a => push (.anchor a) rest
      | none =>
        match readEscape flags.unicode (c :: rest) with
        | some (.char c, rest) => push (flags.literal c) rest
        | some (.class s, rest) => push (.one s) rest
        | none => none
    | '\\' :: [] => none
    | '.' :: rest => push (.one (if flags.pointAll then .not .none else .not (.single '\n'))) rest
    | '^' :: rest => push (.anchor (if flags.lines then .lineStart else .textStart)) rest
    | '$' :: rest => push (.anchor (if flags.lines then .lineEnd else .textEnd)) rest
    | '#' :: rest =>
      if flags.blanks then
        readBranches fuel flags names earlier pieces (rest.dropWhile (· != '\n'))
      else push (flags.literal '#') rest
    | c :: rest =>
      if flags.blanks && c.isWhitespace then readBranches fuel flags names earlier pieces rest
      else push (flags.literal c) rest

/-- The pattern that a text spells. -/
def parse? (text : String) : Option Pattern :=
  let cs := text.toList
  match readBranches (2 * cs.length + 2) {} [] [] [] cs with
  | some (p, _, []) => some p
  | _ => none

end Pattern

end Abridge
