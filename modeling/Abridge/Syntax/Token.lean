import Abridge.Number.Double
import Abridge.Syntax.Tree
import Abridge.Text.Hex
import Abridge.Text.Identifier

/-!
# Tokens

The next token of a source text depends on what the grammar expects: a slash may open a regular
expression, a closing brace may resume a template, and text between tags follows rules of its own.
So tokens are read on demand, one at a time, from the characters that are left, and the same
characters can be read again in another mode.

## What is here

* `Source`: the characters that are left, with the byte offset at which they stand.
* `Token` and its reader `Source.next`: blanks and comments are skipped, and the reader reports
  whether a line break was among them.
* `Source.regex`, `Source.templateTail`, `Source.markupChild`, `Source.markupName`,
  `Source.attributeText`: the other modes.

A malformed token is `Token.bad`, which no rule of the grammar accepts.
-/

set_option autoImplicit false

namespace Abridge

/-- The text that is left to read and its byte offset in the whole. -/
structure Source where
  rest : List Char
  offset : Nat
  deriving Repr, Inhabited

/-- A token. -/
inductive Token where
  | eof
  /-- An operator or a bracket, as written. -/
  | punct (text : String)
  /-- An identifier or keyword, and whether it was written with an escape. -/
  | word (text : String) (escaped : Bool)
  | privateName (text : String)
  | number (value : Double) (raw : String)
  | bigint (digits : String)
  | string (literal : StringLiteral) (raw : String)
  /-- A piece of a template: its text, whether its escapes are well formed, whether it is the last. -/
  | template (raw : String) (cooked : Bool) (last : Bool)
  | regex (pattern flags : String)
  | markupText (raw : String)
  | attributeText (raw : String)
  | bad
  deriving DecidableEq, Repr, Inhabited

namespace Source

/-! ## Characters -/

/-- The bytes that a run of characters takes. -/
def byteLength (cs : List Char) : Nat := cs.foldl (fun n c => n + c.utf8Size) 0

/-- The source after its first `n` characters. -/
def advance (s : Source) (n : Nat) : Source :=
  ⟨s.rest.drop n, s.offset + byteLength (s.rest.take n)⟩

/-- Line feed, carriage return and the two Unicode separators. -/
def isLineBreak (c : Char) : Bool :=
  c == '\n' || c == '\r' || c == '\u2028' || c == '\u2029'

/-- Blanks other than line breaks. -/
def isBlank (c : Char) : Bool :=
  let n := c.toNat
  n == 0x20 || n == 0x09 || n == 0x0b || n == 0x0c || n == 0xa0 || n == 0xfeff || n == 0x85 ||
    n == 0x1680 || n == 0x180e || (0x2000 ≤ n && n ≤ 0x200b) || n == 0x202f || n == 0x205f ||
    n == 0x3000

/-- The value of a run of hexadecimal digits. -/
def hexRun? (cs : List Char) : Option Nat :=
  cs.foldl (fun acc c => do return (← acc) * 16 + (← Text.hexValue? c)) (some 0)

/-! ## Blanks and comments -/

/-- What is being skipped. -/
inductive Blank where
  | blank | lineComment | blockComment
  deriving DecidableEq

/-- Skips blanks and comments.  The flag tells whether a line break was met; scripts also have the
two markup-style line comments.  An unterminated comment gives nothing. -/
def skipBlanks (script : Bool) : Blank → Bool → List Char → Nat → Option (Bool × Source)
  | .blank, broken, [], n => some (broken, ⟨[], n⟩)
  | .lineComment, broken, [], n => some (broken, ⟨[], n⟩)
  | .blockComment, _, [], _ => none
  | .blank, broken, '/' :: '/' :: cs, n => skipBlanks script .lineComment broken cs (n + 2)
  | .blank, broken, '/' :: '*' :: cs, n => skipBlanks script .blockComment broken cs (n + 2)
  | .blank, broken, '<' :: '!' :: '-' :: '-' :: cs, n =>
    if script then skipBlanks script .lineComment broken cs (n + 4)
    else some (broken, ⟨'<' :: '!' :: '-' :: '-' :: cs, n⟩)
  | .blank, broken, '-' :: '-' :: '>' :: cs, n =>
    if script && broken then skipBlanks script .lineComment broken cs (n + 3)
    else some (broken, ⟨'-' :: '-' :: '>' :: cs, n⟩)
  | .blank, broken, c :: cs, n =>
    if isLineBreak c then skipBlanks script .blank true cs (n + c.utf8Size)
    else if isBlank c then skipBlanks script .blank broken cs (n + c.utf8Size)
    else some (broken, ⟨c :: cs, n⟩)
  | .lineComment, broken, c :: cs, n =>
    if isLineBreak c then skipBlanks script .blank true cs (n + c.utf8Size)
    else skipBlanks script .lineComment broken cs (n + c.utf8Size)
  | .blockComment, broken, '*' :: '/' :: cs, n => skipBlanks script .blank broken cs (n + 2)
  | .blockComment, broken, c :: cs, n =>
    skipBlanks script .blockComment (broken || isLineBreak c) cs (n + c.utf8Size)

/-! ## Escapes -/

/-- What an escape sequence stands for. -/
inductive Escape where
  /-- A character. -/
  | char (c : Char)
  /-- A surrogate, a code point that is no character of its own. -/
  | surrogate (n : Nat)
  /-- Nothing: the escape joins two lines. -/
  | nothing
  deriving DecidableEq, Repr

/-- The escape that stands for a code point. -/
def escapeOf (n : Nat) : Option Escape :=
  if 0xd800 ≤ n && n ≤ 0xdfff then some (.surrogate n)
  else if n ≤ 0x10ffff then some (.char (Char.ofNat n))
  else none

/-- The code point of `u` escapes, from the characters after the `u`, and how many were read. -/
def unicodeEscape? (cs : List Char) : Option (Nat × Nat) :=
  match cs with
  | '\x7b' :: rest =>
    let digits := rest.takeWhile (· != '\x7d')
    if digits.isEmpty || rest.length == digits.length then none
    else do
      let n ← hexRun? digits
      if n > 0x10ffff then none else some (n, digits.length + 2)
  | a :: b :: c :: d :: _ => do
    let n ← hexRun? [a, b, c, d]
    some (n, 4)
  | _ => none

/-- The code point of a surrogate pair. -/
def pairOf (high low : Nat) : Nat := (high - 0xd800) * 0x400 + (low - 0xdc00) + 0x10000

/-- The value of `u` escapes, a pair of escaped surrogates being one character. -/
def unicodeValue? (cs : List Char) : Option (Escape × Nat) := do
  let (n, used) ← unicodeEscape? cs
  let single := (escapeOf n).map fun e => (e, used)
  if 0xd800 ≤ n && n ≤ 0xdbff then
    match cs.drop used with
    | '\\' :: 'u' :: more =>
      match unicodeEscape? more with
      | some (low, again) =>
        if 0xdc00 ≤ low && low ≤ 0xdfff then
          some (.char (Char.ofNat (pairOf n low)), used + 2 + again)
        else single
      | none => none
    | _ => single
  else single

/-- Whether `c` is an octal digit. -/
def isOctal (c : Char) : Bool := '0' ≤ c && c ≤ '7'

/-- The value of the escape after a backslash, the number of characters it takes, and whether templates
forbid it. -/
def escape? (cs : List Char) : Option (Escape × Nat × Bool) :=
  match cs with
  | [] => none
  | 'n' :: _ => some (.char '\n', 1, false)
  | 'r' :: _ => some (.char '\r', 1, false)
  | 't' :: _ => some (.char '\t', 1, false)
  | 'b' :: _ => some (.char '\x08', 1, false)
  | 'v' :: _ => some (.char '\x0b', 1, false)
  | 'f' :: _ => some (.char '\x0c', 1, false)
  | '\r' :: '\n' :: _ => some (.nothing, 2, false)
  | 'x' :: rest =>
    match rest with
    | a :: b :: _ => (hexRun? [a, b]).map fun n => (.char (Char.ofNat n), 3, false)
    | _ => none
  | 'u' :: rest => (unicodeValue? rest).map fun (e, used) => (e, used + 1, false)
  | c :: rest =>
    if isLineBreak c then some (.nothing, 1, false)
    else if isOctal c then
      let more := (rest.take (if c ≤ '3' then 2 else 1)).takeWhile isOctal
      let n := (c :: more).foldl (fun acc d => acc * 8 + (d.toNat - 48)) 0
      let plain := c == '0' && !(rest.take 1).any Char.isDigit
      some (.char (Char.ofNat n), more.length + 1, !plain)
    else if c == '8' || c == '9' then some (.char c, 1, true)
    else some (.char c, 1, false)

/-! ## Strings -/

/-- The four lower-case hexadecimal digits of a code unit. -/
def hex4 (n : Nat) : List Char :=
  let digits := Nat.toDigits 16 n
  List.replicate (4 - digits.length) '0' ++ digits

/-- The replacement character, which marks the place of a lone surrogate in a string value. -/
def replacement : Char := '\uFFFD'

/-- The value of a string from its decoded units.  Once a lone surrogate occurs, it and every
replacement character are written as a replacement character with four hexadecimal digits, so that
the two stay apart. -/
def encodeUnits (units : List Escape) : String × Bool :=
  let lone := units.any fun | .surrogate _ => true | _ => false
  let text := units.flatMap fun
    | .char c => if lone && c == replacement then replacement :: hex4 0xfffd else [c]
    | .surrogate n => replacement :: hex4 n
    | .nothing => []
  (String.ofList text, lone)

/-- Whether the source text of a string has an escape that strict code forbids: a digit after the
backslash, other than a zero that no digit from one to nine follows. -/
def hasLegacyEscape : List Char → Bool
  | [] => false
  | '\\' :: '0' :: rest => (rest.head?.any fun c => '1' ≤ c && c ≤ '9') || hasLegacyEscape rest
  | '\\' :: c :: rest => ('1' ≤ c && c ≤ '9') || hasLegacyEscape rest
  | _ :: rest => hasLegacyEscape rest

/-- A string body up to its quote: its units, which are collected in reverse, and the number of
characters read with the quote. -/
def stringBody (quote : Char) : Nat → List Char → Nat → List Escape → Option (List Escape × Nat)
  | 0, _, _, _ => none
  | fuel + 1, cs, used, units =>
    match cs with
    | [] => none
    | '\\' :: rest =>
      match escape? rest with
      | none => none
      | some (e, n, _) => stringBody quote fuel (rest.drop n) (used + n + 1) (e :: units)
    | c :: rest =>
      if c == quote then some (units.reverse, used + 1)
      else if c == '\n' || c == '\r' then none
      else stringBody quote fuel rest (used + 1) (.char c :: units)

/-- The string literal that starts at `s` with `quote`. -/
def string (s : Source) (quote : Char) : Token × Source :=
  let body := s.rest.drop 1
  match stringBody quote (body.length + 1) body 0 [] with
  | none => (.bad, s)
  | some (units, used) =>
    let (value, lone) := encodeUnits units
    let raw := body.take (used - 1)
    (.string ⟨value, lone, hasLegacyEscape raw, s.offset⟩ (String.ofList raw), s.advance (used + 1))

/-! ## Templates -/

/-- How an escape stands in a template: line joins and characters are fine, octal escapes are not. -/
def templateEscapeOk (cs : List Char) : Bool :=
  match escape? cs with
  | none => false
  | some (_, _, legacy) => !legacy

/-- The text of a template piece: raw characters, whether every escape is well formed, whether the
piece ends the template, and the number of characters read. -/
def templateBody : Nat → List Char → List Char → Bool → Nat →
    Option (List Char × Bool × Bool × Nat)
  | 0, _, _, _, _ => none
  | fuel + 1, cs, raw, ok, used =>
    match cs with
    | [] => none
    | '`' :: _ => some (raw.reverse, ok, true, used + 1)
    | '$' :: '\x7b' :: _ => some (raw.reverse, ok, false, used + 2)
    | '\\' :: rest =>
      match rest with
      | [] => none
      | '\r' :: '\n' :: more => templateBody fuel more ('\n' :: '\\' :: raw) ok (used + 3)
      | '\r' :: more => templateBody fuel more ('\n' :: '\\' :: raw) ok (used + 2)
      | c :: more => templateBody fuel more (c :: '\\' :: raw) (ok && templateEscapeOk rest) (used + 2)
    | '\r' :: '\n' :: rest => templateBody fuel rest ('\n' :: raw) ok (used + 2)
    | '\r' :: rest => templateBody fuel rest ('\n' :: raw) ok (used + 1)
    | c :: rest => templateBody fuel rest (c :: raw) ok (used + 1)

/-- The template piece after the backquote or closing brace at `s`. -/
def templateTail (s : Source) : Token × Source :=
  let body := s.rest.drop 1
  match templateBody (body.length + 1) body [] true 0 with
  | none => (.bad, s)
  | some (raw, ok, last, used) => (.template (String.ofList raw) ok last, s.advance (used + 1))

/-! ## Numbers -/

/-- A run of digits with single separators between digits; the separators are dropped.  Gives the
digits, the number of characters read, and whether the run is well formed. -/
def digitRun (isDigit : Char → Bool) (cs : List Char) : List Char × Nat × Bool :=
  let run := cs.takeWhile fun c => isDigit c || c == '_'
  let rec ok : Bool → List Char → Bool
    | prevDigit, [] => prevDigit
    | prevDigit, '_' :: rest => prevDigit && ok false rest
    | _, _ :: rest => ok true rest
  (run.filter (· != '_'), run.length, run.isEmpty || ok false run)

/-- The value of digits in a base. -/
def valueIn (base : Nat) (digits : List Char) : Nat :=
  digits.foldl (fun n c => n * base + (Text.hexValue? c).getD 0) 0

/-- A number must not touch an identifier or another digit. -/
def endsCleanly (cs : List Char) : Bool :=
  match cs with
  | [] => true
  | c :: _ => !(Text.isIdentifierStart c || c.isDigit || c == '\\')

/-- An integer written in another base: `n` characters of introducer and then digits. -/
def radixNumber (s : Source) (base : Nat) (isDigit : Char → Bool) : Token × Source :=
  let (digits, used, ok) := digitRun isDigit (s.rest.drop 2)
  let after := s.rest.drop (used + 2)
  if !ok || digits.isEmpty then (.bad, s)
  else
    match after with
    | 'n' :: rest =>
      if endsCleanly rest then
        (.bigint (toString (valueIn base digits)), s.advance (used + 3))
      else (.bad, s)
    | _ =>
      if endsCleanly after then
        (.number (.ofNat (valueIn base digits)) (String.ofList (s.rest.take (used + 2))),
          s.advance (used + 2))
      else (.bad, s)

/-- An exponent part: its value and the number of characters, nothing when there is none, and `none`
when it is malformed. -/
def exponentPart (cs : List Char) : Option (Int × Nat) :=
  match cs with
  | c :: rest =>
    if c == 'e' || c == 'E' then
      let (negative, signs, rest) := match rest with
        | '+' :: r => (false, 1, r)
        | '-' :: r => (true, 1, r)
        | r => (false, 0, r)
      let (digits, used, ok) := digitRun Char.isDigit rest
      if !ok || digits.isEmpty then none
      else
        let n : Int := valueIn 10 digits
        some (if negative then -n else n, used + signs + 1)
    else some (0, 0)
  | [] => some (0, 0)

/-- A decimal number whose integer digits have been read; `used` counts their characters. -/
def decimalTail (s : Source) (whole : List Char) (used : Nat) : Token × Source :=
  let after := s.rest.drop used
  let (fraction, dotted, ok) : List Char × Nat × Bool := match after with
    | '.' :: rest =>
      let (digits, n, ok) := digitRun Char.isDigit rest
      (digits, n + 1, ok)
    | _ => ([], 0, true)
  match exponentPart (after.drop dotted) with
  | none => (.bad, s)
  | some (e, n) =>
    let total := used + dotted + n
    if !ok || !endsCleanly (s.rest.drop total) then (.bad, s)
    else
      let value := Double.ofDecimal false (valueIn 10 (whole ++ fraction)) (e - fraction.length)
      (.number value (String.ofList (s.rest.take total)), s.advance total)

/-- A number that starts with a zero followed by digits: octal when all of them are octal digits. -/
def legacyNumber (s : Source) : Token × Source :=
  let digits := s.rest.takeWhile Char.isDigit
  let used := digits.length
  let after := s.rest.drop used
  if digits.all isOctal then
    if endsCleanly after && after.head? != some '_' then
      (.number (.ofNat (valueIn 8 digits)) (String.ofList digits), s.advance used)
    else (.bad, s)
  else if after.head? == some '_' then (.bad, s)
  else decimalTail s digits used

/-- A number that starts with a digit other than a leading zero. -/
def plainNumber (s : Source) : Token × Source :=
  let (digits, used, ok) := digitRun Char.isDigit s.rest
  let after := s.rest.drop used
  if !ok then (.bad, s)
  else
    match after with
    | 'n' :: rest =>
      if endsCleanly rest then
        (.bigint (toString (valueIn 10 digits)), s.advance (used + 1))
      else (.bad, s)
    | _ => decimalTail s digits used

/-- The number at `s`, which starts with a digit or with a point and a digit. -/
def number (s : Source) : Token × Source :=
  match s.rest with
  | '0' :: c :: _ =>
    if c == 'x' || c == 'X' then radixNumber s 16 fun c => (Text.hexValue? c).isSome
    else if c == 'o' || c == 'O' then radixNumber s 8 isOctal
    else if c == 'b' || c == 'B' then radixNumber s 2 fun c => c == '0' || c == '1'
    else if c.isDigit then legacyNumber s
    else if c == '_' then (.bad, s)
    else plainNumber s
  | '.' :: _ => decimalTail s [] 0
  | _ => plainNumber s

/-! ## Words -/

/-- The characters of an identifier: the name, whether an escape occurred, the characters read. -/
def wordBody : Nat → List Char → List Char → Bool → Nat → Option (List Char × Bool × Nat)
  | 0, _, _, _, _ => none
  | fuel + 1, cs, name, escaped, used =>
    match cs with
    | '\\' :: rest =>
      match rest with
      | 'u' :: digits =>
        match unicodeEscape? digits with
        | none => none
        | some (n, k) =>
          let c := Char.ofNat n
          let fits := if name.isEmpty then Text.isIdentifierStart c else Text.isIdentifierPart c
          if fits && Nat.isValidChar n then
            wordBody fuel (digits.drop k) (c :: name) true (used + k + 2)
          else none
      | _ => none
    | c :: rest =>
      let fits := if name.isEmpty then Text.isIdentifierStart c else Text.isIdentifierPart c
      if fits then wordBody fuel rest (c :: name) escaped (used + 1)
      else some (name.reverse, escaped, used)
    | [] => some (name.reverse, escaped, used)

/-- The identifier or keyword at `s`.  One without escapes is a plain run of characters. -/
def word (s : Source) : Token × Source :=
  let run := s.rest.takeWhile Text.isIdentifierPart
  if (s.rest.drop run.length).head? != some '\\' then
    match run with
    | c :: _ =>
      if Text.isIdentifierStart c then (.word (String.ofList run) false, s.advance run.length)
      else (.bad, s)
    | [] => (.bad, s)
  else
    match wordBody (s.rest.length + 1) s.rest [] false 0 with
    | some (c :: name, escaped, used) => (.word (String.ofList (c :: name)) escaped, s.advance used)
    | _ => (.bad, s)

/-- The private name at `s`, which starts with `#`. -/
def privateName (s : Source) : Token × Source :=
  match word (s.advance 1) with
  | (.word text _, after) => (.privateName text, after)
  | _ => (.bad, s)

/-! ## Punctuators -/

/-- The punctuators longer than one character, the longest first among those that share a beginning.
A greater-than sign is always read alone and joined by the grammar, because it also closes lists of
types. -/
def longPunctuators : List (List Char) :=
  ["...", "===", "!==", "**=", "<<=", "&&=", "||=", "??=",
   "=>", "==", "!=", "<=", "<<", "++", "--", "+=", "-=", "*=", "/=", "%=", "**",
   "&&", "||", "??", "&=", "|=", "^="].map String.toList

/-- The punctuators of one character. -/
def shortPunctuators : List Char := "\x7b\x7d()[];,<>+-*/%&|^!~?:=.@".toList

/-- The punctuator at `s`. -/
def punctuator (s : Source) : Token × Source :=
  match s.rest with
  | '?' :: '.' :: rest =>
    if (rest.take 1).any Char.isDigit then (.punct "?", s.advance 1) else (.punct "?.", s.advance 2)
  | cs =>
    match longPunctuators.find? (·.isPrefixOf cs) with
    | some p => (.punct (String.ofList p), s.advance p.length)
    | none =>
      match cs with
      | c :: _ =>
        if shortPunctuators.contains c then (.punct (String.ofList [c]), s.advance 1) else (.bad, s)
      | [] => (.eof, s)

/-! ## The token reader -/

/-- The token at `s`, which starts with no blank. -/
def tokenHere (s : Source) : Token × Source :=
  match s.rest with
  | [] => (.eof, s)
  | c :: rest =>
    if Text.isIdentifierStart c || c == '\\' then word s
    else if c.isDigit then number s
    else if c == '"' || c == '\'' then string s c
    else if c == '`' then templateTail s
    else if c == '#' then privateName s
    else if c == '.' && (rest.take 1).any Char.isDigit then number s
    else punctuator s

/-- A token as read: what it is, whether a line break stands before it, where it starts, and where
the text continues after it. -/
structure Reading where
  token : Token
  broken : Bool
  start : Source
  after : Source
  deriving Repr, Inhabited

/-- Skips blanks and comments and reads a token. -/
def next (script : Bool) (s : Source) : Reading :=
  match skipBlanks script .blank (s.offset == 0) s.rest s.offset with
  | none => ⟨.bad, false, s, s⟩
  | some (broken, here) =>
    let (token, after) := tokenHere here
    ⟨token, broken, here, after⟩

/-! ## Other modes -/

/-- The body of a regular expression after its slash: the number of characters before the closing
slash. -/
def regexBody : Bool → Nat → List Char → Option Nat
  | _, _, [] => none
  | inClass, n, '\\' :: c :: rest => if isLineBreak c then none else regexBody inClass (n + 2) rest
  | inClass, n, c :: rest =>
    if isLineBreak c then none
    else if c == '[' then regexBody true (n + 1) rest
    else if c == ']' then regexBody false (n + 1) rest
    else if c == '/' && !inClass then some n
    else regexBody inClass (n + 1) rest

/-- The flags of a regular expression are distinct letters of this list. -/
def regexFlags : List Char := "dgimsuvy".toList

/-- The regular expression at `s`, which starts with a slash. -/
def regex (s : Source) : Token × Source :=
  let body := s.rest.drop 1
  match regexBody false 0 body with
  | none => (.bad, s)
  | some n =>
    let flags := (body.drop (n + 1)).takeWhile Text.isIdentifierPart
    let known := flags.all regexFlags.contains
    let distinct := flags.eraseDups.length == flags.length
    if known && distinct && (body.drop (n + 1 + flags.length)).head? != some '\\' then
      (.regex (String.ofList (body.take n)) (String.ofList flags), s.advance (n + 2 + flags.length))
    else (.bad, s)

/-- The next token between tags: a brace, an angle bracket or a run of text.  A closing brace or a
greater-than sign cannot stand in text. -/
def markupChild (s : Source) : Reading :=
  match s.rest with
  | [] => ⟨.eof, false, s, s⟩
  | '\x7b' :: _ => ⟨.punct "\x7b", false, s, s.advance 1⟩
  | '<' :: _ => ⟨.punct "<", false, s, s.advance 1⟩
  | cs =>
    let text := cs.takeWhile fun c => c != '\x7b' && c != '<'
    let token := if text.any (fun c => c == '>' || c == '\x7d') then .bad
      else .markupText (String.ofList text)
    ⟨token, false, s, s.advance text.length⟩

/-- The word at `s` read as a markup name, in which hyphens may occur. -/
def markupName (s : Source) : Token × Source :=
  match s.rest with
  | c :: rest =>
    if Text.isIdentifierStart c then
      let more := rest.takeWhile fun c => Text.isIdentifierPart c || c == '-'
      (.word (String.ofList (c :: more)) false, s.advance (more.length + 1))
    else (.bad, s)
  | [] => (.bad, s)

/-- The next token where an attribute value is expected: a quoted text runs to its closing quote and
has no escapes. -/
def attributeValue (script : Bool) (s : Source) : Reading :=
  let plain := next script s
  match plain.start.rest with
  | c :: rest =>
    if plain.token != .eof && (c == '"' || c == '\'') then
      let text := rest.takeWhile (· != c)
      if text.length < rest.length then
        { plain with
          token := .attributeText (String.ofList text)
          after := plain.start.advance (text.length + 2) }
      else { plain with token := .bad }
    else plain
  | [] => plain

end Source

end Abridge
