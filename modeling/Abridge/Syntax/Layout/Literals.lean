import Abridge.Number.Text
import Abridge.Syntax.Tree

/-!
# The shortest spelling of literals

How numbers and strings are written in compact source text.

A number has several spellings (positional, hexadecimal, with an exponent), and each shorter one that
applies replaces the one before it.  A string is written with the quote that needs the fewest
escapes; backquotes also save an escape for every line break.
-/

set_option autoImplicit false

namespace Abridge

namespace Layout

/-! ## Numbers -/

/-- The shorter of two spellings, the first of two equal ones. -/
def shorter (a b : List Char) : List Char := if b.length < a.length then b else a

/-- Drops the zero before a point and the plus sign of an exponent. -/
def trimSigns : List Char → List Char
  | '0' :: '.' :: rest => '.' :: dropPlus rest
  | cs => dropPlus cs
where
  /-- Drops the plus sign of an exponent. -/
  dropPlus : List Char → List Char
    | 'e' :: '+' :: rest => 'e' :: rest
    | c :: rest => c :: dropPlus rest
    | [] => []

/-- `.000123` as `123e-6`. -/
def leadingZeros (cs : List Char) : List Char :=
  match cs with
  | '.' :: '0' :: rest =>
    let zeros := rest.takeWhile (· == '0')
    let digits := rest.drop zeros.length
    if digits.isEmpty then cs
    else shorter cs (digits ++ "e-".toList ++ (toString (digits.length + zeros.length + 1)).toList)
  | cs => cs

/-- `1230000` as `123e4`. -/
def trailingZeros (cs : List Char) : List Char :=
  let zeros := (cs.reverse.takeWhile (· == '0')).length
  if zeros = 0 || zeros == cs.length then cs
  else shorter cs (cs.take (cs.length - zeros) ++ 'e' :: (toString zeros).toList)

/-- `1.2e101` as `12e100`. -/
def pointShift (cs : List Char) : List Char :=
  let whole := cs.takeWhile (· != '.')
  match cs.drop whole.length with
  | '.' :: rest =>
    let fraction := rest.takeWhile (· != 'e')
    match rest.drop fraction.length with
    | 'e' :: digits =>
      let (negative, digits) := match digits with
        | '-' :: ds => (true, ds)
        | ds => (false, ds)
      let n : Int := (digits.foldl (fun n c => n * 10 + (c.toNat - 48)) 0 : Nat)
      let e : Int := (if negative then -n else n) - fraction.length
      let sign := if e < 0 then ['-'] else []
      shorter cs (whole ++ fraction ++ 'e' :: sign ++ (toString e.natAbs).toList)
    | _ => cs
  | _ => cs

/-- The hexadecimal spelling of a natural number. -/
def hexSpelling (n : Nat) : List Char := '0' :: 'x' :: Nat.toDigits 16 n

/-- The compact spelling of a non-negative finite number. -/
def numberSpelling (d : Double) : String :=
  let text := d.scriptText.toList
  match d.toInt? with
  | some n =>
    if n < 1000 then String.ofList text
    else
      let plain := trimSigns text
      let hex := hexSpelling n.toNat
      if hex.length < plain.length then String.ofList (pointShift hex)
      else String.ofList (pointShift (trailingZeros plain))
  | none => String.ofList (pointShift (trailingZeros (leadingZeros (trimSigns text))))

/-- Whether a point right after the spelling would read as part of the number. -/
def absorbsPoint (spelling : String) : Bool :=
  !(spelling.toList.any fun c => c == '.' || c == 'e' || c == 'x')

/-! ## Strings -/

/-- What each quote costs: the quotes of its own kind, and for backquotes the openings of holes less
the line breaks. -/
structure QuoteCost where
  double : Int := 0
  single : Int := 0
  back : Int := 0

/-- The cost of each quote for a text. -/
def quoteCost : List Char → QuoteCost → QuoteCost
  | [], q => q
  | c :: rest, q =>
    let q := match c with
      | '"' => { q with double := q.double + 1 }
      | '\'' => { q with single := q.single + 1 }
      | '`' => { q with back := q.back + 1 }
      | '\n' => { q with back := q.back - 1 }
      | '$' => if rest.head? == some '\x7b' then { q with back := q.back + 1 } else q
      | _ => q
    quoteCost rest q

/-- The quote for a text; a backquote only where an expression may stand. -/
def chooseQuote (backquote : Bool) (cs : List Char) : Char :=
  let q := quoteCost cs {}
  let plain := if q.double > q.single then ('\'', q.single) else ('"', q.double)
  if backquote && q.back ≤ plain.2 then '`' else plain.1

/-- Whether the text starts with the name of the element that ends a script, in any case. -/
def startsScript (cs : List Char) : Bool :=
  "script".toList.isPrefixOf ((cs.take 6).map Char.toLower)

/-- The characters of a string between its quotes.  `lone` tells that a replacement character is
followed by the digits of a code unit. -/
def escapeString (quote : Char) (lone : Bool) : List Char → List Char
  | [] => []
  | c :: rest =>
    let tail := escapeString quote lone rest
    match c with
    | '\x00' => if (rest.head?.map Char.isDigit).getD false then "\\x00".toList ++ tail
      else "\\0".toList ++ tail
    | '\x07' => "\\x07".toList ++ tail
    | '\x08' => "\\b".toList ++ tail
    | '\x0b' => "\\v".toList ++ tail
    | '\x0c' => "\\f".toList ++ tail
    | '\n' => if quote == '`' then '\n' :: tail else "\\n".toList ++ tail
    | '\r' => "\\r".toList ++ tail
    | '\x1b' => "\\x1B".toList ++ tail
    | '\\' => "\\\\".toList ++ tail
    | '\u00a0' => "\\xA0".toList ++ tail
    | '\u2028' => "\\u2028".toList ++ tail
    | '\u2029' => "\\u2029".toList ++ tail
    | '<' =>
      match rest with
      | '/' :: after => if startsScript after then '<' :: '\\' :: tail else '<' :: tail
      | _ => '<' :: tail
    | '$' => if quote == '`' && rest.head? == some '\x7b' then '\\' :: '$' :: tail else '$' :: tail
    | '\uFFFD' =>
      if lone then
        -- The replacement character stands for itself only when its own digits follow.
        if "fffd".toList.isPrefixOf rest then '\uFFFD' :: tail.drop 4 else '\\' :: 'u' :: tail
      else '\uFFFD' :: tail
    | c => if c == quote then '\\' :: c :: tail else c :: tail

/-- A string literal as source text. -/
def stringSpelling (backquote : Bool) (lit : StringLiteral) : String :=
  let cs := lit.value.toList
  let quote := chooseQuote backquote cs
  String.ofList (quote :: escapeString quote lit.surrogates cs ++ [quote])

/-- Text that is copied as it is, except that it must not end an enclosing script. -/
def guardScript : List Char → List Char
  | [] => []
  | '<' :: '/' :: rest =>
    if startsScript rest then '<' :: '\\' :: '/' :: guardScript rest
    else '<' :: '/' :: guardScript rest
  | c :: rest => c :: guardScript rest

/-- The quote of a directive: double, unless the first quote inside it is a double one. -/
def directiveQuote : List Char → Char
  | [] => '"'
  | '"' :: _ => '\''
  | '\'' :: _ => '"'
  | '\\' :: _ :: rest => directiveQuote rest
  | _ :: rest => directiveQuote rest

/-- The flags of a regular expression in alphabetical order. -/
def orderFlags (flags : String) : String :=
  String.ofList ("dgimsuvy".toList.filter fun c => flags.toList.contains c)

end Layout

end Abridge
