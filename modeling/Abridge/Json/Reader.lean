import Abridge.Json.Value

/-!
# Reading JSON

A document is one value with blanks around it.  Reading fails on anything else: unknown escapes,
unpaired surrogates, control characters inside strings, numbers beyond the range of doubles, and
nesting deeper than `maxDepth`.

## Numbers

An integer that fits 64 bits keeps its exact value; a negative zero is a float.  Of every other
number the digits that fit 64 bits form a significand, and the value is that significand as a double,
multiplied or divided by a power of ten as a double.  The two roundings can leave the last place off
by one, which is part of the format: a written number is what this rule reads.
-/

set_option autoImplicit false

namespace Abridge

namespace Json

/-- Arrays and objects may be nested less deep than this. -/
def maxDepth : Nat := 128

/-! ## Numbers -/

/-- The number that a decimal digit stands for. -/
def digitValue (c : Char) : Nat := c.toNat - '0'.toNat

/-- One past the greatest significand. -/
def significandLimit : Nat := Nat.pow 2 64

/-- Takes digits into a significand while it fits; also the number of digits taken. -/
def absorb (s : Nat) (taken : Nat) : List Char → Nat × Nat
  | [] => (s, taken)
  | c :: cs =>
    let s' := 10 * s + digitValue c
    if s' < significandLimit then absorb s' (taken + 1) cs else (s, taken)

/-- The power of ten as a double. -/
def powerOfTen (n : Nat) : Double := Double.ofDecimal false 1 n

/-- Divides by powers of ten that doubles can hold; three steps bring every significand to zero. -/
def divideByTens (x : Double) : Nat → Nat → Double
  | 0, _ => .zero false
  | fuel + 1, n =>
    if n ≤ 308 then x.div (powerOfTen n)
    else divideByTens (x.div (powerOfTen 308)) fuel (n - 308)

/-- The significand scaled by a power of ten; nothing when the value is out of range. -/
def scaledFloat (negative : Bool) (s : Nat) (exponent : Int) : Option Double :=
  let x := Double.ofNat s
  let magnitude : Option Double :=
    if s = 0 then some (.zero false)
    else if exponent ≥ 0 then
      if exponent > 308 then none
      else
        let y := x.mul (powerOfTen exponent.toNat)
        if y.isFinite then some y else none
    else some (divideByTens x 4 (-exponent).toNat)
  magnitude.map fun y => if negative then y.neg else y

/-- The decimal number that digits stand for. -/
def digitsValue (cs : List Char) : Nat := cs.foldl (fun n c => 10 * n + digitValue c) 0

/-- The exponent at the head of a text, if one is there, and the rest; fails after a bare mark. -/
def readExponent : List Char → Option (Option Int × List Char)
  | c :: rest =>
    if c == 'e' || c == 'E' then
      let (negative, rest) := match rest with
        | '+' :: r => (false, r)
        | '-' :: r => (true, r)
        | r => (false, r)
      let digits := rest.takeWhile Char.isDigit
      if digits.isEmpty then none
      else
        let n : Int := digitsValue digits
        some (some (if negative then -n else n), rest.dropWhile Char.isDigit)
    else some (none, c :: rest)
  | [] => some (none, [])

/-- The fraction at the head of a text, if one is there, and the rest; fails after a bare point. -/
def readFraction : List Char → Option (Option (List Char) × List Char)
  | '.' :: rest =>
    let digits := rest.takeWhile Char.isDigit
    if digits.isEmpty then none else some (some digits, rest.dropWhile Char.isDigit)
  | rest => some (none, rest)

/-- The value of an integer whose digits form the significand `s`. -/
def integerNumber (negative : Bool) (s : Nat) : JsonNumber :=
  if !negative then .integer s
  else if s = 0 then .float (.zero true)
  else if s ≤ Nat.pow 2 63 then .integer (-(s : Int))
  else .float (Double.ofNat s).neg

/-- A number from the parts of its text. -/
def numberOf (negative : Bool) (whole : List Char) (fraction : Option (List Char))
    (exponent : Option Int) : Option JsonNumber :=
  let (s, taken) := absorb 0 0 whole
  let dropped := whole.length - taken
  if fraction.isNone && exponent.isNone && dropped == 0 then some (integerNumber negative s)
  else
    let (s, places) := absorb s 0 (fraction.getD [])
    (scaledFloat negative s ((dropped : Int) - places + exponent.getD 0)).map .float

/-- A number at the head of a text, after its sign, and the rest. -/
def readNumber (negative : Bool) (cs : List Char) : Option (JsonNumber × List Char) :=
  let whole := cs.takeWhile Char.isDigit
  let rest := cs.dropWhile Char.isDigit
  if whole.isEmpty || (whole.head? == some '0' && whole.length > 1) then none
  else do
    let (fraction, rest) ← readFraction rest
    let (exponent, rest) ← readExponent rest
    let n ← numberOf negative whole fraction exponent
    some (n, rest)

/-! ## Strings -/

/-- The number that four hexadecimal digits stand for. -/
def unit (a b c d : Char) : Option Nat := do
  let high := 16 * (← Text.hexValue? a) + (← Text.hexValue? b)
  let low := 16 * (← Text.hexValue? c) + (← Text.hexValue? d)
  return 256 * high + low

/-- The character that an escape letter stands for. -/
def unescape : Char → Option Char
  | '"' => some '"'
  | '\\' => some '\\'
  | '/' => some '/'
  | 'b' => some (Char.ofNat 8)
  | 'f' => some (Char.ofNat 12)
  | 'n' => some '\n'
  | 'r' => some '\r'
  | 't' => some '\t'
  | _ => none

/-- The characters of a string up to its closing quote, put in front of those read before it in
reverse; and the text after the quote. -/
def readString (done : List Char) : List Char → Option (String × List Char)
  | [] => none
  | '"' :: rest => some (String.ofList done.reverse, rest)
  | '\\' :: 'u' :: a :: b :: c :: d :: rest =>
    match unit a b c d with
    | none => none
    | some u =>
      if 0xD800 ≤ u ∧ u < 0xDC00 then
        match rest with
        | '\\' :: 'u' :: e :: f :: g :: h :: rest =>
          match unit e f g h with
          | none => none
          | some v =>
            if 0xDC00 ≤ v ∧ v < 0xE000 then
              readString (Char.ofNat (0x10000 + 0x400 * (u - 0xD800) + (v - 0xDC00)) :: done) rest
            else none
        | _ => none
      else if 0xDC00 ≤ u ∧ u < 0xE000 then none
      else readString (Char.ofNat u :: done) rest
  | '\\' :: e :: rest =>
    match unescape e with
    | some c => readString (c :: done) rest
    | none => none
  | c :: rest => if c.toNat < 32 then none else readString (c :: done) rest

/-! ## Values -/

/-- Blanks between tokens. -/
def isBlank (c : Char) : Bool := c == ' ' || c == '\t' || c == '\n' || c == '\r'

/-- The text after the blanks at its head. -/
def skipBlanks (cs : List Char) : List Char := cs.dropWhile isBlank

mutual

/-- A value at the head of a text, and the rest.  `depth` is how many more brackets may open. -/
def readValue : Nat → Nat → List Char → Option (Json × List Char)
  | 0, _, _ => none
  | fuel + 1, depth, cs =>
    match skipBlanks cs with
    | 'n' :: 'u' :: 'l' :: 'l' :: rest => some (.null, rest)
    | 't' :: 'r' :: 'u' :: 'e' :: rest => some (.bool true, rest)
    | 'f' :: 'a' :: 'l' :: 's' :: 'e' :: rest => some (.bool false, rest)
    | '"' :: rest => (readString [] rest).map fun (s, rest) => (.string s, rest)
    | '-' :: rest => (readNumber true rest).map fun (n, rest) => (.number n, rest)
    | '[' :: rest =>
      if depth ≤ 1 then none
      else
        match skipBlanks rest with
        | ']' :: rest => some (.array [], rest)
        | rest => readItems fuel (depth - 1) [] rest
    | '\x7b' :: rest =>
      if depth ≤ 1 then none
      else
        match skipBlanks rest with
        | '\x7d' :: rest => some (.object [], rest)
        | rest => readMembers fuel (depth - 1) [] rest
    | rest => (readNumber false rest).map fun (n, rest) => (.number n, rest)

/-- The items of an array up to its bracket, after those read before in reverse. -/
def readItems : Nat → Nat → List Json → List Char → Option (Json × List Char)
  | 0, _, _, _ => none
  | fuel + 1, depth, done, cs =>
    match readValue fuel depth cs with
    | none => none
    | some (v, rest) =>
      match skipBlanks rest with
      | ',' :: rest => readItems fuel depth (v :: done) rest
      | ']' :: rest => some (.array (v :: done).reverse, rest)
      | _ => none

/-- The members of an object up to its brace, after those read before in reverse. -/
def readMembers : Nat → Nat → List (String × Json) → List Char → Option (Json × List Char)
  | 0, _, _, _ => none
  | fuel + 1, depth, done, cs =>
    match skipBlanks cs with
    | '"' :: rest =>
      match readString [] rest with
      | none => none
      | some (k, rest) =>
        match skipBlanks rest with
        | ':' :: rest =>
          match readValue fuel depth rest with
          | none => none
          | some (v, rest) =>
            match skipBlanks rest with
            | ',' :: rest => readMembers fuel depth ((k, v) :: done) rest
            | '\x7d' :: rest => some (.object ((k, v) :: done).reverse, rest)
            | _ => none
        | _ => none
    | _ => none

end

/-- The value that a text spells. -/
def parse? (text : String) : Option Json :=
  let cs := text.toList
  match readValue (cs.length + 1) maxDepth cs with
  | some (v, rest) => if (skipBlanks rest).isEmpty then some v else none
  | none => none

end Json

end Abridge
