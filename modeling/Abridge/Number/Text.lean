import Abridge.Number.Double

/-!
# The written forms of a number

One choice of digits (`Double.shortest`) is laid out in four ways, each for its own reader.

## What is here

* `Double.display`: always positional, no point on an integral number.  This is the text of a literal
  in identities, in declarations and in profiles.
* `Double.jsonText`: positional while the leading digit stands between `10^-5` and `10^15`, and then
  with a point always; otherwise an exponent with its sign.
* `Double.scriptText`: the number-to-string rule of scripts, positional below `10^21`.
* `Double.fixed`: a given number of places, the exact value rounded with ties to the even digit.
* `Double.read?`: the way back, from a decimal numeral to the nearest double.
-/

set_option autoImplicit false

namespace Abridge

namespace Double

/-- `n` copies of `c`. -/
def copies (n : Nat) (c : Char) : String := String.ofList (List.replicate n c)

/-- The decimal as digits before and after a point. -/
def Decimal.split (d : Decimal) : String × String :=
  let text := toString d.digits
  if d.exponent ≥ 0 then (text ++ copies d.exponent.toNat '0', "")
  else
    let places := (-d.exponent).toNat
    if text.length > places then
      let chars := text.toList
      (String.ofList (chars.take (text.length - places)),
        String.ofList (chars.drop (text.length - places)))
    else ("0", copies (places - text.length) '0' ++ text)

/-- Positional notation, with a point only before a fraction. -/
def Decimal.positional (d : Decimal) : String :=
  match d.split with
  | (whole, "") => whole
  | (whole, fraction) => whole ++ "." ++ fraction

/-- The exponent of the leading digit. -/
def Decimal.leading (d : Decimal) : Int := d.exponent + (digitCount d.digits : Int) - 1

/-- The digits with a point after the first, when there is more than one. -/
def Decimal.pointed (d : Decimal) : String :=
  match (toString d.digits).toList with
  | [] => ""
  | [c] => String.ofList [c]
  | c :: rest => String.ofList (c :: '.' :: rest)

/-- Exponent notation with the exponent's sign always written: `1.5e-10`, `1e+21`. -/
def Decimal.scientific (d : Decimal) : String :=
  let e := d.leading
  d.pointed ++ "e" ++ (if e < 0 then "-" else "+") ++ toString e.natAbs

/-- The sign in front of a written number. -/
def signText (negative : Bool) : String := if negative then "-" else ""

/-- Positional text with the fewest digits that read back; never an exponent. -/
def display : Double → String
  | .finite s m q _ => signText s ++ (shortest m q).positional
  | .infinite s => signText s ++ "inf"
  | .nan => "NaN"

/-- The text of a finite number in a JSON document; others have none. -/
def jsonText : Double → Option String
  | .finite s m q _ =>
    let d := shortest m q
    let body :=
      if m = 0 then "0.0"
      else if -5 ≤ d.leading ∧ d.leading ≤ 15 then
        match d.split with
        | (whole, "") => whole ++ ".0"
        | (whole, fraction) => whole ++ "." ++ fraction
      else d.scientific
    some (signText s ++ body)
  | _ => none

/-- The text of a non-negative number in a script: positional when the point falls within 21 digits
and no more than six zeros follow it. -/
def scriptText : Double → String
  | .finite s m q _ =>
    let d := shortest m q
    let body :=
      if m = 0 then "0"
      else if -7 < d.leading ∧ d.leading < 21 then d.positional
      else d.scientific
    signText s ++ body
  | .infinite s => signText s ++ "Infinity"
  | .nan => "NaN"

/-- The exact value with `places` digits after the point, ties to the even digit. -/
def fixed (places : Nat) : Double → String
  | .finite s m q _ =>
    let (num, den) := if q ≥ 0 then (m * Nat.pow 2 q.toNat, 1) else (m, Nat.pow 2 (-q).toNat)
    let units := roundDiv (num * Nat.pow 10 places) den
    let whole := toString (units / Nat.pow 10 places)
    let rest := toString (units % Nat.pow 10 places)
    let sign := signText s
    if places = 0 then sign ++ whole
    else sign ++ whole ++ "." ++ copies (places - rest.length) '0' ++ rest
  | .infinite s => signText s ++ "inf"
  | .nan => "NaN"

/-! ## Reading -/

/-- The number that digits stand for. -/
def digitsNumber (cs : List Char) : Nat := cs.foldl (fun n c => 10 * n + (c.toNat - '0'.toNat)) 0

/-- A sign in front of a text, and the rest. -/
def readSign : List Char → Bool × List Char
  | '-' :: rest => (true, rest)
  | '+' :: rest => (false, rest)
  | rest => (false, rest)

/-- The exponent at the end of a numeral; zero when there is none. -/
def readExponent? : List Char → Option Int
  | [] => some 0
  | c :: rest =>
    let (negative, digits) := readSign rest
    if (c == 'e' || c == 'E') && !digits.isEmpty && digits.all Char.isDigit then
      let n : Int := digitsNumber digits
      some (if negative then -n else n)
    else none

/-- The double nearest to a decimal numeral; also the names of the values that are not finite. -/
def read? (text : String) : Option Double :=
  let (negative, cs) := readSign text.toList
  match (String.ofList (cs.map Char.toLower)) with
  | "inf" | "infinity" => some (.infinite negative)
  | "nan" => some .nan
  | _ =>
    let whole := cs.takeWhile Char.isDigit
    let rest := cs.dropWhile Char.isDigit
    let (places, rest) := match rest with
      | '.' :: rest => (rest.takeWhile Char.isDigit, rest.dropWhile Char.isDigit)
      | rest => ([], rest)
    if whole.isEmpty && places.isEmpty then none
    else
      (readExponent? rest).map fun e =>
        ofDecimal negative (digitsNumber (whole ++ places)) (e - places.length)

end Double

end Abridge
