/-!
# Binary floating-point numbers, exactly

A numeric literal denotes the double nearest to the decimal it spells, and a double is written back
with the fewest decimal digits that read as the same double.  Both directions are computed here in
natural-number arithmetic, so nothing depends on the machine's own floating-point unit.

## What is here

* `Double`: a sign, a mantissa `m` and an exponent `q`, standing for `m · 2^q`, together with the two
  infinities and the not-a-number value.  A finite double carries the proof that its mantissa and
  exponent are those of the format (`Double.IsCanonical`), so a value has one representation.
* `Double.ofRatio`: the double nearest to a ratio of naturals, ties to the even mantissa.  Reading a
  decimal (`Double.ofDecimal`) and the arithmetic of percentages are both instances of it.
* `Double.shortest`: the fewest significant digits that lie inside the rounding interval of a double;
  of two such decimals the one nearer to the value.
-/

set_option autoImplicit false

namespace Abridge

namespace Double

/-- The least exponent of a double: subnormal numbers are multiples of `2^-1074`. -/
def minExponent : Int := -1074

/-- The greatest exponent of a double with a 53-bit mantissa. -/
def maxExponent : Int := 971

/-- Whether `m · 2^q` is written as doubles are: with 53 bits, or with fewer at the least exponent. -/
def IsCanonical (m : Nat) (q : Int) : Prop :=
  minExponent ≤ q ∧ q ≤ maxExponent ∧ m < Nat.pow 2 53 ∧ (Nat.pow 2 52 ≤ m ∨ q = minExponent)

instance (m : Nat) (q : Int) : Decidable (IsCanonical m q) :=
  inferInstanceAs (Decidable (_ ∧ _ ∧ _ ∧ (_ ∨ _)))

end Double

/-- A double: `finite s m q _` is `m · 2^q`, negated when `s` holds. -/
inductive Double where
  | finite (negative : Bool) (mantissa : Nat) (exponent : Int)
      (canonical : Double.IsCanonical mantissa exponent)
  | infinite (negative : Bool)
  | nan
  deriving DecidableEq, Repr, Inhabited

namespace Double

/-! ## Rounding a ratio -/

/-- Zero with the given sign. -/
def zero (negative : Bool) : Double := .finite negative 0 minExponent (by decide)

/-- `num / den` rounded to the nearest natural, a half going to the even neighbour. -/
def roundDiv (num den : Nat) : Nat :=
  let q := num / den
  let r := num % den
  if 2 * r < den then q
  else if den < 2 * r then q + 1
  else if q % 2 = 0 then q else q + 1

/-- `num / (den · 2^q)` as a ratio of naturals. -/
def scaled (num den : Nat) (q : Int) : Nat × Nat :=
  if q ≥ 0 then (num, den * Nat.pow 2 q.toNat) else (num * Nat.pow 2 (-q).toNat, den)

/-- The exponent that gives `num / den` a 53-bit mantissa, bounded below for subnormal numbers. -/
def exponentFor (num den : Nat) : Int :=
  let e : Int := (Nat.log2 num : Int) - (Nat.log2 den : Int) - 52
  let (n, d) := scaled num den e
  let e := if n < d * Nat.pow 2 52 then e - 1 else e
  if e < minExponent then minExponent else e

/-- The double nearest to `num / den`, which is taken as positive; `den` is not zero.  What is too
large for the format is infinite. -/
def ofRatio (negative : Bool) (num den : Nat) : Double :=
  if num = 0 then zero negative
  else
    let q := exponentFor num den
    let (n, d) := scaled num den q
    let m := roundDiv n d
    let (m, q) := if m = Nat.pow 2 53 then (Nat.pow 2 52, q + 1) else (m, q)
    if h : IsCanonical m q then .finite negative m q h else .infinite negative

/-- The double nearest to `digits · 10^exponent`.  Decimals far outside the range of doubles are
settled by their length, before any power of ten is formed. -/
def ofDecimal (negative : Bool) (digits : Nat) (exponent : Int) : Double :=
  if digits = 0 then zero negative
  else
    let size : Int := (Nat.log2 digits : Int) / 3 + 1 + exponent
    if size > 400 ∧ exponent > 310 then .infinite negative
    else if size < -400 then zero negative
    else if exponent ≥ 0 then ofRatio negative (digits * Nat.pow 10 exponent.toNat) 1
    else ofRatio negative digits (Nat.pow 10 (-exponent).toNat)

/-- The double of a natural number. -/
def ofNat (n : Nat) : Double := ofDecimal false n 0

/-- The double of an integer. -/
def ofInt (n : Int) : Double := ofDecimal (decide (n < 0)) n.natAbs 0

/-! ## Observations -/

/-- Neither infinite nor the not-a-number value. -/
def isFinite : Double → Bool
  | .finite .. => true
  | _ => false

/-- The sign bit; the not-a-number value counts as positive. -/
def isNegative : Double → Bool
  | .finite s _ _ _ => s
  | .infinite s => s
  | .nan => false

/-- The magnitude. -/
def abs : Double → Double
  | .finite _ m q h => .finite false m q h
  | .infinite _ => .infinite false
  | .nan => .nan

/-- The opposite. -/
def neg : Double → Double
  | .finite s m q h => .finite (!s) m q h
  | .infinite s => .infinite (!s)
  | .nan => .nan

/-- The two mantissas over the smaller exponent, as signed integers. -/
def aligned (s₁ : Bool) (m₁ : Nat) (q₁ : Int) (s₂ : Bool) (m₂ : Nat) (q₂ : Int) : Int × Int :=
  let q := min q₁ q₂
  let a : Int := (m₁ * Nat.pow 2 (q₁ - q).toNat : Nat)
  let b : Int := (m₂ * Nat.pow 2 (q₂ - q).toNat : Nat)
  (if s₁ then -a else a, if s₂ then -b else b)

/-- Numeric order; comparisons with the not-a-number value are false. -/
def lt : Double → Double → Bool
  | .finite s₁ m₁ q₁ _, .finite s₂ m₂ q₂ _ =>
    let (a, b) := aligned s₁ m₁ q₁ s₂ m₂ q₂
    decide (a < b)
  | .infinite s₁, .infinite s₂ => s₁ && !s₂
  | .infinite s, .finite .. => s
  | .finite .., .infinite s => !s
  | _, _ => false

/-- Numeric equality: the two zeros are equal and the not-a-number value differs from itself. -/
def eq : Double → Double → Bool
  | .finite s₁ m₁ q₁ _, .finite s₂ m₂ q₂ _ =>
    let (a, b) := aligned s₁ m₁ q₁ s₂ m₂ q₂
    decide (a = b)
  | .infinite s₁, .infinite s₂ => s₁ == s₂
  | _, _ => false

/-- Numeric order or equality. -/
def le (a b : Double) : Bool := lt a b || eq a b

/-- The exact value of an integral double. -/
def toInt? : Double → Option Int
  | .finite s m q _ =>
    let n? : Option Nat :=
      if q ≥ 0 then some (m * Nat.pow 2 q.toNat)
      else if m % Nat.pow 2 (-q).toNat = 0 then some (m / Nat.pow 2 (-q).toNat) else none
    n?.map fun n => if s then -(n : Int) else n
  | _ => none

/-- The exact value as a ratio: sign, numerator and denominator. -/
def toRatio? : Double → Option (Bool × Nat × Nat)
  | .finite s m q _ =>
    if q ≥ 0 then some (s, m * Nat.pow 2 q.toNat, 1) else some (s, m, Nat.pow 2 (-q).toNat)
  | _ => none

/-- The difference of two finite doubles, rounded once; anything else is not a number. -/
def sub (a b : Double) : Double :=
  match a, b with
  | .finite s₁ m₁ q₁ _, .finite s₂ m₂ q₂ _ =>
    let (x, y) := aligned s₁ m₁ q₁ s₂ m₂ q₂
    let d := x - y
    let q := min q₁ q₂
    let (num, den) := if q ≥ 0 then (d.natAbs * Nat.pow 2 q.toNat, 1) else (d.natAbs, Nat.pow 2 (-q).toNat)
    ofRatio (decide (d < 0)) num den
  | _, _ => .nan

/-- The quotient of two finite doubles, rounded once; anything else is not a number. -/
def div (a b : Double) : Double :=
  match a.toRatio?, b.toRatio? with
  | some (s₁, n₁, d₁), some (s₂, n₂, d₂) =>
    if n₂ = 0 then (if n₁ = 0 then .nan else .infinite (s₁ != s₂))
    else ofRatio (s₁ != s₂) (n₁ * d₂) (d₁ * n₂)
  | _, _ => .nan

/-- The product of two finite doubles, rounded once; anything else is not a number. -/
def mul (a b : Double) : Double :=
  match a.toRatio?, b.toRatio? with
  | some (s₁, n₁, d₁), some (s₂, n₂, d₂) => ofRatio (s₁ != s₂) (n₁ * n₂) (d₁ * d₂)
  | _, _ => .nan

/-! ## Shortest decimals -/

/-- The decimal `digits · 10^exponent`. -/
structure Decimal where
  digits : Nat
  exponent : Int
  deriving DecidableEq, Repr, Inhabited

/-- Removes the zeros at the end of `digits`, at most `fuel` of them. -/
def Decimal.trim (d : Decimal) : Nat → Decimal
  | 0 => d
  | fuel + 1 =>
    if d.digits ≠ 0 ∧ d.digits % 10 = 0 then
      Decimal.trim ⟨d.digits / 10, d.exponent + 1⟩ fuel
    else d

/-- The rounding interval of `m · 2^q` over the unit `2^(q-2)`: its two ends and the value. -/
def interval (m : Nat) (q : Int) : Nat × Nat × Nat :=
  let low := if m = Nat.pow 2 52 ∧ q > minExponent then 4 * m - 1 else 4 * m - 2
  (low, 4 * m, 4 * m + 2)

/-- Whether `d · 10^k` lies in the rounding interval of `m · 2^q`; the ends count when `m` is even. -/
def covers (m : Nat) (q : Int) (d : Nat) (k : Int) : Bool :=
  let (low, _, high) := interval m q
  let two : Int := q - 2
  let left := d * Nat.pow 10 k.toNat * Nat.pow 2 (-two).toNat
  let unit := Nat.pow 2 two.toNat * Nat.pow 10 (-k).toNat
  if m % 2 = 0 then decide (low * unit ≤ left ∧ left ≤ high * unit)
  else decide (low * unit < left ∧ left < high * unit)

/-- The value `m · 2^q` measured in units of `10^k`: quotient, remainder and divisor. -/
def inUnits (m : Nat) (q : Int) (k : Int) : Nat × Nat × Nat :=
  let num := m * Nat.pow 2 q.toNat * Nat.pow 10 (-k).toNat
  let den := Nat.pow 2 (-q).toNat * Nat.pow 10 k.toNat
  (num / den, num % den, den)

/-- The number of decimal digits of a natural number. -/
def digitCount (n : Nat) : Nat := (Nat.toDigits 10 n).length

/-- The decimal exponent of the leading digit of `m · 2^q`. -/
def leadingExponent (m : Nat) (q : Int) : Int :=
  if q ≥ 0 then (digitCount (m * Nat.pow 2 q.toNat) : Int) - 1
  else
    let whole := m / Nat.pow 2 (-q).toNat
    if whole ≠ 0 then (digitCount whole : Int) - 1
    else
      -- Scaled by `10^400` every positive double has a leading digit before the point.
      (digitCount (m * Nat.pow 10 400 / Nat.pow 2 (-q).toNat) : Int) - 401

/-- Of the two neighbours of the value on the grid of `10^k`, the one inside the rounding interval;
of two the nearer, a tie going to the even one. -/
def gridHit (m : Nat) (q : Int) (k : Int) : Option Decimal :=
  let (below, r, den) := inUnits m q k
  let lowHit := below ≠ 0 ∧ covers m q below k
  let highHit := covers m q (below + 1) k
  if lowHit ∧ highHit then
    if 2 * r < den then some ⟨below, k⟩
    else if den < 2 * r then some ⟨below + 1, k⟩
    else if below % 2 = 0 then some ⟨below, k⟩ else some ⟨below + 1, k⟩
  else if lowHit then some ⟨below, k⟩
  else if highHit then some ⟨below + 1, k⟩
  else none

/-- Tries ever finer grids, starting at `10^k`. -/
def searchGrids (m : Nat) (q : Int) : Nat → Int → Decimal
  | 0, k => ⟨(inUnits m q k).1, k⟩
  | fuel + 1, k =>
    match gridHit m q k with
    | some d => d
    | none => searchGrids m q fuel (k - 1)

/-- The shortest decimal that reads back as `m · 2^q`, without zeros at its end. -/
def shortest (m : Nat) (q : Int) : Decimal :=
  if m = 0 then ⟨0, 0⟩ else (searchGrids m q 18 (leadingExponent m q)).trim 400

end Double

end Abridge
