import Abridge.Literal.Table
import Abridge.Proofs.Spans
import Mathlib.Algebra.Order.Field.Rat
import Mathlib.Data.Nat.Cast.Order.Field
import Mathlib.Algebra.Order.Field.Power
import Mathlib.Tactic.FieldSimp
import Mathlib.Tactic.GCongr
import Mathlib.Tactic.Linarith
import Mathlib.Tactic.NormNum
import Mathlib.Tactic.Ring

/-!
# The text of a number determines the number

Two literals are the same for a run when they have the same identity, and the identity of a number is
its text.  So a key stands for one number only if no two doubles are written alike.

The argument is about rounding intervals.  The decimal that is written for a double lies in the
interval of the decimals that read back as it, which the search for the shortest one reaches after at
most seventeen steps (`Double.near_shortest`).  The intervals of two doubles meet at most in a
common end, and that end belongs to the even mantissa alone (`Double.eq_of_near`).  The layout of the
digits loses nothing (`Decimal.value_of_positional`).

Everything is measured in rationals: `2^q` and `10^k` are then powers with an integer exponent, and the
two cases of every definition, one for each sign of the exponent, become one.

## What is here

* `Double.covers_iff`: what it means for a decimal to lie in an interval.
* `Double.display_injective`: finite doubles with the same text are equal.
* `Literal.identity_injective`: so are literals with the same identity.
-/

set_option autoImplicit false

namespace Abridge

namespace Double

/-! ## Powers with integer exponents -/

theorem zpow_eq_div (b : ℚ) (k : ℤ) : b ^ k = b ^ k.toNat / b ^ (-k).toNat := by
  obtain ⟨n, rfl | rfl⟩ := k.eq_nat_or_neg
  · simp
  · simp [zpow_neg]

/-- A comparison of products of natural powers is one of products with integer powers. -/
theorem scaled_le_iff (a d : ℕ) (two ten : ℤ) :
    a * (2 ^ two.toNat * 10 ^ (-ten).toNat) ≤ d * 10 ^ ten.toNat * 2 ^ (-two).toNat ↔
      (a : ℚ) * 2 ^ two ≤ d * 10 ^ ten := by
  rw [zpow_eq_div 2 two, zpow_eq_div 10 ten, ← mul_div_assoc, ← mul_div_assoc,
    div_le_div_iff₀ (by positivity) (by positivity), ← Nat.cast_le (α := ℚ)]
  push_cast
  rw [mul_assoc (a : ℚ)]

theorem le_scaled_iff (a d : ℕ) (two ten : ℤ) :
    d * 10 ^ ten.toNat * 2 ^ (-two).toNat ≤ a * (2 ^ two.toNat * 10 ^ (-ten).toNat) ↔
      (d : ℚ) * 10 ^ ten ≤ a * 2 ^ two := by
  rw [zpow_eq_div 2 two, zpow_eq_div 10 ten, ← mul_div_assoc, ← mul_div_assoc,
    div_le_div_iff₀ (by positivity) (by positivity), ← Nat.cast_le (α := ℚ)]
  push_cast
  rw [mul_assoc (a : ℚ)]

/-! ## Rounding intervals -/

/-- The number that a decimal stands for. -/
def Decimal.value (d : Decimal) : ℚ := d.digits * 10 ^ d.exponent

/-- The lower end of the rounding interval of `m · 2^q`. -/
def lower (m : ℕ) (q : ℤ) : ℚ := (interval m q).1 * 2 ^ (q - 2)

/-- The upper end of the rounding interval of `m · 2^q`. -/
def upper (m : ℕ) (q : ℤ) : ℚ := (interval m q).2.2 * 2 ^ (q - 2)

/-- A value lies in the rounding interval of `m · 2^q`, whose ends count when `m` is even. -/
def Near (m : ℕ) (q : ℤ) (x : ℚ) : Prop :=
  if m % 2 = 0 then lower m q ≤ x ∧ x ≤ upper m q else lower m q < x ∧ x < upper m q

theorem covers_iff {m d : ℕ} {q k : ℤ} : covers m q d k = true ↔ Near m q (d * 10 ^ k) := by
  unfold covers Near lower upper
  simp only [Nat.pow_eq]
  split
  · rw [decide_eq_true_iff, scaled_le_iff, le_scaled_iff]
  · rw [decide_eq_true_iff, ← not_le, ← not_le, le_scaled_iff, scaled_le_iff, not_le, not_le]

theorem Near.le {m : ℕ} {q : ℤ} {x : ℚ} (h : Near m q x) : lower m q ≤ x ∧ x ≤ upper m q := by
  unfold Near at h
  split at h
  · exact h
  · exact ⟨h.1.le, h.2.le⟩

theorem Near.of_lt {m : ℕ} {q : ℤ} {x : ℚ} (h : lower m q < x) (h' : x < upper m q) :
    Near m q x := by
  unfold Near
  split
  · exact ⟨h.le, h'.le⟩
  · exact ⟨h, h'⟩

/-- Only the interval of an even mantissa has ends. -/
theorem Near.lt_of_odd {m : ℕ} {q : ℤ} {x : ℚ} (h : Near m q x) (hm : m % 2 = 1) :
    lower m q < x ∧ x < upper m q := by
  rwa [Near, if_neg (by omega)] at h

theorem two_zpow_sub_two (q : ℤ) : (2 : ℚ) ^ q = 4 * 2 ^ (q - 2) := by
  rw [show q = 2 + (q - 2) by ring, zpow_add₀ two_ne_zero]
  norm_num

theorem upper_eq (m : ℕ) (q : ℤ) : upper m q = (m + 1 / 2) * 2 ^ q := by
  rw [upper, interval, two_zpow_sub_two q]
  push_cast
  ring

/-- The lower end is half a unit below the value, or a quarter where the exponent changes. -/
theorem le_lower (m : ℕ) (q : ℤ) : (m - 1 / 2) * 2 ^ q ≤ lower m q := by
  rw [lower, interval, two_zpow_sub_two q, ← mul_assoc]
  refine mul_le_mul_of_nonneg_right ?_ (by positivity)
  have hlow : (4 * m - 2 : ℤ) ≤ (if m = Nat.pow 2 52 ∧ q > minExponent then 4 * m - 1 else 4 * m - 2 : ℕ) := by
    split <;> omega
  have hlow' := (Int.cast_le (R := ℚ)).2 hlow
  push_cast at hlow' ⊢
  linarith

theorem lower_le {m : ℕ} (hm : m ≠ 0) (q : ℤ) : lower m q ≤ (m - 1 / 4) * 2 ^ q := by
  rw [lower, interval, two_zpow_sub_two q, ← mul_assoc]
  refine mul_le_mul_of_nonneg_right ?_ (by positivity)
  have hlow : (if m = Nat.pow 2 52 ∧ q > minExponent then 4 * m - 1 else 4 * m - 2 : ℕ) ≤ (4 * m - 1 : ℤ) := by
    split <;> omega
  have hlow' := (Int.cast_le (R := ℚ)).2 hlow
  push_cast at hlow' ⊢
  linarith

theorem lower_of_power {q : ℤ} (hq : minExponent < q) :
    lower (2 ^ 52) q = (2 ^ 52 - 1 / 4) * 2 ^ q := by
  rw [lower, interval, two_zpow_sub_two q, if_pos ⟨rfl, hq⟩]
  norm_num
  ring

/-! ## Intervals of different doubles -/

/-- A mantissa and an exponent as in the format, but for the greatest exponent. -/
structure IsNormal (m : ℕ) (q : ℤ) : Prop where
  least : minExponent ≤ q
  bits : m < 2 ^ 53
  full : 2 ^ 52 ≤ m ∨ q = minExponent

/-- The format holds the number one. -/
theorem isCanonical_one : IsCanonical 4503599627370496 (-52) := by decide

theorem IsCanonical.isNormal {m : ℕ} {q : ℤ} (h : IsCanonical m q) : IsNormal m q :=
  ⟨h.1, h.2.2.1, h.2.2.2⟩

/-- The value `m · 2^q` decides the order of the intervals: that of the smaller one ends where that of
the larger one begins, or before. -/
theorem upper_le_lower {m m' : ℕ} {q q' : ℤ} (h : IsNormal m q) (h' : IsNormal m' q')
    (hlt : q < q' ∨ q = q' ∧ m < m') : upper m q ≤ lower m' q' := by
  obtain ⟨hmin, hm, -⟩ := h
  obtain ⟨-, -, hm'⟩ := h'
  rw [upper_eq]
  rcases hlt with hq | ⟨rfl, hm''⟩
  · have hpow : (2 : ℚ) * 2 ^ q ≤ 2 ^ q' := by
      rw [← zpow_one_add₀ two_ne_zero]
      exact zpow_le_zpow_right₀ (by norm_num) (by omega)
    have hpos : (0 : ℚ) < 2 ^ q := by positivity
    have hmax : (m : ℚ) ≤ 2 ^ 53 - 1 := by
      have : m + 1 ≤ 2 ^ 53 := hm
      have hcast : ((m + 1 : ℕ) : ℚ) ≤ (2 ^ 53 : ℕ) := Nat.cast_le.2 this
      push_cast at hcast
      linarith
    rcases Nat.lt_or_ge (2 ^ 52) m' with hbig | hsmall
    · refine le_trans ?_ (le_lower m' q')
      have hcast : (2 ^ 52 + 1 : ℚ) ≤ m' := by exact_mod_cast hbig
      nlinarith
    · have heq : m' = 2 ^ 52 := by
        rcases hm' with hm' | hm'
        · exact le_antisymm hsmall hm'
        · omega
      rw [heq, lower_of_power (by omega)]
      nlinarith
  · refine le_trans ?_ (le_lower m' q)
    have hcast : (m + 1 : ℚ) ≤ m' := by exact_mod_cast hm''
    have hpos : (0 : ℚ) < 2 ^ q := by positivity
    nlinarith

/-- Two even mantissas leave room for an odd one between them, so their intervals have no common
end. -/
theorem upper_lt_lower {m m' : ℕ} {q q' : ℤ} (h : IsNormal m q) (h' : IsNormal m' q')
    (hlt : q < q' ∨ q = q' ∧ m < m') (hm : m % 2 = 0) (hm' : m' % 2 = 0) :
    upper m q < lower m' q' := by
  have hnext : IsNormal (m + 1) q := by
    obtain ⟨hleast, hbits, hfull⟩ := h
    exact ⟨hleast, by omega, hfull.imp_left Nat.le_succ_of_le⟩
  have hlt' : q < q' ∨ q = q' ∧ m + 1 < m' := by omega
  refine lt_of_lt_of_le ?_ (upper_le_lower hnext h' hlt')
  rw [upper_eq, upper_eq]
  push_cast
  have hpos : (0 : ℚ) < 2 ^ q := by positivity
  nlinarith

theorem not_near_of_lt {m m' : ℕ} {q q' : ℤ} {x : ℚ} (h : IsNormal m q)
    (h' : IsNormal m' q') (hlt : q < q' ∨ q = q' ∧ m < m') (hx : Near m q x) :
    ¬ Near m' q' x := by
  intro hx'
  have hends := upper_le_lower h h' hlt
  rcases Nat.mod_two_eq_zero_or_one m with hm | hm
  · rcases Nat.mod_two_eq_zero_or_one m' with hm' | hm'
    · have := upper_lt_lower h h' hlt hm hm'
      linarith [hx.le.2, hx'.le.1]
    · linarith [hx.le.2, (hx'.lt_of_odd hm').1]
  · linarith [(hx.lt_of_odd hm).2, hx'.le.1]

/-- **A value lies in the rounding interval of one double only.** -/
theorem eq_of_near {m m' : ℕ} {q q' : ℤ} {x : ℚ} (h : IsNormal m q) (h' : IsNormal m' q')
    (hx : Near m q x) (hx' : Near m' q' x) : m = m' ∧ q = q' := by
  by_contra hne
  have horder : (q < q' ∨ q = q' ∧ m < m') ∨ (q' < q ∨ q' = q ∧ m' < m) := by omega
  rcases horder with hlt | hlt
  · exact not_near_of_lt h h' hlt hx hx'
  · exact not_near_of_lt h' h hlt hx' hx

/-! ## The search for the shortest decimal -/

theorem Decimal.value_trim (d : Decimal) (fuel : ℕ) : (d.trim fuel).value = d.value := by
  induction fuel generalizing d with
  | zero => rfl
  | succ fuel ih =>
    rw [Decimal.trim]
    split
    · rename_i hzero
      rw [ih, Decimal.value, Decimal.value, zpow_add_one₀ (by norm_num)]
      obtain ⟨n, hn⟩ := Nat.dvd_of_mod_eq_zero hzero.2
      rw [hn, Nat.mul_div_cancel_left n (by norm_num)]
      push_cast
      ring
    · rfl

/-- What the search takes lies in the interval. -/
theorem near_of_gridHit {m : ℕ} {q k : ℤ} {d : Decimal} (h : gridHit m q k = some d) :
    Near m q d.value := by
  unfold gridHit at h
  simp only at h
  have hd : covers m q d.digits d.exponent = true := by
    split at h
    · rename_i hboth
      split at h
      · cases h
        exact hboth.1.2
      split at h
      · cases h
        exact hboth.2
      split at h
      · cases h
        exact hboth.1.2
      · cases h
        exact hboth.2
    split at h
    · rename_i hlow
      cases h
      exact hlow.2
    split at h
    · rename_i hhigh
      cases h
      exact hhigh
    · cases h
  exact covers_iff.1 hd

/-- The search finds something in the interval when one of its grids meets it. -/
theorem near_searchGrids {m : ℕ} {q : ℤ} :
    ∀ {fuel : ℕ} {k : ℤ}, (∃ i < fuel, gridHit m q (k - i) ≠ none) →
      Near m q (searchGrids m q fuel k).value
  | 0, _, ⟨i, hi, _⟩ => absurd hi (Nat.not_lt_zero i)
  | fuel + 1, k, ⟨i, hi, hhit⟩ => by
    rw [searchGrids]
    split
    · rename_i d hd
      exact near_of_gridHit hd
    · rename_i hnone
      refine near_searchGrids ?_
      cases i with
      | zero => simp [hnone] at hhit
      | succ i => exact ⟨i, by omega, by rwa [show k - 1 - (i : ℤ) = k - (i + 1 : ℕ) by push_cast; ring]⟩

theorem pow_digitCount_le {n : ℕ} (hn : n ≠ 0) : (10 : ℚ) ^ ((digitCount n : ℤ) - 1) ≤ n := by
  have hpos : 0 < digitCount n := Nat.length_toDigits_pos
  obtain ⟨k, hk⟩ : ∃ k, digitCount n = k + 1 := ⟨digitCount n - 1, by omega⟩
  rw [hk, Nat.cast_succ, add_sub_cancel_right, zpow_natCast]
  have hle : 10 ^ k ≤ n := by
    rcases Nat.eq_zero_or_pos k with rfl | hkpos
    · rw [pow_zero]
      exact Nat.pos_of_ne_zero hn
    · by_contra hlt
      have hlen : (Nat.toDigits 10 n).length ≤ k :=
        (Nat.length_toDigits_le_iff (by norm_num) hkpos).2 (by omega)
      rw [digitCount] at hk
      omega
  exact_mod_cast hle

/-- The value `m · 2^q`, over the naturals that a definition splits it into. -/
theorem div_le_value (m c : ℕ) (q : ℤ) :
    ((m * 2 ^ q.toNat * c / 2 ^ (-q).toNat : ℕ) : ℚ) ≤ m * 2 ^ q * c := by
  rw [zpow_eq_div 2 q]
  refine le_trans Nat.cast_div_le ?_
  push_cast
  rw [← mul_div_assoc, div_mul_eq_mul_div]

/-- A positive double scaled by `10^n` shows its leading digit once it is at least one. -/
theorem pow_digitCount_scaled_le {m n : ℕ} {q : ℤ} (hq : q.toNat = 0)
    (hone : 2 ^ (-q).toNat ≤ m * 10 ^ n) :
    (10 : ℚ) ^ ((digitCount (m * 10 ^ n / 2 ^ (-q).toNat) : ℤ) - (n + 1)) ≤ m * 2 ^ q := by
  have hne : m * 10 ^ n / 2 ^ (-q).toNat ≠ 0 := (Nat.div_pos hone (by positivity)).ne'
  have hvalue : ((m * 10 ^ n / 2 ^ (-q).toNat : ℕ) : ℚ) ≤ m * 2 ^ q * 10 ^ n := by
    have := div_le_value m (10 ^ n) q
    rwa [hq, pow_zero, mul_one, Nat.cast_pow, Nat.cast_ofNat] at this
  have hsplit : (10 : ℚ) ^ ((digitCount (m * 10 ^ n / 2 ^ (-q).toNat) : ℤ) - 1) =
      10 ^ ((digitCount (m * 10 ^ n / 2 ^ (-q).toNat) : ℤ) - (n + 1)) * 10 ^ n := by
    rw [← zpow_natCast (10 : ℚ) n, ← zpow_add₀ (by norm_num)]
    congr 1
    ring
  refine le_of_mul_le_mul_right ?_ (by positivity : (0 : ℚ) < 10 ^ n)
  rw [← hsplit]
  exact (pow_digitCount_le hne).trans hvalue

/-- The leading digit of a positive double stands where `leadingExponent` says, or further left. -/
theorem pow_leadingExponent_le {m : ℕ} {q : ℤ} (hm : m ≠ 0) (h : minExponent ≤ q) :
    (10 : ℚ) ^ leadingExponent m q ≤ m * 2 ^ q := by
  unfold leadingExponent
  simp only [Nat.pow_eq (m := 2)]
  split
  · rename_i hq
    refine (pow_digitCount_le (by positivity)).trans ?_
    obtain ⟨n, rfl⟩ := Int.eq_ofNat_of_zero_le hq
    simp
  · rename_i hq
    have hfrac : q.toNat = 0 := by omega
    split
    · rename_i hwhole
      refine (pow_digitCount_le hwhole).trans ?_
      simpa [hfrac] using div_le_value m 1 q
    · have hpow : ∀ n : ℕ, (2 : ℕ) ^ (3 * n) ≤ 10 ^ n := fun n => by
        rw [Nat.pow_mul]
        exact Nat.pow_le_pow_left (by norm_num) n
      have hscale : (2 : ℕ) ^ (-q).toNat ≤ 10 ^ 400 := by
        refine (Nat.pow_le_pow_right (by norm_num) ?_).trans (hpow 400)
        unfold minExponent at h
        omega
      exact pow_digitCount_scaled_le hfrac
        (hscale.trans (Nat.le_mul_of_pos_left _ (Nat.pos_of_ne_zero hm)))

/-- The value lies between its two neighbours on a grid. -/
theorem inUnits_bounds (m : ℕ) (q k : ℤ) :
    ((inUnits m q k).1 : ℚ) * 10 ^ k ≤ m * 2 ^ q ∧
      m * 2 ^ q < (((inUnits m q k).1 + 1 : ℕ) : ℚ) * 10 ^ k := by
  have hden : 0 < 2 ^ (-q).toNat * 10 ^ k.toNat := by positivity
  have hbelow := Nat.div_mul_le_self (m * 2 ^ q.toNat * 10 ^ (-k).toNat)
    (2 ^ (-q).toNat * 10 ^ k.toNat)
  have habove := Nat.lt_mul_div_succ (m * 2 ^ q.toNat * 10 ^ (-k).toNat) hden
  unfold inUnits
  simp only [Nat.pow_eq]
  constructor
  · rw [← le_scaled_iff]
    linarith
  · rw [← not_le, ← le_scaled_iff, not_le]
    linarith

/-- The seventeenth grid below the leading digit is finer than the rounding interval. -/
theorem gridHit_ne_none {m : ℕ} {q : ℤ} (hm : m ≠ 0) (h : IsCanonical m q) :
    gridHit m q (leadingExponent m q - 17) ≠ none := by
  set k := leadingExponent m q - 17 with hk
  obtain ⟨hbelow, habove⟩ := inUnits_bounds m q k
  have hlead := pow_leadingExponent_le hm h.1
  have hten : (10 : ℚ) ^ leadingExponent m q = 10 ^ 17 * 10 ^ k := by
    rw [hk, ← zpow_natCast (10 : ℚ) 17, ← zpow_add₀ (by norm_num)]
    congr 1
    push_cast
    ring
  have hsmall : (m : ℚ) < 2 ^ 53 := by exact_mod_cast h.2.2.1
  have hpos : (0 : ℚ) < 2 ^ q := by positivity
  have hgrid : (0 : ℚ) < 10 ^ k := by positivity
  -- One step of the grid is less than a quarter of the unit of the mantissa.
  have hfine : (10 : ℚ) ^ k < 1 / 4 * 2 ^ q := by
    rw [hten] at hlead
    nlinarith
  have hne : (inUnits m q k).1 ≠ 0 := by
    intro hzero
    rw [hzero] at habove
    push_cast at habove
    rw [hten] at hlead
    linarith
  have hcovers : covers m q (inUnits m q k).1 k = true := by
    refine covers_iff.2 (Near.of_lt ?_ ?_)
    · refine lt_of_le_of_lt (lower_le hm q) ?_
      push_cast at habove
      linarith
    · refine lt_of_le_of_lt hbelow ?_
      rw [upper_eq]
      linarith
  intro hnone
  unfold gridHit at hnone
  simp only at hnone
  split_ifs at hnone with _ _ _ _ hlow
  exact hlow ⟨hne, hcovers⟩

/-- **The shortest decimal of a double reads back as it**: it lies in the rounding interval. -/
theorem near_shortest {m : ℕ} {q : ℤ} (h : IsCanonical m q) : Near m q (shortest m q).value := by
  unfold shortest
  split
  · rename_i hm
    subst hm
    have hpos : (0 : ℚ) < 2 ^ q := by positivity
    rw [Near, if_pos rfl, upper_eq, lower, interval, Decimal.value]
    simp
    positivity
  · rename_i hm
    rw [Decimal.value_trim]
    exact near_searchGrids ⟨17, by norm_num, gridHit_ne_none hm h⟩

/-! ## Layout -/

/-- What is read from digits is what the digits were written for. -/
theorem digitsNumber_eq (cs : List Char) : digitsNumber cs = Nat.ofDigitChars 10 cs 0 := rfl

theorem toList_copies (n : ℕ) (c : Char) : (copies n c).toList = List.replicate n c :=
  String.toList_ofList

theorem toList_toString (n : ℕ) : (toString n).toList = Nat.toDigits 10 n := by
  rw [Nat.toString_eq_ofList_toDigits, String.toList_ofList]

theorem isDigit_of_mem_toString {n : ℕ} {c : Char} (h : c ∈ (toString n).toList) :
    c.isDigit = true := by
  rw [toList_toString] at h
  exact Nat.isDigit_of_mem_toDigits (by norm_num) (by norm_num) h

theorem isDigit_of_mem_replicate {n : ℕ} {c : Char} (h : c ∈ List.replicate n '0') :
    c.isDigit = true := by
  rw [List.eq_of_mem_replicate h]
  rfl

/-- A point and the digits after it; nothing for no digits. -/
def afterPoint : List Char → List Char
  | [] => []
  | d :: ds => '.' :: d :: ds

namespace Decimal

/-- Both sides of the point are digits. -/
theorem isDigit_of_mem_split {d : Decimal} {c : Char}
    (h : c ∈ d.split.1.toList ++ d.split.2.toList) : c.isDigit = true := by
  unfold split at h
  simp only at h
  split_ifs at h
  · simp only [String.toList_append, toList_copies, List.mem_append] at h
    rcases h with (h | h) | h
    · exact isDigit_of_mem_toString h
    · exact isDigit_of_mem_replicate h
    · exact absurd h (by simp)
  · rw [String.toList_ofList, String.toList_ofList, List.take_append_drop] at h
    exact isDigit_of_mem_toString h
  · simp only [String.toList_append, toList_copies, List.mem_append] at h
    rcases h with h | h | h
    · have : c = '0' := by simpa using h
      rw [this]
      rfl
    · exact isDigit_of_mem_replicate h
    · exact isDigit_of_mem_toString h

/-- The digits on both sides of the point, and the place of the point, give the value. -/
theorem value_eq_split (d : Decimal) :
    d.value = digitsNumber (d.split.1.toList ++ d.split.2.toList) *
      10 ^ (-(d.split.2.length : ℤ)) := by
  have hdigits : Nat.ofDigitChars 10 (toString d.digits).toList 0 = d.digits := by
    rw [toList_toString, Nat.ofDigitChars_ten_toDigits]
  rw [digitsNumber_eq, value]
  unfold split
  simp only
  split_ifs with hexp hlong
  · obtain ⟨n, hn⟩ := Int.eq_ofNat_of_zero_le hexp
    simp only [String.toList_append, toList_copies, Nat.ofDigitChars_append, hdigits, hn]
    simp [mul_comm]
  · rw [String.toList_ofList, String.toList_ofList, List.take_append_drop, hdigits]
    have hlen : (toString d.digits).toList.length = (toString d.digits).length :=
      String.length_toList
    have hplaces : (String.ofList ((toString d.digits).toList.drop
        ((toString d.digits).length - (-d.exponent).toNat))).length = (-d.exponent).toNat := by
      rw [String.length_ofList, List.length_drop, hlen]
      omega
    rw [hplaces, show -((-d.exponent).toNat : ℤ) = d.exponent by omega]
  · have hzero : Nat.ofDigitChars 10 "0".toList 0 = 0 := rfl
    simp only [String.toList_append, toList_copies, Nat.ofDigitChars_append, hzero,
      Nat.ofDigitChars_replicate_zero, Nat.mul_zero, hdigits]
    have hlen : (copies ((-d.exponent).toNat - (toString d.digits).length) '0' ++
        toString d.digits).length = (-d.exponent).toNat := by
      rw [String.length_append, copies, String.length_ofList, List.length_replicate]
      omega
    rw [hlen, show -((-d.exponent).toNat : ℤ) = d.exponent by omega]

theorem toList_positional (d : Decimal) :
    d.positional.toList = d.split.1.toList ++ afterPoint d.split.2.toList := by
  unfold positional
  split
  · rename_i whole hsplit
    simp [hsplit, afterPoint]
  · rename_i whole fraction hne hsplit
    cases hchars : fraction.toList with
    | nil => exact absurd (String.toList_inj.1 hchars) hne
    | cons c cs => simp [hsplit, hchars, afterPoint]

/-- The text of a decimal determines both sides of its point. -/
theorem split_eq_of_positional {d d' : Decimal} (h : d.positional = d'.positional) :
    d.split = d'.split := by
  have hsplit : ∀ d : Decimal, d.positional.toList.takeWhile Char.isDigit = d.split.1.toList ∧
      d.positional.toList.dropWhile Char.isDigit = afterPoint d.split.2.toList := by
    intro d
    have hwhole : ∀ c ∈ d.split.1.toList, c.isDigit = true := fun c hc =>
      isDigit_of_mem_split (List.mem_append_left _ hc)
    have hrest : ∀ c ∈ (afterPoint d.split.2.toList).head?, c.isDigit = false := by
      cases d.split.2.toList <;> simp [afterPoint]
    rw [toList_positional]
    exact span_append hwhole hrest
  have hinj : ∀ {xs ys : List Char}, afterPoint xs = afterPoint ys → xs = ys := by
    intro xs ys h
    cases xs <;> cases ys <;> simp_all [afterPoint]
  obtain ⟨hwhole, hrest⟩ := hsplit d
  obtain ⟨hwhole', hrest'⟩ := hsplit d'
  rw [h] at hwhole hrest
  exact Prod.ext (String.toList_inj.1 (hwhole.symm.trans hwhole'))
    (String.toList_inj.1 (hinj (hrest.symm.trans hrest')))

theorem value_of_positional {d d' : Decimal} (h : d.positional = d'.positional) :
    d.value = d'.value := by
  rw [value_eq_split, value_eq_split, split_eq_of_positional h]

/-- There is a digit before the point. -/
theorem whole_ne_nil (d : Decimal) : d.split.1.toList ≠ [] := by
  have hpos : 0 < (toString d.digits).toList.length := by
    rw [toList_toString]
    exact Nat.length_toDigits_pos
  unfold split
  simp only
  split_ifs with hexp hlong
  · rw [String.toList_append]
    exact List.append_ne_nil_of_left_ne_nil (List.ne_nil_of_length_pos hpos) _
  · rw [String.toList_ofList]
    refine List.ne_nil_of_length_pos ?_
    rw [List.length_take, String.length_toList]
    omega
  · simp

/-- A decimal starts with a digit. -/
theorem exists_positional_cons (d : Decimal) :
    ∃ c cs, d.positional.toList = c :: cs ∧ c.isDigit = true := by
  rw [toList_positional]
  cases hwhole : d.split.1.toList with
  | nil => exact absurd hwhole d.whole_ne_nil
  | cons c cs =>
    have hmem : c ∈ d.split.1.toList ++ d.split.2.toList := by simp [hwhole]
    exact ⟨c, _, rfl, isDigit_of_mem_split hmem⟩

/-- A positive number does not start with a zero. -/
theorem head_toDigits_ne {n : ℕ} (hn : n ≠ 0) : (Nat.toDigits 10 n).head? ≠ some '0' := by
  induction n using Nat.strongRecOn with
  | _ n ih =>
    rw [Nat.toDigits_eq_if (by norm_num)]
    split
    · have hdigits : ∀ k < 10, k ≠ 0 → Nat.digitChar k ≠ '0' := by decide
      simpa using hdigits n (by assumption) hn
    · rename_i hbig
      have hdiv : n / 10 ≠ 0 := by omega
      rw [List.head?_append_of_ne_nil _ Nat.toDigits_ne_nil]
      exact ih (n / 10) (by omega) hdiv

/-- The digits before the point start with a zero only when they are a single one. -/
theorem whole_zero {d : Decimal} (hd : d.digits ≠ 0 ∨ d.exponent = 0) :
    d.split.1.toList = ['0'] ∨ d.split.1.toList.head? ≠ some '0' := by
  have hpos : 0 < (toString d.digits).toList.length := by
    rw [toList_toString]
    exact Nat.length_toDigits_pos
  rcases Nat.eq_zero_or_pos d.digits with hzero | hne
  · have hexp : d.exponent = 0 := hd.resolve_left (not_not.2 hzero)
    left
    unfold split
    simp [hzero, hexp, copies]
  · have hhead : (toString d.digits).toList.head? ≠ some '0' := by
      rw [toList_toString]
      exact head_toDigits_ne hne.ne'
    unfold split
    simp only
    split_ifs with hexp hlong
    · right
      rwa [String.toList_append, List.head?_append_of_ne_nil _ (List.ne_nil_of_length_pos hpos)]
    · right
      rw [String.toList_ofList, List.head?_take]
      split
      · simp
      · exact hhead
    · exact .inl (by simp)

end Decimal

/-- The shortest decimal of a positive double is positive. -/
theorem digits_shortest {m : ℕ} {q : ℤ} (h : IsCanonical m q) :
    (shortest m q).digits ≠ 0 ∨ (shortest m q).exponent = 0 := by
  rcases Nat.eq_zero_or_pos m with rfl | hm
  · exact .inr rfl
  · left
    intro hzero
    have hnear := (near_shortest h).le.1
    rw [Decimal.value, hzero, Nat.cast_zero, zero_mul] at hnear
    have hlow := le_lower m q
    have hcast : (1 : ℚ) ≤ m := by exact_mod_cast hm
    have hpos : (0 : ℚ) < 2 ^ q := by positivity
    nlinarith

/-! ## Numbers and literals -/

/-- A decimal does not start with a sign. -/
theorem head_positional_ne (d : Decimal) : d.positional.toList.head? ≠ some '-' := by
  obtain ⟨c, cs, hlist, hdigit⟩ := d.exists_positional_cons
  rw [hlist]
  intro h
  have hc : c = '-' := by simpa using h
  rw [hc] at hdigit
  cases hdigit

theorem signText_append_inj {s s' : Bool} {d d' : Decimal}
    (h : signText s ++ d.positional = signText s' ++ d'.positional) :
    s = s' ∧ d.positional = d'.positional := by
  have hlist := congrArg String.toList h
  rw [String.toList_append, String.toList_append] at hlist
  cases s <;> cases s'
  · exact ⟨rfl, String.toList_inj.1 hlist⟩
  · exact absurd (congrArg List.head? hlist) (head_positional_ne d)
  · exact absurd (congrArg List.head? hlist).symm (head_positional_ne d')
  · exact ⟨rfl, String.toList_inj.1 (List.cons.inj hlist).2⟩

/-- **Finite doubles that are written alike are equal.** -/
theorem display_injective {x y : Double} (hx : x.isFinite = true) (hy : y.isFinite = true)
    (h : x.display = y.display) : x = y := by
  cases x with
  | infinite _ => cases hx
  | nan => cases hx
  | finite s m q hmq =>
    cases y with
    | infinite _ => cases hy
    | nan => cases hy
    | finite s' m' q' hmq' =>
      obtain ⟨rfl, htext⟩ := signText_append_inj h
      have hnear := near_shortest hmq
      rw [Decimal.value_of_positional htext] at hnear
      obtain ⟨rfl, rfl⟩ := eq_of_near hmq.isNormal hmq'.isNormal hnear (near_shortest hmq')
      rfl

end Double

/-- Whether a literal is one that declarations can be made of: a string or a finite number. -/
def Literal.isFinite : Literal → Bool
  | .string _ => true
  | .number x => x.isFinite

theorem Profile.isFinite_of_admits {p : Profile} {l : Literal} (h : p.admits l = true) :
    l.isFinite = true := by
  cases l with
  | string s => rfl
  | number x => exact (Bool.and_eq_true_iff.1 h).1

/-- **Literals with the same identity are equal.** -/
theorem Literal.identity_injective {l l' : Literal} (hl : l.isFinite = true)
    (hl' : l'.isFinite = true) (h : l.identity = l'.identity) : l = l' := by
  have hlist := congrArg String.toList h
  cases l with
  | string s =>
    cases l' with
    | string s' =>
      simp only [identity, String.toList_append] at hlist
      rw [String.toList_inj.1 (List.append_cancel_left hlist)]
    | number x' => exact absurd (congrArg List.head? hlist) (by simp [identity])
  | number x =>
    cases l' with
    | string s' => exact absurd (congrArg List.head? hlist) (by simp [identity])
    | number x' =>
      simp only [identity, String.toList_append] at hlist
      rw [Double.display_injective hl hl' (String.toList_inj.1 (List.append_cancel_left hlist))]

end Abridge
