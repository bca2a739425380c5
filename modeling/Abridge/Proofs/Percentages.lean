import Abridge.Manifest.Basic
import Abridge.Proofs.Rounding
import Mathlib.Algebra.Order.BigOperators.Group.List
import Mathlib.Data.Finset.Max

/-!
# Reductions as doubles

The percentage by which a module shrinks is computed in doubles: the sizes are read as doubles, and the
difference, the quotient and the product are rounded one after the other.  This file says what comes out.

Rounding keeps the order.  Sizes below `2^53` and their differences are doubles themselves, so of two
reductions the one with the greater quotient has the greater percentage (`reductionPercent_le`).  The
quotient of a sum is a weighted mean of the quotients of its parts, hence no sum of modules shrinks by
more than the module that shrinks most, in doubles as well as exactly.

## What is here

* `Double.value`, `Double.IsNearest`: the number that a double stands for, and the double that a number
  is rounded to.
* `reductionPercent_spec`: the two roundings of a reduction.
* `not_lt_reductionPercent_sum`: a bound on the percentages of the parts bounds that of the whole.
* `sum_reduction_le`: percentages below a bound mean reductions below it, up to rounding.
-/

set_option autoImplicit false

namespace Abridge

namespace Double

/-! ## Values -/

/-- The number that a finite double stands for; the others stand for nothing. -/
def value : Double → ℚ
  | .finite s m q _ => if s then -(m * 2 ^ q) else m * 2 ^ q
  | _ => 0

/-- The two mantissas over the smaller exponent. -/
theorem aligned_spec (s₁ : Bool) (m₁ : ℕ) (q₁ : ℤ) (h₁ : IsCanonical m₁ q₁) (s₂ : Bool) (m₂ : ℕ) (q₂ : ℤ)
    (h₂ : IsCanonical m₂ q₂) :
    ((aligned s₁ m₁ q₁ s₂ m₂ q₂).1 : ℚ) * 2 ^ min q₁ q₂ = value (.finite s₁ m₁ q₁ h₁) ∧
      ((aligned s₁ m₁ q₁ s₂ m₂ q₂).2 : ℚ) * 2 ^ min q₁ q₂ = value (.finite s₂ m₂ q₂ h₂) := by
  have hshift : ∀ (s : Bool) (m : ℕ) (q r : ℤ), r ≤ q →
      (((if s then -((m * Nat.pow 2 (q - r).toNat : ℕ) : ℤ) else ((m * Nat.pow 2 (q - r).toNat : ℕ) : ℤ)) : ℤ) : ℚ) *
          2 ^ r = if s then -(m * 2 ^ q : ℚ) else m * 2 ^ q := by
    intro s m q r hr
    have hpow : (2 : ℚ) ^ (q - r).toNat * 2 ^ r = 2 ^ q := by
      rw [← zpow_natCast, ← zpow_add₀ two_ne_zero]
      congr 1
      omega
    cases s
    · simp only [Bool.false_eq_true, if_false, Nat.pow_eq]
      push_cast
      rw [mul_assoc, hpow]
    · simp only [if_true, Nat.pow_eq]
      push_cast
      rw [neg_mul, mul_assoc, hpow]
  exact ⟨hshift s₁ m₁ q₁ _ (min_le_left _ _), hshift s₂ m₂ q₂ _ (min_le_right _ _)⟩

/-- **Finite doubles are compared by their values.** -/
theorem lt_iff {a b : Double} (ha : a.isFinite = true) (hb : b.isFinite = true) :
    lt a b = true ↔ a.value < b.value := by
  cases a with
  | finite s₁ m₁ q₁ h₁ =>
    cases b with
    | finite s₂ m₂ q₂ h₂ =>
      obtain ⟨ha, hb⟩ := aligned_spec s₁ m₁ q₁ h₁ s₂ m₂ q₂ h₂
      have hpow : (0 : ℚ) < 2 ^ min q₁ q₂ := by positivity
      rw [← ha, ← hb, mul_lt_mul_iff_left₀ hpow, Int.cast_lt]
      exact decide_eq_true_iff
    | _ => cases hb
  | _ => cases ha

/-! ## Nearest doubles -/

/-- A positive double nearest to a number. -/
def IsNearest (d : Double) (x : ℚ) : Prop := ∃ m q h, d = .finite false m q h ∧ Near m q x

theorem IsNearest.isFinite {d : Double} {x : ℚ} (h : IsNearest d x) : d.isFinite = true := by
  obtain ⟨m, q, _, rfl, -⟩ := h
  rfl

theorem IsNearest.isNegative {d : Double} {x : ℚ} (h : IsNearest d x) : d.isNegative = false := by
  obtain ⟨m, q, _, rfl, -⟩ := h
  rfl

/-- What a ratio is read as: the double in whose interval it lies, if its exponent is one of a double. -/
theorem exists_near {num den : ℕ} (hnum : num ≠ 0) (hden : den ≠ 0) (negative : Bool) :
    ∃ m q, IsNormal m q ∧ Near m q (num / den) ∧ ofRatio negative num den =
      if h : IsCanonical m q then .finite negative m q h else .infinite negative := by
  obtain ⟨q', hq'⟩ : ∃ q', exponentFor num den = q' := ⟨_, rfl⟩
  obtain ⟨⟨n, d⟩, hs⟩ : ∃ r, scaled num den q' = r := ⟨_, rfl⟩
  obtain ⟨m', hm'⟩ : ∃ m', roundDiv n d = m' := ⟨_, rfl⟩
  obtain ⟨hleast, hbits, hfull⟩ := exponentFor_spec hnum hden
  obtain ⟨hpos, hscaled⟩ := scaled_spec num (Nat.pos_of_ne_zero hden) q'
  rw [hs] at hpos hscaled
  have hround := rounds_roundDiv n hpos
  rw [hscaled, hm'] at hround
  rw [hq'] at hleast hbits hfull
  obtain ⟨⟨m, q⟩, hfound⟩ : ∃ r, (if m' = Nat.pow 2 53 then (Nat.pow 2 52, q' + 1) else (m', q')) = r :=
    ⟨_, rfl⟩
  have hread := ofRatio_eq hnum negative hq' hs hm' hfound
  rw [Nat.pow_eq, Nat.pow_eq] at hfound
  split_ifs at hfound with hover
  · cases hfound
    rw [hover] at hround
    exact ⟨_, _, ⟨by omega, by norm_num, .inl le_rfl⟩, near_of_rounds_over hleast hround hbits, hread⟩
  · cases hfound
    exact ⟨_, _, isNormal_of_rounds hleast hround hbits hfull hover,
      near_of_rounds (by positivity) hround fun _ hq => hfull.resolve_right (by omega), hread⟩

/-- A ratio is read as the double nearest to it or as infinite. -/
theorem ofRatio_cases {num den : ℕ} (hnum : num ≠ 0) (hden : den ≠ 0) :
    ofRatio false num den = .infinite false ∨ IsNearest (ofRatio false num den) (num / den) := by
  obtain ⟨m, q, -, hnear, hread⟩ := exists_near hnum hden false
  rw [hread]
  split
  · exact .inr ⟨m, q, _, rfl, hnear⟩
  · exact .inl rfl

/-- **A ratio that is not too large is read as the double nearest to it.** -/
theorem isNearest_ofRatio {num den : ℕ} {x : ℚ} (hden : den ≠ 0) (hx : (num / den : ℚ) = x) (hpos : 0 < x)
    (hsmall : x ≤ 2 ^ 60) : IsNearest (ofRatio false num den) x := by
  have hnum : num ≠ 0 := by
    rintro rfl
    rw [Nat.cast_zero, zero_div] at hx
    exact hpos.ne hx
  obtain ⟨m, q, hnormal, hnear, hread⟩ := exists_near hnum hden false
  -- An exponent that is too large belongs to an interval that is too far out.
  have hq : q ≤ maxExponent := by
    by_contra hlarge
    have hlarge : 60 ≤ q := by
      unfold maxExponent at hlarge
      omega
    have hfull : (2 : ℚ) ^ 52 ≤ m := by
      have := hnormal.full.resolve_right (by unfold minExponent; omega)
      exact_mod_cast this
    have hpow : (2 : ℚ) ^ 60 ≤ 2 ^ q := by
      rw [← zpow_natCast]
      exact zpow_le_zpow_right₀ one_le_two hlarge
    have hfar : (2 : ℚ) ^ 60 < x := calc
      (2 : ℚ) ^ 60 < 2 * 2 ^ 60 := by norm_num
      _ ≤ ((m : ℚ) - 1 / 2) * 2 ^ q := mul_le_mul (by linarith) hpow (by positivity) (by linarith)
      _ ≤ lower m q := le_lower m q
      _ ≤ x := hx ▸ hnear.le.1
    exact absurd hsmall (not_le.2 hfar)
  have hcanonical : IsCanonical m q := ⟨hnormal.least, hq, hnormal.bits, hnormal.full⟩
  exact ⟨m, q, hcanonical, hread.trans (dif_pos hcanonical), hx ▸ hnear⟩

/-- A smaller exponent gives a smaller value, and so does a smaller mantissa with the same exponent. -/
theorem value_lt {m m' : ℕ} {q q' : ℤ} (h : IsNormal m q) (h' : IsNormal m' q')
    (hlt : q < q' ∨ q = q' ∧ m < m') : (m * 2 ^ q : ℚ) < m' * 2 ^ q' := by
  have hpow : (0 : ℚ) < 2 ^ q := by positivity
  have hpow' : (0 : ℚ) < 2 ^ q' := by positivity
  have hm' : m' ≠ 0 := by
    rintro rfl
    rcases hlt with hq | ⟨-, hm⟩
    · exact absurd (h'.full.resolve_right (by have := h.least; omega)) (by norm_num)
    · omega
  calc (m * 2 ^ q : ℚ) < (m + 1 / 2) * 2 ^ q := by linarith
    _ = upper m q := (upper_eq m q).symm
    _ ≤ lower m' q' := upper_le_lower h h' hlt
    _ ≤ (m' - 1 / 4) * 2 ^ q' := lower_le hm' q'
    _ ≤ m' * 2 ^ q' := by linarith

/-- What lies in the interval of the smaller double is smaller. -/
theorem not_le_of_outside {m m' : ℕ} {q q' : ℤ} {x x' : ℚ} (h : IsNormal m q) (h' : IsNormal m' q')
    (hlt : q < q' ∨ q = q' ∧ m < m') (hx : Near m q x) (hx' : Near m' q' x') : ¬ x' ≤ x := by
  intro hle
  have hends := upper_le_lower h h' hlt
  have heq : x' = x := le_antisymm hle (hx.le.2.trans (hends.trans hx'.le.1))
  exact not_near_of_lt h h' hlt hx (heq ▸ hx')

/-- **Rounding keeps the order.** -/
theorem IsNearest.value_le {d d' : Double} {x x' : ℚ} (h : IsNearest d x) (h' : IsNearest d' x')
    (hle : x ≤ x') : d.value ≤ d'.value := by
  obtain ⟨m, q, hcanonical, rfl, hnear⟩ := h
  obtain ⟨m', q', hcanonical', rfl, hnear'⟩ := h'
  have hnormal := hcanonical.isNormal
  have hnormal' := hcanonical'.isNormal
  change (m * 2 ^ q : ℚ) ≤ m' * 2 ^ q'
  rcases lt_trichotomy q q' with hq | rfl | hq
  · exact (value_lt hnormal hnormal' (.inl hq)).le
  · rcases Nat.lt_or_ge m' m with hm | hm
    · exact absurd hle (not_le_of_outside hnormal' hnormal (.inr ⟨rfl, hm⟩) hnear' hnear)
    · gcongr
  · exact absurd hle (not_le_of_outside hnormal' hnormal (.inl hq) hnear' hnear)

/-! ## Natural numbers -/

/-- The natural numbers of at most 53 bits are doubles. -/
theorem exists_canonical {n : ℕ} (hn : n ≠ 0) (hbits : n < 2 ^ 53) :
    ∃ m q, IsCanonical m q ∧ (m * 2 ^ q : ℚ) = n := by
  have hlow : 2 ^ Nat.log2 n ≤ n := Nat.log2_self_le hn
  have hhigh : n < 2 ^ (Nat.log2 n + 1) := Nat.lt_log2_self
  have hlog : Nat.log2 n ≤ 52 := by
    by_contra hlarge
    have hpow : 2 ^ 53 ≤ 2 ^ Nat.log2 n := Nat.pow_le_pow_right two_pos (by omega)
    omega
  obtain ⟨k, hk⟩ : ∃ k, Nat.log2 n + k = 52 := ⟨52 - Nat.log2 n, by omega⟩
  refine ⟨n * 2 ^ k, -k, ⟨by unfold minExponent; omega, by unfold maxExponent; omega, ?_, .inl ?_⟩, ?_⟩
  · calc n * 2 ^ k < 2 ^ (Nat.log2 n + 1) * 2 ^ k := Nat.mul_lt_mul_of_pos_right hhigh (by positivity)
      _ = 2 ^ 53 := by rw [← pow_add, show Nat.log2 n + 1 + k = 53 by omega]
  · calc 2 ^ 52 = 2 ^ Nat.log2 n * 2 ^ k := by rw [← pow_add, hk]
      _ ≤ n * 2 ^ k := Nat.mul_le_mul_right _ hlow
  · push_cast
    rw [mul_assoc, zpow_neg, zpow_natCast, mul_inv_cancel₀ (by positivity), mul_one]

/-- A double lies in its own interval. -/
theorem near_self {m : ℕ} (hm : m ≠ 0) (q : ℤ) : Near m q (m * 2 ^ q) := by
  have hpow : (0 : ℚ) < 2 ^ q := by positivity
  refine .of_lt (lt_of_le_of_lt (lower_le hm q) ?_) ?_
  · linarith
  · rw [upper_eq]
    linarith

/-- The double nearest to a natural number of at most 53 bits is that number. -/
theorem IsNearest.value_eq {d : Double} {n : ℕ} (h : IsNearest d n) (hn : n ≠ 0) (hbits : n < 2 ^ 53) :
    d.value = n := by
  obtain ⟨m, q, hcanonical, rfl, hnear⟩ := h
  obtain ⟨m', q', hcanonical', hvalue⟩ := exists_canonical hn hbits
  have hm' : m' ≠ 0 := by
    rintro rfl
    rw [Nat.cast_zero, zero_mul] at hvalue
    exact hn (by exact_mod_cast hvalue.symm)
  have hnear' : Near m' q' n := hvalue ▸ near_self hm' q'
  obtain ⟨rfl, rfl⟩ := eq_of_near hcanonical.isNormal hcanonical'.isNormal hnear hnear'
  exact hvalue

theorem ofNat_eq (n : ℕ) : ofNat n = ofRatio false n 1 := by
  by_cases hn : n = 0
  · subst hn
    rfl
  · have hsize : ¬ ((Nat.log2 n : ℤ) / 3 + 1 + 0 > 400 ∧ (0 : ℤ) > 310) := by omega
    have hsize' : ¬ (Nat.log2 n : ℤ) / 3 + 1 + 0 < -400 := by omega
    unfold ofNat ofDecimal
    rw [if_neg hn]
    dsimp only
    rw [if_neg hsize, if_neg hsize', if_pos (by decide)]
    exact congrArg (ofRatio false · 1) (Nat.mul_one n)

theorem isNearest_ofNat {n : ℕ} (hn : n ≠ 0) (hbits : n < 2 ^ 53) : IsNearest (ofNat n) n := by
  rw [ofNat_eq]
  have hle : ((n : ℕ) : ℚ) ≤ 2 ^ 60 := by
    have hcast : (n : ℚ) < (2 ^ 53 : ℕ) := Nat.cast_lt.2 hbits
    push_cast at hcast
    linarith
  exact isNearest_ofRatio one_ne_zero (by rw [Nat.cast_one, div_one])
    (Nat.cast_pos.2 (Nat.pos_of_ne_zero hn)) hle

/-- Natural numbers of at most 53 bits are written exactly. -/
theorem ofNat_spec {n : ℕ} (hbits : n < 2 ^ 53) :
    (ofNat n).isFinite = true ∧ (ofNat n).isNegative = false ∧ (ofNat n).value = n := by
  by_cases hn : n = 0
  · subst hn
    exact ⟨rfl, rfl, by simp [ofNat_eq, ofRatio, zero, value]⟩
  · have h := isNearest_ofNat hn hbits
    exact ⟨h.isFinite, h.isNegative, h.value_eq hn hbits⟩

/-- What is not too close to zero is at most half a unit above its double. -/
theorem IsNearest.le_value {d : Double} {x : ℚ} (h : IsNearest d x) (hx : 2 ^ (-60 : ℤ) ≤ x) :
    x ≤ d.value * (1 + 2 ^ (-53 : ℤ)) := by
  obtain ⟨m, q, hcanonical, rfl, hnear⟩ := h
  have hpow : (0 : ℚ) < 2 ^ q := by positivity
  have hupper := hnear.le.2
  rw [upper_eq] at hupper
  have hm : (2 : ℚ) ^ 52 ≤ m := by
    by_contra hless
    have hbits : m < 2 ^ 52 := by
      rw [not_le] at hless
      exact_mod_cast hless
    obtain rfl : q = minExponent := hcanonical.isNormal.full.resolve_left (by omega)
    have hsmall : (m + 1 / 2 : ℚ) * 2 ^ minExponent < 2 ^ (-60 : ℤ) := calc
      (m + 1 / 2 : ℚ) * 2 ^ minExponent ≤ 2 ^ (53 : ℤ) * 2 ^ minExponent := by
        gcongr
        norm_num
        linarith
      _ = 2 ^ (53 + minExponent) := (zpow_add₀ two_ne_zero _ _).symm
      _ < 2 ^ (-60 : ℤ) := zpow_lt_zpow_right₀ one_lt_two (by decide)
    exact absurd (hx.trans hupper) (not_le.2 hsmall)
  have hhalf : (1 / 2 : ℚ) ≤ m * 2 ^ (-53 : ℤ) := by
    norm_num
    linarith
  calc x ≤ (m + 1 / 2) * 2 ^ q := hupper
    _ ≤ (m + m * 2 ^ (-53 : ℤ)) * 2 ^ q := by gcongr
    _ = m * 2 ^ q * (1 + 2 ^ (-53 : ℤ)) := by ring

/-- What is not too close to zero is not rounded to it. -/
theorem IsNearest.value_pos {d : Double} {x : ℚ} (h : IsNearest d x) (hx : 2 ^ (-60 : ℤ) ≤ x) :
    0 < d.value := by
  have hpos : (0 : ℚ) < 2 ^ (-60 : ℤ) := by positivity
  exact pos_of_mul_pos_left (hpos.trans_le (hx.trans (h.le_value hx))) (by positivity)

/-! ## Arithmetic -/

/-- The ratio `n · 2^q`. -/
def ratio (n : ℕ) (q : ℤ) : ℕ × ℕ :=
  if q ≥ 0 then (n * Nat.pow 2 q.toNat, 1) else (n, Nat.pow 2 (-q).toNat)

theorem ratio_spec (n : ℕ) (q : ℤ) :
    (ratio n q).2 ≠ 0 ∧ ((ratio n q).1 / (ratio n q).2 : ℚ) = n * 2 ^ q := by
  unfold ratio
  split
  · rename_i hq
    refine ⟨one_ne_zero, ?_⟩
    have hpow : (2 : ℚ) ^ q = 2 ^ q.toNat := by
      rw [← zpow_natCast, Int.toNat_of_nonneg hq]
    simp [Nat.pow_eq, hpow]
  · rename_i hq
    refine ⟨(Nat.pow_pos two_pos).ne', ?_⟩
    have hpow : (2 : ℚ) ^ q = (2 ^ (-q).toNat)⁻¹ := by
      rw [← zpow_natCast, Int.toNat_of_nonneg (by omega), zpow_neg, inv_inv]
    simp [Nat.pow_eq, hpow, div_eq_mul_inv]

theorem abs_value (s : Bool) {m : ℕ} {q : ℤ} (h : IsCanonical m q) :
    |value (.finite s m q h)| = m * 2 ^ q := by
  have hnonneg : (0 : ℚ) ≤ m * 2 ^ q := by positivity
  cases s
  · exact abs_of_nonneg hnonneg
  · exact (abs_neg _).trans (abs_of_nonneg hnonneg)

/-- A difference is rounded once. -/
theorem sub_eq {a b : Double} (ha : a.isFinite = true) (hb : b.isFinite = true) :
    ∃ num den : ℕ, den ≠ 0 ∧ (num / den : ℚ) = |a.value - b.value| ∧
      sub a b = ofRatio (decide (a.value < b.value)) num den := by
  cases a with
  | finite s₁ m₁ q₁ h₁ =>
    cases b with
    | finite s₂ m₂ q₂ h₂ =>
      obtain ⟨ha, hb⟩ := aligned_spec s₁ m₁ q₁ h₁ s₂ m₂ q₂ h₂
      obtain ⟨⟨x, y⟩, hxy⟩ : ∃ p, aligned s₁ m₁ q₁ s₂ m₂ q₂ = p := ⟨_, rfl⟩
      have hsub : sub (.finite s₁ m₁ q₁ h₁) (.finite s₂ m₂ q₂ h₂) =
          ofRatio (decide (x - y < 0)) (ratio (x - y).natAbs (min q₁ q₂)).1
            (ratio (x - y).natAbs (min q₁ q₂)).2 := by
        rw [sub, hxy]
        rfl
      rw [hxy] at ha hb
      have hpow : (0 : ℚ) < 2 ^ min q₁ q₂ := by positivity
      obtain ⟨hden, hratio⟩ := ratio_spec (x - y).natAbs (min q₁ q₂)
      refine ⟨(ratio (x - y).natAbs (min q₁ q₂)).1, _, hden, ?_, ?_⟩
      · rw [hratio, ← ha, ← hb, ← sub_mul, abs_mul, abs_of_pos hpow, Nat.cast_natAbs]
        push_cast
        rfl
      · rw [hsub, ← ha, ← hb]
        congr 2
        rw [mul_lt_mul_iff_left₀ hpow, Int.cast_lt, sub_neg]
    | _ => cases hb
  | _ => cases ha

theorem toRatio?_finite (s : Bool) {m : ℕ} {q : ℤ} (h : IsCanonical m q) :
    toRatio? (.finite s m q h) = some (s, (ratio m q).1, (ratio m q).2) := by
  change (if q ≥ 0 then some (s, m * Nat.pow 2 q.toNat, 1) else some (s, m, Nat.pow 2 (-q).toNat)) = _
  unfold ratio
  split <;> rfl

/-- A quotient is rounded once. -/
theorem div_eq {a b : Double} (ha : a.isFinite = true) (hb : b.isFinite = true) (hne : b.value ≠ 0) :
    ∃ num den : ℕ, den ≠ 0 ∧ (num / den : ℚ) = |a.value / b.value| ∧
      div a b = ofRatio (a.isNegative != b.isNegative) num den := by
  cases a with
  | finite s₁ m₁ q₁ h₁ =>
    cases b with
    | finite s₂ m₂ q₂ h₂ =>
      obtain ⟨hden₁, hratio₁⟩ := ratio_spec m₁ q₁
      obtain ⟨hden₂, hratio₂⟩ := ratio_spec m₂ q₂
      have hnum₂ : (ratio m₂ q₂).1 ≠ 0 := by
        intro hzero
        rw [hzero, Nat.cast_zero, zero_div] at hratio₂
        exact hne (abs_eq_zero.1 ((abs_value s₂ h₂).trans hratio₂.symm))
      refine ⟨(ratio m₁ q₁).1 * (ratio m₂ q₂).2, (ratio m₁ q₁).2 * (ratio m₂ q₂).1,
        mul_ne_zero hden₁ hnum₂, ?_, ?_⟩
      · rw [abs_div, abs_value, abs_value, ← hratio₁, ← hratio₂, div_div_div_eq]
        push_cast
        rfl
      · simp only [div, toRatio?_finite, if_neg hnum₂]
        rfl
    | _ => cases hb
  | _ => cases ha

/-- A product is rounded once. -/
theorem mul_eq {a b : Double} (ha : a.isFinite = true) (hb : b.isFinite = true) :
    ∃ num den : ℕ, den ≠ 0 ∧ (num / den : ℚ) = |a.value * b.value| ∧
      mul a b = ofRatio (a.isNegative != b.isNegative) num den := by
  cases a with
  | finite s₁ m₁ q₁ h₁ =>
    cases b with
    | finite s₂ m₂ q₂ h₂ =>
      obtain ⟨hden₁, hratio₁⟩ := ratio_spec m₁ q₁
      obtain ⟨hden₂, hratio₂⟩ := ratio_spec m₂ q₂
      refine ⟨(ratio m₁ q₁).1 * (ratio m₂ q₂).1, (ratio m₁ q₁).2 * (ratio m₂ q₂).2,
        mul_ne_zero hden₁ hden₂, ?_, ?_⟩
      · rw [abs_mul, abs_value, abs_value, ← hratio₁, ← hratio₂, div_mul_div_comm]
        push_cast
        rfl
      · simp only [mul, toRatio?_finite]
        rfl
    | _ => cases hb
  | _ => cases ha

/-! ## Doubles that are not positive -/

/-- Zero, negative or not a number: no positive bound is below such a double. -/
def NotPositive : Double → Prop
  | .finite s m _ _ => s = true ∨ m = 0
  | .infinite s => s = true
  | .nan => True

theorem notPositive_of_isNegative : ∀ {d : Double}, d.isNegative = true → d.NotPositive
  | .finite .., h => .inl h
  | .infinite _, h => h
  | .nan, _ => trivial

/-- What is read from a negative ratio or from zero is not positive. -/
theorem notPositive_ofRatio {negative : Bool} {num den : ℕ} (hden : den ≠ 0)
    (h : negative = true ∨ (num / den : ℚ) = 0) : (ofRatio negative num den).NotPositive := by
  rcases h with hneg | hzero
  · exact notPositive_of_isNegative ((isNegative_ofRatio negative num den).trans hneg)
  · have hnum : num = 0 := by
      rcases div_eq_zero_iff.1 hzero with hnum | hden'
      · exact_mod_cast hnum
      · exact absurd (by exact_mod_cast hden') hden
    rw [ofRatio, if_pos hnum]
    exact .inr rfl

/-- A finite double that is not positive is negative or stands for zero. -/
theorem NotPositive.cases {d : Double} (h : d.NotPositive) (hd : d.isFinite = true) :
    d.isNegative = true ∨ d.value = 0 := by
  cases d with
  | finite s m q hcanonical =>
    refine Or.imp_right ?_ h
    rintro rfl
    simp [value]
  | _ => cases hd

theorem NotPositive.value_le {d : Double} (h : d.NotPositive) (hd : d.isFinite = true) : d.value ≤ 0 := by
  cases d with
  | finite s m q hcanonical =>
    have hnonneg : (0 : ℚ) ≤ m * 2 ^ q := by positivity
    rcases h with rfl | rfl
    · exact neg_nonpos.2 hnonneg
    · simp [value]
  | _ => cases hd

theorem notPositive_sub {a b : Double} (ha : a.isFinite = true) (hb : b.isFinite = true)
    (hle : a.value ≤ b.value) : (sub a b).NotPositive := by
  obtain ⟨num, den, hden, hratio, hsub⟩ := sub_eq ha hb
  rw [hsub]
  refine notPositive_ofRatio hden ?_
  rcases hle.lt_or_eq with hlt | heq
  · exact .inl (decide_eq_true hlt)
  · exact .inr (by rw [hratio, heq, sub_self, abs_zero])

theorem NotPositive.div {a b : Double} (ha : a.NotPositive) (hb : b.isFinite = true)
    (hsign : b.isNegative = false) (hne : b.value ≠ 0) : (Double.div a b).NotPositive := by
  by_cases hfinite : a.isFinite = true
  · obtain ⟨num, den, hden, hratio, hdiv⟩ := div_eq hfinite hb hne
    rw [hdiv, hsign, Bool.bne_false]
    exact notPositive_ofRatio hden
      ((ha.cases hfinite).imp_right fun hzero => by rw [hratio, hzero, zero_div, abs_zero])
  · cases a with
    | finite => exact absurd rfl hfinite
    | _ => exact trivial

theorem NotPositive.mul {a b : Double} (ha : a.NotPositive) (hb : b.isFinite = true)
    (hsign : b.isNegative = false) : (Double.mul a b).NotPositive := by
  by_cases hfinite : a.isFinite = true
  · obtain ⟨num, den, hden, hratio, hmul⟩ := mul_eq hfinite hb
    rw [hmul, hsign, Bool.bne_false]
    exact notPositive_ofRatio hden
      ((ha.cases hfinite).imp_right fun hzero => by rw [hratio, hzero, zero_mul, abs_zero])
  · cases a with
    | finite => exact absurd rfl hfinite
    | _ => exact trivial

/-- A positive bound is not below a double that is not positive. -/
theorem NotPositive.lt_eq_false {d bound : Double} (h : d.NotPositive) (hbound : lt (zero false) bound = true) :
    lt bound d = false := by
  cases bound with
  | finite s m q hcanonical =>
    cases d with
    | finite s' m' q' hcanonical' =>
      have hpos := (lt_iff (a := zero false) rfl rfl).1 hbound
      have hzero : (zero false).value = 0 := by simp [zero, value]
      rw [hzero] at hpos
      rw [← Bool.not_eq_true, lt_iff rfl rfl, not_lt]
      exact (h.value_le rfl).trans hpos.le
    | infinite s' => exact congrArg (!·) h
    | nan => rfl
  | infinite s =>
    have hs : s = false := by simpa [lt, zero] using hbound
    subst hs
    cases d <;> rfl
  | nan => cases hbound

/-- What is not below a double is not below a smaller one. -/
theorem lt_eq_false_of_value_le {d d' bound : Double} (hd : d.isFinite = true) (hd' : d'.isFinite = true)
    (hle : d.value ≤ d'.value) (h : lt bound d' = false) : lt bound d = false := by
  cases bound with
  | finite s m q hcanonical =>
    rw [← Bool.not_eq_true, lt_iff rfl hd, not_lt]
    rw [← Bool.not_eq_true, lt_iff rfl hd', not_lt] at h
    exact hle.trans h
  | infinite s =>
    cases d with
    | finite =>
      cases d' with
      | finite => exact h
      | _ => cases hd'
    | _ => cases hd
  | nan => rfl

end Double

/-! ## Reductions -/

open Double

/-- The quotient of a module that shrinks. -/
theorem quotient_bounds {o z : ℕ} (hz : z < o) (ho : o < 2 ^ 53) :
    (2 : ℚ) ^ (-60 : ℤ) ≤ (o - z) / o ∧ ((o : ℚ) - z) / o ≤ 1 := by
  have hpos : (0 : ℚ) < o := by exact_mod_cast Nat.zero_lt_of_lt hz
  constructor
  · have hone : (1 : ℚ) ≤ o - z := by
      rw [← Nat.cast_sub hz.le]
      exact_mod_cast (by omega : 1 ≤ o - z)
    have hbits : (o : ℚ) < (2 ^ 53 : ℕ) := Nat.cast_lt.2 ho
    rw [le_div_iff₀ hpos]
    calc (2 : ℚ) ^ (-60 : ℤ) * o ≤ 2 ^ (-60 : ℤ) * 2 ^ 53 := by
          gcongr
          exact_mod_cast hbits.le
      _ ≤ 1 := by norm_num
      _ ≤ o - z := hone
  · exact (div_le_one hpos).2 (by linarith [(Nat.cast_nonneg z : (0 : ℚ) ≤ z)])

/-- **What a reduction is**: the quotient, rounded, times a hundred, rounded. -/
theorem reductionPercent_spec {o z : ℕ} (hz : z < o) (ho : o < 2 ^ 53) :
    ∃ d : Double, IsNearest d ((o - z : ℚ) / o) ∧ IsNearest (reductionPercent o z) (d.value * 100) := by
  obtain ⟨hfinite, hsign, hvalue⟩ := ofNat_spec ho
  obtain ⟨hfinite', -, hvalue'⟩ := ofNat_spec (hz.trans ho)
  obtain ⟨hfinite'', hsign'', hvalue''⟩ := ofNat_spec (n := 100) (by norm_num)
  have hpos : (0 : ℚ) < o := by exact_mod_cast Nat.zero_lt_of_lt hz
  have hless : (z : ℚ) < o := by exact_mod_cast hz
  have hcast : (o - z : ℚ) = ((o - z : ℕ) : ℚ) := by rw [Nat.cast_sub hz.le]
  obtain ⟨hleast, hquotient⟩ := quotient_bounds hz ho
  -- The difference is exact.
  obtain ⟨num, den, hden, hratio, hsub⟩ := sub_eq hfinite hfinite'
  rw [hvalue, hvalue', abs_of_pos (by linarith), hcast] at hratio
  rw [hvalue, hvalue', decide_eq_false (not_lt.2 hless.le)] at hsub
  have hdiff : IsNearest (sub (ofNat o) (ofNat z)) ((o - z : ℕ) : ℚ) := by
    have hbits : ((o - z : ℕ) : ℚ) < (2 ^ 53 : ℕ) := Nat.cast_lt.2 (by omega)
    push_cast at hbits
    rw [hsub]
    exact isNearest_ofRatio hden hratio (Nat.cast_pos.2 (by omega)) (by linarith)
  have hvalue₁ := hdiff.value_eq (by omega) (by omega)
  -- The quotient is rounded.
  obtain ⟨num, den, hden, hratio, hdiv⟩ := div_eq hdiff.isFinite hfinite (hvalue ▸ hpos.ne')
  rw [hvalue₁, hvalue, ← hcast, abs_of_pos (div_pos (by linarith) hpos)] at hratio
  rw [hdiff.isNegative, hsign] at hdiv
  have hnearest : IsNearest (div (sub (ofNat o) (ofNat z)) (ofNat o)) ((o - z : ℚ) / o) := by
    rw [hdiv]
    exact isNearest_ofRatio hden hratio (div_pos (by linarith) hpos) (hquotient.trans (by norm_num))
  have hone : (div (sub (ofNat o) (ofNat z)) (ofNat o)).value ≤ 1 := by
    have hle := hnearest.value_le (isNearest_ofNat one_ne_zero (by norm_num)) (by exact_mod_cast hquotient)
    rwa [(ofNat_spec (n := 1) (by norm_num)).2.2, Nat.cast_one] at hle
  have hvalue₂ := hnearest.value_pos hleast
  -- And the product is rounded again.
  obtain ⟨num, den, hden, hratio, hmul⟩ := mul_eq hnearest.isFinite hfinite''
  rw [hvalue'', abs_of_pos (by positivity)] at hratio
  rw [hnearest.isNegative, hsign''] at hmul
  refine ⟨_, hnearest, ?_⟩
  rw [reductionPercent, if_neg (by omega), hmul]
  exact isNearest_ofRatio hden hratio (by positivity) (by linarith)

/-- **Of two reductions the one with the greater quotient is the greater one.** -/
theorem reductionPercent_le {o z o' z' : ℕ} (hz : z < o) (ho : o < 2 ^ 53) (hz' : z' < o') (ho' : o' < 2 ^ 53)
    (hle : (o - z : ℚ) / o ≤ (o' - z') / o') :
    (reductionPercent o z).value ≤ (reductionPercent o' z').value := by
  obtain ⟨d, hd, hpercent⟩ := reductionPercent_spec hz ho
  obtain ⟨d', hd', hpercent'⟩ := reductionPercent_spec hz' ho'
  have hvalue := hd.value_le hd' hle
  exact hpercent.value_le hpercent' (by linarith)

/-- A module that does not shrink has no positive reduction. -/
theorem notPositive_reductionPercent {o z : ℕ} (hz : o ≤ z) (ho : o < 2 ^ 53) :
    (reductionPercent o z).NotPositive := by
  by_cases hzero : o = 0
  · rw [reductionPercent, if_pos hzero]
    exact .inr rfl
  obtain ⟨hfinite, hsign, hvalue⟩ := ofNat_spec ho
  obtain ⟨hfinite', hsign', -⟩ := ofNat_spec (n := 100) (by norm_num)
  have hne : (ofNat o).value ≠ 0 := by
    rw [hvalue]
    exact_mod_cast hzero
  have hdiff : (sub (ofNat o) (ofNat z)).NotPositive := by
    have hread := ofRatio_cases (show z ≠ 0 by omega) one_ne_zero
    rw [← ofNat_eq, Nat.cast_one, div_one] at hread
    rcases hread with hinfinite | hnearest
    · -- The new size is too large for a double.
      rw [hinfinite]
      generalize ofNat o = d at hfinite
      cases d <;> exact trivial
    · exact notPositive_sub hfinite hnearest.isFinite
        ((isNearest_ofNat hzero ho).value_le hnearest (by exact_mod_cast hz))
  rw [reductionPercent, if_neg hzero]
  exact (hdiff.div hfinite hsign hne).mul hfinite' hsign'

/-! ## Sums -/

/-- **The quotient of a sum is a weighted mean**: a bound on the quotients of the parts is one on that of
the sum. -/
theorem sum_sub_le {c : ℚ} : ∀ {sizes : List (ℕ × ℕ)}, (∀ x ∈ sizes, (x.1 : ℚ) - x.2 ≤ c * x.1) →
    ((sizes.map Prod.fst).sum : ℚ) - (sizes.map Prod.snd).sum ≤ c * (sizes.map Prod.fst).sum
  | [], _ => by simp
  | x :: sizes, h => by
    have hhead := h x List.mem_cons_self
    have htail := sum_sub_le fun y hy => h y (List.mem_cons_of_mem _ hy)
    rw [List.map_cons, List.map_cons, List.sum_cons, List.sum_cons, Nat.cast_add, Nat.cast_add]
    linarith

/-- In a sum that shrinks some part shrinks by at least the same quotient. -/
theorem exists_quotient_le {sizes : List (ℕ × ℕ)}
    (h : (sizes.map Prod.snd).sum < (sizes.map Prod.fst).sum) :
    ∃ x ∈ sizes, x.2 < x.1 ∧
      (((sizes.map Prod.fst).sum : ℚ) - (sizes.map Prod.snd).sum) / (sizes.map Prod.fst).sum ≤
        (x.1 - x.2) / x.1 := by
  obtain ⟨y, hy, hless⟩ := List.exists_lt_of_sum_lt Prod.snd Prod.fst h
  -- The part that shrinks by the greatest quotient.
  obtain ⟨x, hx, hgreatest⟩ := Finset.exists_max_image (sizes.toFinset.filter fun x => x.2 < x.1)
    (fun x => ((x.1 : ℚ) - x.2) / x.1) ⟨y, by simp [hy, hless]⟩
  simp only [Finset.mem_filter, List.mem_toFinset] at hx hgreatest
  refine ⟨x, hx.1, hx.2, ?_⟩
  have hquotient : ∀ {y : ℕ × ℕ}, y.2 < y.1 → 0 < ((y.1 : ℚ) - y.2) / y.1 := by
    intro y hy
    have hpos : (0 : ℚ) < y.1 := by exact_mod_cast Nat.zero_lt_of_lt hy
    exact div_pos (sub_pos.2 (by exact_mod_cast hy)) hpos
  have hsum : (0 : ℚ) < (sizes.map Prod.fst).sum := by exact_mod_cast Nat.zero_lt_of_lt h
  rw [div_le_iff₀ hsum]
  refine sum_sub_le fun y hy => ?_
  rcases Nat.lt_or_ge y.2 y.1 with hless | hgrows
  · have hpos : (0 : ℚ) < y.1 := by exact_mod_cast Nat.zero_lt_of_lt hless
    exact (div_le_iff₀ hpos).1 (hgreatest y ⟨hy, hless⟩)
  · calc (y.1 : ℚ) - y.2 ≤ 0 := sub_nonpos.2 (by exact_mod_cast hgrows)
      _ ≤ (x.1 - x.2) / x.1 * y.1 := mul_nonneg (hquotient hx.2).le (Nat.cast_nonneg _)

/-- **A whole shrinks by no more than a bound that holds for its parts**, as long as its size is a double:
`lt bound d = false` says that `d` is at most the bound. -/
theorem not_lt_reductionPercent_sum {bound : Double} (hbound : lt (zero false) bound = true)
    {sizes : List (ℕ × ℕ)} (hbits : (sizes.map Prod.fst).sum < 2 ^ 53)
    (h : ∀ x ∈ sizes, lt bound (reductionPercent x.1 x.2) = false) :
    lt bound (reductionPercent (sizes.map Prod.fst).sum (sizes.map Prod.snd).sum) = false := by
  rcases Nat.lt_or_ge (sizes.map Prod.snd).sum (sizes.map Prod.fst).sum with hless | hgrows
  · obtain ⟨x, hx, hshrinks, hquotient⟩ := exists_quotient_le hless
    have hpart : x.1 < 2 ^ 53 := (List.le_sum_of_mem (List.mem_map_of_mem hx)).trans_lt hbits
    obtain ⟨_, -, hwhole⟩ := reductionPercent_spec hless hbits
    obtain ⟨_, -, hgreatest⟩ := reductionPercent_spec hshrinks hpart
    exact lt_eq_false_of_value_le hwhole.isFinite hgreatest.isFinite
      (reductionPercent_le hless hbits hshrinks hpart hquotient) (h x hx)
  · exact (notPositive_reductionPercent hgrows hbits).lt_eq_false hbound

/-- The sizes have to be doubles for this: two parts of more than `2^52` bytes shrink by less than their
sum. -/
example :
    lt (reductionPercent (2 ^ 52 + 1) (2 ^ 52 - 1))
        (reductionPercent ((2 ^ 52 + 1) + (2 ^ 52 + 2)) ((2 ^ 52 - 1) + 2 ^ 52)) = true ∧
      lt (reductionPercent (2 ^ 52 + 1) (2 ^ 52 - 1)) (reductionPercent (2 ^ 52 + 2) (2 ^ 52)) = false := by
  decide +kernel

/-- The exact reduction of a module is at most its percentage, up to the two roundings. -/
theorem reduction_le {o z : ℕ} (hz : z < o) (ho : o < 2 ^ 53) :
    ((o : ℚ) - z) * 100 ≤ (reductionPercent o z).value * (1 + 2 ^ (-53 : ℤ)) ^ 2 * o := by
  have hpos : (0 : ℚ) < o := by exact_mod_cast Nat.zero_lt_of_lt hz
  obtain ⟨d, hquotient, hpercent⟩ := reductionPercent_spec hz ho
  have hleast := (quotient_bounds hz ho).1
  have hle := hquotient.le_value hleast
  have hle' : d.value * 100 ≤ (reductionPercent o z).value * (1 + 2 ^ (-53 : ℤ)) := by
    refine hpercent.le_value ?_
    have hvalue := hleast.trans hle
    norm_num at hvalue ⊢
    linarith
  have hunit : (0 : ℚ) ≤ 1 + 2 ^ (-53 : ℤ) := by positivity
  calc ((o : ℚ) - z) * 100 = (o - z) / o * 100 * o := by
        rw [mul_right_comm, div_mul_cancel₀ _ hpos.ne']
    _ ≤ d.value * (1 + 2 ^ (-53 : ℤ)) * 100 * o := by gcongr
    _ = d.value * 100 * (1 + 2 ^ (-53 : ℤ)) * o := by ring
    _ ≤ (reductionPercent o z).value * (1 + 2 ^ (-53 : ℤ)) * (1 + 2 ^ (-53 : ℤ)) * o := by gcongr
    _ = (reductionPercent o z).value * (1 + 2 ^ (-53 : ℤ)) ^ 2 * o := by ring

/-- **Percentages below a bound mean exact reductions below it, up to the two roundings**, of the parts as
well as of the whole. -/
theorem sum_reduction_le {bound : Double} (hfinite : bound.isFinite = true)
    (hbound : lt (zero false) bound = true) {sizes : List (ℕ × ℕ)} (hbits : ∀ x ∈ sizes, x.1 < 2 ^ 53)
    (h : ∀ x ∈ sizes, lt bound (reductionPercent x.1 x.2) = false) :
    (((sizes.map Prod.fst).sum : ℚ) - (sizes.map Prod.snd).sum) * 100 ≤
      bound.value * (1 + 2 ^ (-53 : ℤ)) ^ 2 * (sizes.map Prod.fst).sum := by
  have hpos : 0 < bound.value := by
    have hpos := (lt_iff (a := zero false) rfl hfinite).1 hbound
    rwa [show (zero false).value = 0 by simp [zero, value]] at hpos
  have hparts : ∀ x ∈ sizes, (x.1 : ℚ) - x.2 ≤ bound.value * (1 + 2 ^ (-53 : ℤ)) ^ 2 / 100 * x.1 := by
    intro x hx
    rcases Nat.lt_or_ge x.2 x.1 with hless | hgrows
    · obtain ⟨_, -, hpercent⟩ := reductionPercent_spec hless (hbits x hx)
      have hvalue : (reductionPercent x.1 x.2).value ≤ bound.value := by
        have hnot := h x hx
        rwa [← Bool.not_eq_true, lt_iff hfinite hpercent.isFinite, not_lt] at hnot
      rw [div_mul_eq_mul_div, le_div_iff₀ (by norm_num)]
      refine (reduction_le hless (hbits x hx)).trans ?_
      gcongr
    · calc (x.1 : ℚ) - x.2 ≤ 0 := sub_nonpos.2 (by exact_mod_cast hgrows)
        _ ≤ bound.value * (1 + 2 ^ (-53 : ℤ)) ^ 2 / 100 * x.1 := by positivity
  have hsum := sum_sub_le hparts
  rwa [div_mul_eq_mul_div, le_div_iff₀ (by norm_num)] at hsum

end Abridge
