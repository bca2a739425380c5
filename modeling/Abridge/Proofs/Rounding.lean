import Abridge.Proofs.Numerals
import Abridge.Proofs.Offsets

/-!
# Reading a decimal

A number that is hoisted is written as text and read again, so the double that comes out has to be the one
that went in.  The text lies in the rounding interval of the double (`Double.near_shortest`); here it is
shown that reading finds the double in whose interval a decimal lies (`Double.ofDecimal_eq_of_near`).

The exponent is chosen so that the quotient has 53 bits before the point, or is subnormal
(`Double.exponentFor_spec`).  Rounding the quotient then gives a mantissa in whose interval the decimal
lies, except that it may round up to one bit more, which is the least mantissa of the next exponent.  Since
a decimal lies in one interval only, nothing has to be known about overflow: what was found is the double
that was written.

## What is here

* `Double.ofRatio_eq_of_near`, `Double.ofDecimal_eq_of_near`: reading finds the interval.
* `Double.ofDecimal_shortest`: the text of a double reads back as it.
-/

set_option autoImplicit false

namespace Abridge

namespace Double

/-! ## Rounding a quotient -/

/-- A value rounds to a natural number, a half going to the even one. -/
def Rounds (m : ℕ) (x : ℚ) : Prop :=
  if m % 2 = 0 then m - 1 / 2 ≤ x ∧ x ≤ m + 1 / 2 else m - 1 / 2 < x ∧ x < m + 1 / 2

theorem Rounds.le {m : ℕ} {x : ℚ} (h : Rounds m x) : (m - 1 / 2 : ℚ) ≤ x ∧ x ≤ m + 1 / 2 := by
  unfold Rounds at h
  split at h
  · exact h
  · exact ⟨h.1.le, h.2.le⟩

theorem Rounds.of_lt {m : ℕ} {x : ℚ} (h : (m - 1 / 2 : ℚ) < x) (h' : x < m + 1 / 2) : Rounds m x := by
  unfold Rounds
  split
  · exact ⟨h.le, h'.le⟩
  · exact ⟨h, h'⟩

theorem rounds_roundDiv (num : ℕ) {den : ℕ} (hden : 0 < den) :
    Rounds (roundDiv num den) (num / den : ℚ) := by
  have hden' : (0 : ℚ) < den := by exact_mod_cast hden
  have hx : (num / den : ℚ) = (num / den : ℕ) + (num % den : ℕ) / den := by
    rw [eq_comm, ← sub_eq_zero]
    field_simp
    have := congrArg (Nat.cast (R := ℚ)) (Nat.div_add_mod num den)
    push_cast at this ⊢
    linarith
  have hmod : ((num % den : ℕ) : ℚ) / den < 1 := by
    rw [div_lt_one hden']
    exact_mod_cast Nat.mod_lt num hden
  have hmod' : (0 : ℚ) ≤ ((num % den : ℕ) : ℚ) / den := by positivity
  rw [hx]
  unfold roundDiv
  simp only
  split_ifs with hless hmore heven
  · have hhalf : ((num % den : ℕ) : ℚ) / den < 1 / 2 := by
      rw [div_lt_div_iff₀ hden' two_pos]
      exact_mod_cast (by omega : num % den * 2 < 1 * den)
    exact .of_lt (by linarith) (by linarith)
  · have hhalf : (1 / 2 : ℚ) < ((num % den : ℕ) : ℚ) / den := by
      rw [div_lt_div_iff₀ two_pos hden']
      exact_mod_cast (by omega : 1 * den < num % den * 2)
    exact .of_lt (by push_cast; linarith) (by push_cast; linarith)
  all_goals
    have hhalf : ((num % den : ℕ) : ℚ) / den = 1 / 2 := by
      rw [div_eq_div_iff hden'.ne' two_ne_zero]
      exact_mod_cast (by omega : num % den * 2 = 1 * den)
    rw [hhalf]
  · rw [Rounds, if_pos heven]
    exact ⟨by linarith, le_rfl⟩
  · rw [Rounds, if_pos (by omega)]
    push_cast
    exact ⟨by linarith, by linarith⟩

/-! ## The exponent -/

theorem scaled_spec (num : ℕ) {den : ℕ} (hden : 0 < den) (q : ℤ) :
    0 < (scaled num den q).2 ∧
      ((scaled num den q).1 / (scaled num den q).2 : ℚ) = num / den / 2 ^ q := by
  unfold scaled
  split_ifs with hq
  · obtain ⟨n, rfl⟩ := Int.eq_ofNat_of_zero_le hq
    simp only [Nat.pow_eq]
    refine ⟨by positivity, ?_⟩
    push_cast
    rw [Int.toNat_natCast, zpow_natCast, div_div]
  · obtain ⟨n, hn⟩ := Int.eq_ofNat_of_zero_le (by omega : 0 ≤ -q)
    obtain rfl : q = -n := by omega
    simp only [Nat.pow_eq, neg_neg, Int.toNat_natCast]
    refine ⟨hden, ?_⟩
    push_cast
    rw [zpow_neg, zpow_natCast, div_inv_eq_mul, div_mul_eq_mul_div]

/-- A natural number lies between powers of two. -/
theorem log2_bounds {n : ℕ} (hn : n ≠ 0) :
    (2 : ℚ) ^ (Nat.log2 n : ℤ) ≤ n ∧ (n : ℚ) < 2 ^ ((Nat.log2 n : ℤ) + 1) := by
  constructor
  · rw [zpow_natCast]
    exact_mod_cast Nat.log2_self_le hn
  · have := @Nat.lt_log2_self n
    rw [← Nat.cast_succ, zpow_natCast]
    exact_mod_cast this

/-- The first guess at the exponent leaves 52 or 53 bits before the point. -/
theorem quotient_bounds {num den : ℕ} (hnum : num ≠ 0) (hden : den ≠ 0) :
    (2 : ℚ) ^ 51 < num / den / 2 ^ ((Nat.log2 num : ℤ) - (Nat.log2 den : ℤ) - 52) ∧
      (num / den / 2 ^ ((Nat.log2 num : ℤ) - (Nat.log2 den : ℤ) - 52) : ℚ) < 2 ^ 53 := by
  obtain ⟨hnum₁, hnum₂⟩ := log2_bounds hnum
  obtain ⟨hden₁, hden₂⟩ := log2_bounds hden
  have hden' : (0 : ℚ) < den := by positivity
  generalize (Nat.log2 num : ℤ) = a at *
  generalize (Nat.log2 den : ℤ) = b at *
  have hpow : (0 : ℚ) < 2 ^ (a - b - 52) := by positivity
  constructor
  · rw [lt_div_iff₀ hpow, lt_div_iff₀ hden']
    calc (2 : ℚ) ^ 51 * 2 ^ (a - b - 52) * den
        < 2 ^ 51 * 2 ^ (a - b - 52) * 2 ^ (b + 1) := by gcongr
      _ = 2 ^ a := by
        rw [← zpow_natCast, ← zpow_add₀ two_ne_zero, ← zpow_add₀ two_ne_zero]
        congr 1
        push_cast
        ring
      _ ≤ num := hnum₁
  · rw [div_lt_iff₀ hpow, div_lt_iff₀ hden']
    calc (num : ℚ) < 2 ^ (a + 1) := hnum₂
      _ = 2 ^ 53 * 2 ^ (a - b - 52) * 2 ^ b := by
        rw [← zpow_natCast, ← zpow_add₀ two_ne_zero, ← zpow_add₀ two_ne_zero]
        congr 1
        push_cast
        ring
      _ ≤ 2 ^ 53 * 2 ^ (a - b - 52) * den := by gcongr

/-- **The exponent of a quotient** leaves 53 bits before the point, or is the least one. -/
theorem exponentFor_spec {num den : ℕ} (hnum : num ≠ 0) (hden : den ≠ 0) :
    minExponent ≤ exponentFor num den ∧ (num / den / 2 ^ exponentFor num den : ℚ) < 2 ^ 53 ∧
      ((2 : ℚ) ^ 52 ≤ num / den / 2 ^ exponentFor num den ∨ exponentFor num den = minExponent) := by
  obtain ⟨hlow, hhigh⟩ := quotient_bounds hnum hden
  obtain ⟨hpos, hscaled⟩ := scaled_spec num (Nat.pos_of_ne_zero hden)
    ((Nat.log2 num : ℤ) - (Nat.log2 den : ℤ) - 52)
  unfold exponentFor
  simp only
  generalize (Nat.log2 num : ℤ) - (Nat.log2 den : ℤ) - 52 = e at *
  have hx : (0 : ℚ) < num / den := by positivity
  generalize (num / den : ℚ) = x at *
  -- The second guess has 53 bits before the point.
  obtain ⟨e', he', hlow', hhigh'⟩ : ∃ e', (if (scaled num den e).1 < (scaled num den e).2 * Nat.pow 2 52
      then e - 1 else e) = e' ∧ (2 : ℚ) ^ 52 ≤ x / 2 ^ e' ∧ x / 2 ^ e' < 2 ^ 53 := by
    refine ⟨_, rfl, ?_⟩
    have hpos' : (0 : ℚ) < (scaled num den e).2 := by exact_mod_cast hpos
    split_ifs with hless
    · have hless' : x / 2 ^ e < 2 ^ 52 := by
        rw [← hscaled, div_lt_iff₀ hpos', mul_comm]
        exact_mod_cast hless
      have htwice : x / 2 ^ (e - 1) = 2 * (x / 2 ^ e) := by
        rw [zpow_sub₀ two_ne_zero, zpow_one]
        field_simp
      rw [htwice]
      exact ⟨by linarith, by linarith⟩
    · refine ⟨?_, hhigh⟩
      rw [← hscaled, le_div_iff₀ hpos', mul_comm]
      exact_mod_cast not_lt.1 hless
  rw [he']
  split_ifs with hmin
  · refine ⟨le_rfl, lt_of_le_of_lt ?_ hhigh', .inr rfl⟩
    gcongr
    exact one_le_two
  · exact ⟨not_lt.1 hmin, hhigh', .inl hlow'⟩

/-! ## Reading -/

/-- What a value rounds to is a mantissa in whose interval it lies.  At the least mantissa of an exponent
the interval is shorter below. -/
theorem near_of_rounds {m : ℕ} {q : ℤ} {x : ℚ} (hx : 0 ≤ x) (h : Rounds m (x / 2 ^ q))
    (hleast : m = 2 ^ 52 → minExponent < q → (2 : ℚ) ^ 52 ≤ x / 2 ^ q) : Near m q x := by
  have hpow : (0 : ℚ) < 2 ^ q := by positivity
  by_cases hshort : m = 2 ^ 52 ∧ q > minExponent
  · obtain ⟨rfl, hq⟩ := hshort
    rw [Near, if_pos (by norm_num), lower_of_power hq, upper_eq]
    have hvalue := (le_div_iff₀ hpow).1 (hleast rfl hq)
    have hend := (div_le_iff₀ hpow).1 h.le.2
    exact ⟨by linarith, hend⟩
  · have hlower : lower m q = ((4 * m - 2 : ℕ) : ℚ) * 2 ^ (q - 2) := by
      rw [lower, interval, if_neg (show ¬ (m = Nat.pow 2 52 ∧ q > minExponent) from hshort)]
    cases m with
    | zero =>
      rw [Near, if_pos rfl, hlower, upper_eq]
      have hend := (div_le_iff₀ hpow).1 h.le.2
      exact ⟨by simpa using hx, hend⟩
    | succ m =>
      have hlower' : lower (m + 1) q = ((m + 1 : ℕ) - 1 / 2 : ℚ) * 2 ^ q := by
        rw [hlower, two_zpow_sub_two q, show 4 * (m + 1) - 2 = 4 * m + 2 by omega]
        push_cast
        ring
      unfold Rounds at h
      unfold Near
      rw [hlower', upper_eq]
      split_ifs at h ⊢ with heven
      · exact ⟨(le_div_iff₀ hpow).1 h.1, (div_le_iff₀ hpow).1 h.2⟩
      · exact ⟨(lt_div_iff₀ hpow).1 h.1, (div_lt_iff₀ hpow).1 h.2⟩

/-- What rounds up to one bit more lies in the interval of the least mantissa of the next exponent. -/
theorem near_of_rounds_over {q : ℤ} {x : ℚ} (hq : minExponent ≤ q) (h : Rounds (2 ^ 53) (x / 2 ^ q))
    (hx : x / 2 ^ q < 2 ^ 53) : Near (2 ^ 52) (q + 1) x := by
  have hpow : (0 : ℚ) < 2 ^ q := by positivity
  have hnext : (2 : ℚ) ^ (q + 1) = 2 * 2 ^ q := by rw [zpow_add₀ two_ne_zero, zpow_one, mul_comm]
  have hend := (le_div_iff₀ hpow).1 h.le.1
  have htop := (div_lt_iff₀ hpow).1 hx
  rw [Near, if_pos (by norm_num), lower_of_power (by omega), upper_eq, hnext]
  push_cast at hend ⊢
  exact ⟨by linarith, by linarith⟩

/-- A mantissa of at most 53 bits that is not too short is one of the format. -/
theorem isNormal_of_rounds {m : ℕ} {q : ℤ} {y : ℚ} (hq : minExponent ≤ q) (h : Rounds m y)
    (hbits : y < 2 ^ 53) (hfull : (2 : ℚ) ^ 52 ≤ y ∨ q = minExponent) (hm : m ≠ 2 ^ 53) :
    IsNormal m q := by
  obtain ⟨hlow, hhigh⟩ := h.le
  refine ⟨hq, ?_, hfull.imp_left fun hfull => ?_⟩
  · have hlt : (m : ℚ) < (2 ^ 53 + 1 : ℕ) := by
      push_cast
      linarith
    have hlt' : m < 2 ^ 53 + 1 := by exact_mod_cast hlt
    omega
  · have hlt : ((2 ^ 52 : ℕ) : ℚ) < (m + 1 : ℕ) := by
      push_cast
      linarith
    have hlt' : 2 ^ 52 < m + 1 := by exact_mod_cast hlt
    omega

/-- **Reading a ratio finds the double in whose interval it lies.** -/
theorem ofRatio_eq_of_near {num den m : ℕ} {q : ℤ} (hnum : num ≠ 0) (hden : den ≠ 0)
    (h : IsCanonical m q) (hx : Near m q (num / den)) (negative : Bool) :
    ofRatio negative num den = .finite negative m q h := by
  obtain ⟨q', hq'⟩ : ∃ q', exponentFor num den = q' := ⟨_, rfl⟩
  obtain ⟨⟨n, d⟩, hs⟩ : ∃ r, scaled num den q' = r := ⟨_, rfl⟩
  obtain ⟨m', hm'⟩ : ∃ m', roundDiv n d = m' := ⟨_, rfl⟩
  obtain ⟨hleast, hbits, hfull⟩ := exponentFor_spec hnum hden
  obtain ⟨hpos, hscaled⟩ := scaled_spec num (Nat.pos_of_ne_zero hden) q'
  rw [hs] at hpos hscaled
  have hround := rounds_roundDiv n hpos
  rw [hscaled, hm'] at hround
  rw [hq'] at hleast hbits hfull
  rw [ofRatio_eq hnum negative hq' hs hm' ?_, dif_pos h]
  rw [Nat.pow_eq, Nat.pow_eq]
  -- What was found is a mantissa and an exponent in whose interval the ratio lies.
  split_ifs with hover
  · rw [hover] at hround
    have hnormal : IsNormal (2 ^ 52) (q' + 1) := ⟨by omega, by norm_num, .inl le_rfl⟩
    obtain ⟨hm, hq⟩ := eq_of_near h.isNormal hnormal hx (near_of_rounds_over hleast hround hbits)
    rw [hm, hq]
  · have hnormal := isNormal_of_rounds hleast hround hbits hfull hover
    have hnear : Near m' q' (num / den) :=
      near_of_rounds (by positivity) hround fun _ hq => hfull.resolve_right (by omega)
    obtain ⟨hm, hq⟩ := eq_of_near h.isNormal hnormal hx hnear
    rw [hm, hq]

/-! ## Decimals -/

/-- A double other than zero has an interval between `2^-1075` and `2^1024`. -/
theorem Near.bounds {m : ℕ} {q : ℤ} {x : ℚ} (h : IsCanonical m q) (hm : m ≠ 0) (hx : Near m q x) :
    (2 : ℚ) ^ (-1075 : ℤ) ≤ x ∧ x ≤ 2 ^ (1024 : ℤ) := by
  obtain ⟨hmin, hmax, hbits, -⟩ := h
  have hpow : (0 : ℚ) < 2 ^ q := by positivity
  have hone : (1 : ℚ) ≤ m := by exact_mod_cast Nat.one_le_iff_ne_zero.2 hm
  have hbits' : (m : ℚ) ≤ 2 ^ 53 - 1 := by
    have hle : ((m + 1 : ℕ) : ℚ) ≤ (2 ^ 53 : ℕ) := Nat.cast_le.2 hbits
    push_cast at hle
    linarith
  constructor
  · calc (2 : ℚ) ^ (-1075 : ℤ) = 1 / 2 * 2 ^ minExponent := by
          rw [show (-1075 : ℤ) = -1 + minExponent by rfl, zpow_add₀ two_ne_zero, zpow_neg_one, one_div]
      _ ≤ 1 / 2 * 2 ^ q := by
        gcongr
        exact one_le_two
      _ ≤ (m - 1 / 2) * 2 ^ q := by
        gcongr
        linarith
      _ ≤ lower m q := le_lower m q
      _ ≤ x := hx.le.1
  · calc x ≤ upper m q := hx.le.2
      _ = (m + 1 / 2) * 2 ^ q := upper_eq m q
      _ ≤ 2 ^ 53 * 2 ^ maxExponent := by
        gcongr
        · linarith
        · exact one_le_two
      _ = 2 ^ (1024 : ℤ) := by
        rw [← zpow_natCast, ← zpow_add₀ two_ne_zero]
        rfl

/-- A decimal is smaller than the power of ten that its length says. -/
theorem decimal_lt (digits : ℕ) (exponent : ℤ) :
    (digits * 10 ^ exponent : ℚ) < 10 ^ ((Nat.log2 digits : ℤ) / 3 + 1 + exponent) := by
  have hlt : digits < 10 ^ (Nat.log2 digits / 3 + 1) := calc
    digits < 2 ^ (Nat.log2 digits + 1) := Nat.lt_log2_self
    _ ≤ 2 ^ (3 * (Nat.log2 digits / 3 + 1)) := Nat.pow_le_pow_right two_pos (by omega)
    _ = 8 ^ (Nat.log2 digits / 3 + 1) := by rw [pow_mul]; norm_num
    _ ≤ 10 ^ (Nat.log2 digits / 3 + 1) := Nat.pow_le_pow_left (by norm_num) _
  have hlt' : (digits : ℚ) < 10 ^ ((Nat.log2 digits : ℤ) / 3 + 1) := by
    rw [show ((Nat.log2 digits : ℤ) / 3 + 1) = ((Nat.log2 digits / 3 + 1 : ℕ) : ℤ) by push_cast; rfl,
      zpow_natCast]
    exact_mod_cast hlt
  rw [zpow_add₀ (by norm_num)]
  gcongr

/-- Decimals that are settled by their length lie in the interval of no double but zero. -/
theorem size_bounds {m digits : ℕ} {q exponent : ℤ} (h : IsCanonical m q) (hm : m ≠ 0)
    (hdigits : digits ≠ 0) (hx : Near m q (digits * 10 ^ exponent)) :
    exponent ≤ 310 ∧ -400 ≤ (Nat.log2 digits : ℤ) / 3 + 1 + exponent := by
  obtain ⟨hlow, hhigh⟩ := hx.bounds h hm
  have hone : (1 : ℚ) ≤ digits := by exact_mod_cast Nat.one_le_iff_ne_zero.2 hdigits
  constructor
  · by_contra hlarge
    have hpow : (10 : ℚ) ^ (311 : ℤ) ≤ digits * 10 ^ exponent := calc
      (10 : ℚ) ^ (311 : ℤ) ≤ 10 ^ exponent := zpow_le_zpow_right₀ (by norm_num) (by omega)
      _ ≤ digits * 10 ^ exponent := le_mul_of_one_le_left (by positivity) hone
    have hnat : 2 ^ 1024 < 10 ^ 311 := by decide +kernel
    have hcast : (2 : ℚ) ^ (1024 : ℤ) < 10 ^ (311 : ℤ) := by exact_mod_cast hnat
    exact absurd (hcast.trans_le (hpow.trans hhigh)) (lt_irrefl _)
  · by_contra hsmall
    have hpow : (10 : ℚ) ^ ((Nat.log2 digits : ℤ) / 3 + 1 + exponent) ≤ 10 ^ (-400 : ℤ) :=
      zpow_le_zpow_right₀ (by norm_num) (by omega)
    have hnat : 2 ^ 1075 < 10 ^ 400 := by decide +kernel
    have hcast : (10 : ℚ) ^ (-400 : ℤ) < 2 ^ (-1075 : ℤ) := by
      rw [zpow_neg, zpow_neg]
      refine inv_strictAnti₀ (by positivity) ?_
      exact_mod_cast hnat
    exact absurd (((decimal_lt digits exponent).trans_le hpow).trans (hcast.trans_le hlow)) (lt_irrefl _)

/-- **Reading a decimal finds the double in whose interval it lies.** -/
theorem ofDecimal_eq_of_near {digits m : ℕ} {q exponent : ℤ} (h : IsCanonical m q) (hm : m ≠ 0)
    (hx : Near m q (digits * 10 ^ exponent)) (negative : Bool) :
    ofDecimal negative digits exponent = .finite negative m q h := by
  have hdigits : digits ≠ 0 := by
    rintro rfl
    have hlow := (hx.bounds h hm).1
    have hpos : (0 : ℚ) < 2 ^ (-1075 : ℤ) := by positivity
    rw [Nat.cast_zero, zero_mul] at hlow
    linarith
  obtain ⟨hlarge, hsmall⟩ := size_bounds h hm hdigits hx
  unfold ofDecimal
  rw [if_neg hdigits]
  dsimp only
  rw [if_neg (by omega), if_neg (by omega)]
  split_ifs with hexponent
  · obtain ⟨n, rfl⟩ := Int.eq_ofNat_of_zero_le hexponent
    refine ofRatio_eq_of_near (by simp [hdigits]) one_ne_zero h ?_ negative
    simpa using hx
  · obtain ⟨n, hn⟩ := Int.eq_ofNat_of_zero_le (by omega : 0 ≤ -exponent)
    obtain rfl : exponent = -n := by omega
    refine ofRatio_eq_of_near hdigits (by simp) h ?_ negative
    rw [zpow_neg, zpow_natCast] at hx
    simpa [div_eq_mul_inv] using hx

/-! ## Written numbers -/

theorem hexValue?_of_isDigit {c : Char} (hc : c.isDigit = true) :
    Text.hexValue? c = some (c.toNat - '0'.toNat) := by
  have hrange : (48 ≤ c.toNat && c.toNat ≤ 57) = true := hc
  simp only [Text.hexValue?, hrange]
  rfl

/-- The two ways to count digits agree. -/
theorem valueIn_ten {cs : List Char} (h : ∀ c ∈ cs, c.isDigit = true) :
    Source.valueIn 10 cs = digitsNumber cs := by
  have hstep : ∀ n, cs.foldl (fun n c => n * 10 + (Text.hexValue? c).getD 0) n =
      cs.foldl (fun n c => 10 * n + (c.toNat - '0'.toNat)) n := by
    induction cs with
    | nil => exact fun n => rfl
    | cons c cs ih =>
      intro n
      rw [List.foldl_cons, List.foldl_cons, hexValue?_of_isDigit (h c List.mem_cons_self), Nat.mul_comm]
      exact ih (fun d hd => h d (List.mem_cons_of_mem _ hd)) _
  exact hstep 0

/-- **The text of a double reads back as it.** -/
theorem ofDecimal_shortest {m : ℕ} {q : ℤ} (h : IsCanonical m q) (negative : Bool) :
    ofDecimal negative
        (Source.valueIn 10 ((shortest m q).split.1.toList ++ (shortest m q).split.2.toList))
        (0 - ((shortest m q).split.2.toList.length : ℤ)) = .finite negative m q h := by
  rw [valueIn_ten fun c hc => Decimal.isDigit_of_mem_split hc]
  rcases Nat.eq_zero_or_pos m with rfl | hm
  · obtain rfl : q = minExponent := h.2.2.2.resolve_left (by decide)
    rfl
  · refine ofDecimal_eq_of_near h hm.ne' ?_ negative
    have hnear := near_shortest h
    rw [Decimal.value_eq_split] at hnear
    rwa [zero_sub, String.length_toList]

end Double

end Abridge
