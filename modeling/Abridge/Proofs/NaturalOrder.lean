import Abridge.Proofs.KeyOrder
import Abridge.Proofs.ShortNames
import Abridge.Proofs.Spans
import Mathlib.Algebra.Group.Nat.Defs

/-!
# The natural order of keys

A key is a lead with all the digits behind it that it ends in, and the number of these digits counts before
the text of the key does: `s10` comes behind `s9`.  There is no number without digits, and none that does not
fit 64 bits, and leading zeros do not change it.  So keys with one lead can have the same number, or none, and
then their texts decide.  That makes the order tell all keys apart, whatever their digits look like, and it is
linear because each of the three comparisons is.

## What is here

* `KeyParts`: a key as a lead and the digits behind it; `splitKey_eq` says what they count for.
* `compareKeys_digits`: of keys with one lead and different numbers, the one with the lesser number comes first.
* `compareKeys_natural`: the order of keys is linear and follows counters.
-/

set_option autoImplicit false

namespace Abridge

/-! ## The parts of a key -/

/-- The text does not end in a digit. -/
def EndsPlain (text : String) : Prop := ∀ c ∈ text.toList.getLast?, c.isDigit = false

instance (text : String) : Decidable (EndsPlain text) :=
  decidable_of_iff (text.toList.getLast?.all (fun c => !c.isDigit) = true) (by simp [EndsPlain, Option.all_eq_true])

/-- A key is a lead with all the digits behind it that it ends in. -/
structure KeyParts (key lead : String) (digits : List Char) : Prop where
  text : key.toList = lead.toList ++ digits
  isDigit : ∀ c ∈ digits, c.isDigit = true
  endsPlain : EndsPlain lead

/-- The number of some digits, which is missing when there are none or it does not fit 64 bits. -/
def numberOf (digits : List Char) : Option Nat :=
  if digits.isEmpty || Nat.ofDigitChars 10 digits 0 ≥ Nat.pow 2 64 then none
  else some (Nat.ofDigitChars 10 digits 0)

/-- Read from its end, a key has its digits first and then what is not one. -/
theorem KeyParts.reverse_eq {key lead : String} {digits : List Char} (h : KeyParts key lead digits) :
    key.toList.reverse.takeWhile Char.isDigit = digits.reverse ∧
      key.toList.reverse.dropWhile Char.isDigit = lead.toList.reverse := by
  have hdigits : ∀ c ∈ digits.reverse, c.isDigit = true := fun c hc => h.isDigit c (List.mem_reverse.1 hc)
  have hlead : ∀ c ∈ lead.toList.reverse.head?, c.isDigit = false := by
    rw [List.head?_reverse]
    exact h.endsPlain
  rw [h.text, List.reverse_append]
  exact span_append hdigits hlead

/-- **A key is split into its parts.** -/
theorem splitKey_eq {key lead : String} {digits : List Char} (h : KeyParts key lead digits) :
    splitKey key = (lead, numberOf digits) := by
  obtain ⟨hdigits, hlead⟩ := h.reverse_eq
  rw [splitKey, hdigits, hlead, List.reverse_reverse, List.reverse_reverse, String.ofList_toList]
  rfl

theorem numberOf_eq_some {digits : List Char} (hne : digits ≠ [])
    (hfits : Nat.ofDigitChars 10 digits 0 < 2 ^ 64) :
    numberOf digits = some (Nat.ofDigitChars 10 digits 0) := by
  have hlimit : ¬ Nat.ofDigitChars 10 digits 0 ≥ Nat.pow 2 64 := Nat.not_le.2 hfits
  simp [numberOf, hne, hlimit]

/-! ## Counters -/

/-- Numbers that fit are compared, and no digits at all come before a number that is not zero. -/
theorem compareCounters_numberOf {as bs : List Char}
    (hlt : Nat.ofDigitChars 10 as 0 < Nat.ofDigitChars 10 bs 0)
    (hfits : Nat.ofDigitChars 10 bs 0 < 2 ^ 64) :
    compareCounters (numberOf as) (numberOf bs) = .lt := by
  have hne : bs ≠ [] := by
    rintro rfl
    exact absurd hlt (Nat.not_lt_zero _)
  rw [numberOf_eq_some hne hfits]
  cases as with
  | nil => rfl
  | cons c cs =>
    rw [numberOf_eq_some (List.cons_ne_nil c cs) (hlt.trans hfits)]
    exact Nat.compare_eq_lt.2 hlt

section

variable {lead : String}

/-- Of keys with one lead, the one whose digits make the lesser number comes first. -/
theorem compareKeys_digits {a b : String} {as bs : List Char} (ha : KeyParts a lead as)
    (hb : KeyParts b lead bs) (hlt : Nat.ofDigitChars 10 as 0 < Nat.ofDigitChars 10 bs 0)
    (hfits : Nat.ofDigitChars 10 bs 0 < 2 ^ 64) : compareKeys a b = .lt := by
  have hlead : compareText lead lead = .eq := by
    rw [compareText_eq]
    exact Std.ReflCmp.compare_self
  rw [compareKeys, splitKey_eq ha, splitKey_eq hb]
  dsimp only
  rw [hlead, compareCounters_numberOf hlt hfits]
  rfl

/-- A counter behind a lead is all the digits that the key ends in. -/
theorem keyParts_counter (h : EndsPlain lead) (n : Nat) :
    KeyParts (lead ++ toString n) lead (Nat.toDigits 10 n) where
  text := ShortNames.toList_candidate lead n
  isDigit _ hc := Nat.isDigit_of_mem_toDigits (by decide) (by decide) hc
  endsPlain := h

/-- Keys that differ in their counters only are in the order of these. -/
theorem compareKeys_counters (h : EndsPlain lead) {m n : Nat} (hlt : m < n) (hfits : n < 2 ^ 64) :
    compareKeys (lead ++ toString m) (lead ++ toString n) = .lt := by
  refine compareKeys_digits (keyParts_counter h m) (keyParts_counter h n) ?_ ?_
  · rwa [Nat.ofDigitChars_ten_toDigits, Nat.ofDigitChars_ten_toDigits]
  · rwa [Nat.ofDigitChars_ten_toDigits]

end

/-! ## The order -/

/-- **The order of keys is linear and follows counters.**  Comparing two keys the other way round turns the
outcome round, and only equal keys compare as equal.  When two comparisons in a row have one outcome, the
comparison of the outer keys has it too, and a key that does not come behind a second one, which does not come
behind a third, does not come behind that.  Of two counters of 64 bits behind a lead that does not end in a
digit, the lesser one makes the key that comes first. -/
theorem compareKeys_natural :
    (∀ a b, compareKeys a b = (compareKeys b a).swap) ∧
    (∀ a b, compareKeys a b = .eq ↔ a = b) ∧
    (∀ a b c outcome, compareKeys a b = outcome → compareKeys b c = outcome → compareKeys a c = outcome) ∧
    (∀ a b c, compareKeys a b ≠ .gt → compareKeys b c ≠ .gt → compareKeys a c ≠ .gt) ∧
    ∀ lead, EndsPlain lead → ∀ m n, m < n → n < 2 ^ 64 →
      compareKeys (lead ++ toString m) (lead ++ toString n) = .lt := by
  refine ⟨fun a b => Std.OrientedCmp.eq_swap, fun a b => Std.LawfulEqCmp.compare_eq_iff_eq, ?_, ?_,
    fun lead h m n hlt hfits => compareKeys_counters h hlt hfits⟩
  · intro a b c outcome hab hbc
    cases outcome with
    | lt => exact Std.TransCmp.lt_trans hab hbc
    | eq => exact Std.TransCmp.eq_trans hab hbc
    | gt => exact Std.TransCmp.gt_trans hab hbc
  · intro a b c hab hbc
    simpa using ne_gt_trans compareKeys a b c (by simpa using hab) (by simpa using hbc)

/-- Digits that do not fit, a leading zero and digits without a lead, and the greatest counter behind a lead that
ends in a digit of another script. -/
theorem compareKeys_natural_oddDigits :
    (compareKeys "s18446744073709551616" "s07" = .lt ∧ compareKeys "s07" "s7" = .lt ∧
      compareKeys "s18446744073709551616" "s7" = .lt) ∧
    (compareKeys "007" "7" ≠ .gt ∧ compareKeys "7" "s" ≠ .gt ∧ compareKeys "007" "s" ≠ .gt) ∧
    EndsPlain "s\u0663" ∧ 9 < 2 ^ 64 - 1 ∧ 2 ^ 64 - 1 < 2 ^ 64 ∧
      compareKeys ("s\u0663" ++ toString 9) ("s\u0663" ++ toString (2 ^ 64 - 1)) = .lt := by
  obtain ⟨-, -, houtcome, hbehind, hcounters⟩ := compareKeys_natural
  have hlong : compareKeys "s18446744073709551616" "s07" = .lt := by decide +kernel
  have hzero : compareKeys "s07" "s7" = .lt := by decide +kernel
  have hzeros : compareKeys "007" "7" ≠ .gt := by decide +kernel
  have hnone : compareKeys "7" "s" ≠ .gt := by decide +kernel
  have hplain : EndsPlain "s\u0663" := by decide +kernel
  have hlt : 9 < 2 ^ 64 - 1 := by decide
  have hfits : 2 ^ 64 - 1 < 2 ^ 64 := by decide
  exact ⟨⟨hlong, hzero, houtcome _ _ _ _ hlong hzero⟩, ⟨hzeros, hnone, hbehind _ _ _ hzeros hnone⟩,
    hplain, hlt, hfits, hcounters _ hplain _ _ hlt hfits⟩

end Abridge
