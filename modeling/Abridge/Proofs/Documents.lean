import Abridge.Json.Decode
import Abridge.Proofs.Numerals
import Mathlib.Data.List.TakeWhile

/-!
# Documents that are read back

The reader of documents undoes their layout.  A string comes back character by character, whatever
characters it has.  A number comes back when its text alone does: an integer of 64 bits always, a float
when the two roundings of the reader find it again.  A number stops at the comma or the line break behind
it, and arrays and objects go through their items in order, on fuel that is the length of the text.

## What is here

* `Json.readString_quote`: a written string is read back.
* `JsonNumber.ReadsBack`: the number comes back from its text, and `JsonNumber.readsBack_integer`: every
  integer of 64 bits does.
* `Json.Fits`: values of bounded nesting whose numbers come back.
* `Json.parse?_pretty`: the text of such a value is read back.
-/

set_option autoImplicit false

namespace Abridge

namespace Json

/-! ## Strings -/

/-- The two digits of a control character give it back. -/
theorem unit_hexDigits : ∀ n < 32,
    unit '0' '0' (Text.hexDigit (n / 16)) (Text.hexDigit (n % 16)) = some n := by
  decide

theorem readString_cons {c : Char} (hquote : c ≠ '"') (hslash : c ≠ '\\') (hc : 32 ≤ c.toNat)
    (done rest : List Char) : readString done (c :: rest) = readString (c :: done) rest := by
  rw [readString, if_neg (by omega)]
  all_goals simp_all

theorem readString_unit {n : Nat} (hn : n < 32) (done rest : List Char) :
    readString done
      ('\\' :: 'u' :: '0' :: '0' :: Text.hexDigit (n / 16) :: Text.hexDigit (n % 16) :: rest) =
        readString (Char.ofNat n :: done) rest := by
  rw [readString, unit_hexDigits n hn]
  dsimp only
  rw [if_neg (by omega), if_neg (by omega)]

/-- One written character is read back. -/
theorem readString_escape (c : Char) (done rest : List Char) :
    readString done (escape c ++ rest) = readString (c :: done) rest := by
  unfold escape
  split
  · rfl
  · rfl
  · rfl
  · rfl
  · rfl
  · rename_i hquote hslash _ _ _
    have hchar : Char.ofNat c.toNat = c := Char.ofNat_toNat c
    split_ifs with hback hfeed hcontrol
    · rw [← hchar, hback]
      rfl
    · rw [← hchar, hfeed]
      rfl
    · rw [List.cons_append, List.cons_append, List.cons_append, List.cons_append, List.cons_append,
        List.cons_append, List.nil_append, readString_unit hcontrol, hchar]
    · exact readString_cons hquote hslash (by omega) done rest

theorem readString_flatMap (s done rest : List Char) :
    readString done (s.flatMap escape ++ '"' :: rest) =
      some (String.ofList (done.reverse ++ s), rest) := by
  induction s generalizing done with
  | nil => rw [List.flatMap_nil, List.nil_append, readString, List.append_nil]
  | cons c s ih =>
    rw [List.flatMap_cons, List.append_assoc, readString_escape, ih, List.reverse_cons,
      List.append_assoc, List.singleton_append]

/-- **A written string is read back.** -/
theorem readString_quote (s : String) (rest : List Char) :
    ∃ cs, (quote s).toList = '"' :: cs ∧ readString [] (cs ++ rest) = some (s, rest) := by
  refine ⟨s.toList.flatMap escape ++ ['"'], String.toList_ofList, ?_⟩
  rw [List.append_assoc, List.singleton_append, readString_flatMap, List.reverse_nil,
    List.nil_append, String.ofList_toList]

/-! ## Numbers -/

/-- A text that does not go on with a number before it. -/
def EndsNumber (rest : List Char) : Prop :=
  ∀ c ∈ rest.head?, c.isDigit = false ∧ c ≠ '.' ∧ c ≠ 'e' ∧ c ≠ 'E'

theorem endsNumber_nil : EndsNumber [] := by simp [EndsNumber]

/-- An exponent is a mark, a sign and digits. -/
theorem readExponent_mark {c : Char} (hc : (c == 'e' || c == 'E') = true) (cs : List Char) :
    readExponent (c :: cs) =
      let digits := (Double.readSign cs).2.takeWhile Char.isDigit
      if digits.isEmpty then none
      else
        let n : Int := digitsValue digits
        some (some (if (Double.readSign cs).1 then -n else n),
          (Double.readSign cs).2.dropWhile Char.isDigit) := by
  unfold readExponent
  dsimp only
  rw [if_pos hc]
  split
  · rfl
  · rfl
  · rename_i hplus hminus
    have hsign : Double.readSign cs = (false, cs) := by
      rw [Double.readSign]
      · exact hminus
      · exact hplus
    rw [hsign]

theorem readExponent_plain {c : Char} (hc : (c == 'e' || c == 'E') = false) (cs : List Char) :
    readExponent (c :: cs) = some (none, c :: cs) := by
  unfold readExponent
  dsimp only
  rw [if_neg (Bool.eq_false_iff.1 hc)]

theorem readSign_append {cs : List Char} (hcs : cs ≠ []) (rest : List Char) :
    Double.readSign (cs ++ rest) = ((Double.readSign cs).1, (Double.readSign cs).2 ++ rest) := by
  cases cs with
  | nil => exact absurd rfl hcs
  | cons c cs =>
    rw [List.cons_append]
    unfold Double.readSign
    split <;> simp_all

section

variable {rest : List Char} (hrest : EndsNumber rest)
include hrest

theorem EndsNumber.takeWhile_eq (cs : List Char) :
    (cs ++ rest).takeWhile Char.isDigit = cs.takeWhile Char.isDigit := by
  have hnone : rest.takeWhile Char.isDigit = [] := by
    cases rest with
    | nil => rfl
    | cons c rest => exact List.takeWhile_cons_of_neg (by simp [(hrest c rfl).1])
  rw [List.takeWhile_append, hnone]
  split_ifs with hlength
  · rw [List.append_nil]
    exact ((List.takeWhile_prefix _).eq_of_length hlength).symm
  · rfl

theorem EndsNumber.dropWhile_eq (cs : List Char) :
    (cs ++ rest).dropWhile Char.isDigit = cs.dropWhile Char.isDigit ++ rest := by
  have hall : rest.dropWhile Char.isDigit = rest := by
    cases rest with
    | nil => rfl
    | cons c rest => exact List.dropWhile_cons_of_neg (by simp [(hrest c rfl).1])
  rw [List.dropWhile_append, hall]
  split_ifs with hempty
  · rw [List.isEmpty_iff.1 hempty, List.nil_append]
  · rfl

theorem EndsNumber.readFraction {cs r : List Char} {fraction : Option (List Char)}
    (h : readFraction cs = some (fraction, r)) :
    readFraction (cs ++ rest) = some (fraction, r ++ rest) := by
  cases cs with
  | nil =>
    cases h
    cases rest with
    | nil => rfl
    | cons c rest =>
      rw [List.nil_append, Json.readFraction]
      exact fun _ hcons => (hrest c rfl).2.1 (List.cons.inj hcons).1
  | cons c cs =>
    by_cases hc : c = '.'
    · subst hc
      rw [Json.readFraction] at h
      rw [List.cons_append, Json.readFraction, hrest.takeWhile_eq, hrest.dropWhile_eq]
      split_ifs at h ⊢ with hempty
      cases h
      rfl
    · rw [Json.readFraction] at h
      · cases h
        rw [List.cons_append, Json.readFraction]
        exact fun _ hcons => hc (List.cons.inj hcons).1
      · exact fun _ hcons => hc (List.cons.inj hcons).1

theorem EndsNumber.readExponent {cs r : List Char} {exponent : Option Int}
    (h : readExponent cs = some (exponent, r)) :
    readExponent (cs ++ rest) = some (exponent, r ++ rest) := by
  cases cs with
  | nil =>
    cases h
    cases rest with
    | nil => rfl
    | cons c rest =>
      obtain ⟨-, -, hsmall, hlarge⟩ := hrest c rfl
      exact readExponent_plain (by simp [hsmall, hlarge]) rest
  | cons c cs =>
    rw [List.cons_append]
    cases hmark : c == 'e' || c == 'E' with
    | false =>
      rw [readExponent_plain hmark] at h ⊢
      cases h
      rfl
    | true =>
      rw [readExponent_mark hmark] at h ⊢
      have hcs : cs ≠ [] := by
        rintro rfl
        cases h
      rw [readSign_append hcs, hrest.takeWhile_eq, hrest.dropWhile_eq]
      dsimp only at h ⊢
      split_ifs at h ⊢ with hempty
      · cases h
        rfl
      · cases h
        rfl

theorem EndsNumber.readNumber {cs r : List Char} {negative : Bool} {n : JsonNumber}
    (h : readNumber negative cs = some (n, r)) :
    readNumber negative (cs ++ rest) = some (n, r ++ rest) := by
  unfold Json.readNumber at h ⊢
  rw [hrest.takeWhile_eq, hrest.dropWhile_eq]
  dsimp only at h ⊢
  split_ifs at h ⊢ with hwhole
  obtain ⟨⟨fraction, after⟩, hfraction, h⟩ := Option.bind_eq_some_iff.1 h
  obtain ⟨⟨exponent, last⟩, hexponent, h⟩ := Option.bind_eq_some_iff.1 h
  obtain ⟨value, hvalue, h⟩ := Option.bind_eq_some_iff.1 h
  rw [hrest.readFraction hfraction]
  dsimp only [Option.bind_eq_bind, Option.bind_some]
  rw [hrest.readExponent hexponent]
  dsimp only [Option.bind_some]
  rw [hvalue]
  cases h
  rfl

end

/-- Taking in digits makes a number no smaller. -/
theorem le_ofDigitChars (ds : List Char) (s : Nat) : s ≤ Nat.ofDigitChars 10 ds s := by
  induction ds generalizing s with
  | nil => exact Nat.le_refl s
  | cons c ds ih =>
    rw [Nat.ofDigitChars_cons]
    exact le_trans (by omega) (ih _)

/-- Digits whose number fits are all taken into the significand. -/
theorem absorb_eq {ds : List Char} {s : Nat} (taken : Nat)
    (h : Nat.ofDigitChars 10 ds s < significandLimit) :
    absorb s taken ds = (Nat.ofDigitChars 10 ds s, taken + ds.length) := by
  induction ds generalizing s taken with
  | nil => rfl
  | cons c ds ih =>
    rw [Nat.ofDigitChars_cons] at h ⊢
    have hfits : 10 * s + digitValue c < significandLimit := lt_of_le_of_lt (le_ofDigitChars ds _) h
    rw [absorb, if_pos hfits, List.length_cons, ← Nat.add_assoc, Nat.add_right_comm]
    exact ih (taken + 1) h

/-- A natural number within the limit is read with its exact value. -/
theorem readNumber_toDigits {n : Nat} (hn : n < significandLimit) (negative : Bool) :
    readNumber negative (Nat.toDigits 10 n) = some (integerNumber negative n, []) := by
  have hdigits : ∀ d ∈ Nat.toDigits 10 n, d.isDigit = true := fun d hd =>
    Nat.isDigit_of_mem_toDigits (by norm_num) (by norm_num) hd
  have hvalue : Nat.ofDigitChars 10 (Nat.toDigits 10 n) 0 = n := Nat.ofDigitChars_ten_toDigits
  have habsorb := absorb_eq 0 (by rwa [hvalue] : Nat.ofDigitChars 10 (Nat.toDigits 10 n) 0 < _)
  rw [hvalue, Nat.zero_add] at habsorb
  have hwhole : ((Nat.toDigits 10 n).isEmpty ||
      ((Nat.toDigits 10 n).head? == some '0' && decide ((Nat.toDigits 10 n).length > 1))) = false := by
    rcases Nat.eq_zero_or_pos n with rfl | hpos
    · rfl
    · simp [Double.Decimal.head_toDigits_ne hpos.ne']
  unfold readNumber
  rw [List.takeWhile_eq_self_iff.2 hdigits, List.dropWhile_eq_nil_iff.2 hdigits]
  dsimp only
  rw [hwhole, if_neg Bool.false_ne_true]
  simp [readFraction, readExponent, numberOf, habsorb]

end Json

/-! ## The texts of numbers -/

/-- A text that a document may hold as a number: perhaps a sign, then a digit, and no blanks. -/
def IsNumberText (text : String) : Prop :=
  ∃ negative c cs, text.toList = (Double.signText negative).toList ++ c :: cs ∧
    c.isDigit = true ∧ ∀ d ∈ c :: cs, Json.isBlank d = false

theorem Json.isBlank_of_isDigit {c : Char} (h : c.isDigit = true) : Json.isBlank c = false := by
  rw [Bool.eq_false_iff]
  intro hblank
  have : c = ' ' ∨ c = '\t' ∨ c = '\n' ∨ c = '\r' := by
    simpa [Json.isBlank, or_assoc] using hblank
  rcases this with rfl | rfl | rfl | rfl <;> cases h

theorem IsNumberText.of_digits {text : String} (negative : Bool) (digits more : List Char)
    (htext : text.toList = (Double.signText negative).toList ++ (digits ++ more))
    (hne : digits ≠ []) (hdigits : ∀ d ∈ digits, d.isDigit = true)
    (hmore : ∀ d ∈ more, Json.isBlank d = false) : IsNumberText text := by
  obtain ⟨c, cs, rfl⟩ := List.exists_cons_of_ne_nil hne
  refine ⟨negative, c, cs ++ more, htext, hdigits c List.mem_cons_self, ?_⟩
  intro d hd
  rw [← List.cons_append, List.mem_append] at hd
  rcases hd with hd | hd
  · exact Json.isBlank_of_isDigit (hdigits d hd)
  · exact hmore d hd

namespace Double

theorem digits_toString (n : Nat) :
    (toString n).toList ≠ [] ∧ ∀ d ∈ (toString n).toList, d.isDigit = true := by
  refine ⟨?_, fun d hd => isDigit_of_mem_toString hd⟩
  rw [toList_toString]
  exact Nat.toDigits_ne_nil

/-- The exponent notation starts with a digit and has no blanks. -/
theorem isNumberText_scientific (negative : Bool) (d : Decimal) :
    IsNumberText (signText negative ++ d.scientific) := by
  obtain ⟨hne, hdigits⟩ := digits_toString d.digits
  obtain ⟨-, hexponent⟩ := digits_toString d.leading.natAbs
  obtain ⟨c, cs, hcons⟩ := List.exists_cons_of_ne_nil hne
  have hpointed : ∃ more, d.pointed.toList = c :: more ∧ ∀ e ∈ more, Json.isBlank e = false := by
    unfold Decimal.pointed
    rw [hcons]
    rw [hcons] at hdigits
    cases cs with
    | nil => exact ⟨[], String.toList_ofList, by simp⟩
    | cons c' cs =>
      refine ⟨'.' :: c' :: cs, String.toList_ofList, ?_⟩
      intro e he
      rcases List.mem_cons.1 he with rfl | he
      · rfl
      · exact Json.isBlank_of_isDigit (hdigits e (List.mem_cons_of_mem _ he))
  obtain ⟨more, hmore, hblank⟩ := hpointed
  refine .of_digits negative [c]
    (more ++ 'e' :: (if d.leading < 0 then '-' else '+') :: (toString d.leading.natAbs).toList)
    ?_ (by simp) ?_ ?_
  · unfold Decimal.scientific
    simp only [String.toList_append, hmore]
    split_ifs <;> simp
  · intro e he
    rw [List.mem_singleton.1 he]
    exact hdigits c (by rw [hcons]; exact List.mem_cons_self)
  · intro e he
    rcases List.mem_append.1 he with he | he
    · exact hblank e he
    rcases List.mem_cons.1 he with rfl | he
    · rfl
    rcases List.mem_cons.1 he with rfl | he
    · split_ifs <;> rfl
    · exact Json.isBlank_of_isDigit (hexponent e he)

/-- So does the positional notation. -/
theorem isNumberText_point (negative : Bool) (d : Decimal) (fraction : String)
    (hfraction : ∀ e ∈ fraction.toList, e.isDigit = true) :
    IsNumberText (signText negative ++ (d.split.1 ++ "." ++ fraction)) := by
  refine .of_digits negative d.split.1.toList ('.' :: fraction.toList) (by simp) d.whole_ne_nil ?_ ?_
  · exact fun e he => Decimal.isDigit_of_mem_split (List.mem_append_left _ he)
  · intro e he
    rcases List.mem_cons.1 he with rfl | he
    · rfl
    · exact Json.isBlank_of_isDigit (hfraction e he)

theorem isNumberText_jsonText {x : Double} {text : String} (h : x.jsonText = some text) :
    IsNumberText text := by
  cases x with
  | infinite _ => cases h
  | nan => cases h
  | finite negative m q _ =>
    obtain rfl := Option.some.inj h
    split_ifs
    · exact .of_digits negative ['0'] ['.', '0'] (by simp) (List.cons_ne_nil _ _)
        (List.forall_mem_singleton.2 rfl) (List.forall_mem_cons.2 ⟨rfl, List.forall_mem_singleton.2 rfl⟩)
    · split
      · rename_i whole hsplit
        have hzero := isNumberText_point negative (shortest m q) "0" (by simp)
        rw [hsplit, String.append_assoc] at hzero
        exact hzero
      · rename_i whole fraction _ hsplit
        have hpoint := isNumberText_point negative (shortest m q) (shortest m q).split.2
          fun e he => Decimal.isDigit_of_mem_split (List.mem_append_right _ he)
        rw [hsplit] at hpoint
        exact hpoint
    · exact isNumberText_scientific _ _

end Double

namespace Json

theorem skipBlanks_mark {c : Char} (hc : isBlank c = false) (cs : List Char) :
    skipBlanks (c :: cs) = c :: cs :=
  List.dropWhile_cons_of_neg (by simp [hc])

theorem readValue_minus (fuel depth : Nat) (cs : List Char) :
    readValue (fuel + 1) depth ('-' :: cs) =
      (readNumber true cs).map fun (n, rest) => (.number n, rest) := by
  rw [readValue]
  rfl

theorem readValue_digit {c : Char} (hc : c.isDigit = true) (fuel depth : Nat) (cs : List Char) :
    readValue (fuel + 1) depth (c :: cs) =
      (readNumber false (c :: cs)).map fun (n, rest) => (.number n, rest) := by
  rw [readValue, skipBlanks_mark (isBlank_of_isDigit hc)]
  split <;> first | rfl | (rename_i heq; cases heq; cases hc)

theorem readValue_signed {c : Char} (hc : c.isDigit = true) (negative : Bool) (fuel depth : Nat)
    (cs : List Char) :
    readValue (fuel + 1) depth ((Double.signText negative).toList ++ c :: cs) =
      (readNumber negative (c :: cs)).map fun (n, rest) => (.number n, rest) := by
  cases negative with
  | false => exact readValue_digit hc fuel depth cs
  | true => exact readValue_minus fuel depth (c :: cs)

theorem readFraction_suffix {cs r : List Char} {fraction : Option (List Char)}
    (h : readFraction cs = some (fraction, r)) : r <:+ cs := by
  unfold readFraction at h
  split at h
  · dsimp only at h
    split_ifs at h
    cases h
    exact (List.dropWhile_suffix _).trans (List.suffix_cons _ _)
  · cases h
    exact List.suffix_refl _

theorem readSign_suffix (cs : List Char) : (Double.readSign cs).2 <:+ cs := by
  unfold Double.readSign
  split
  · exact List.suffix_cons _ _
  · exact List.suffix_cons _ _
  · exact List.suffix_refl _

theorem readExponent_suffix {cs r : List Char} {exponent : Option Int}
    (h : readExponent cs = some (exponent, r)) : r <:+ cs := by
  cases cs with
  | nil =>
    cases h
    exact List.suffix_refl _
  | cons c cs =>
    cases hmark : c == 'e' || c == 'E' with
    | false =>
      rw [readExponent_plain hmark] at h
      cases h
      exact List.suffix_refl _
    | true =>
      rw [readExponent_mark hmark] at h
      dsimp only at h
      split_ifs at h <;> cases h <;>
        exact ((List.dropWhile_suffix _).trans (readSign_suffix cs)).trans (List.suffix_cons _ _)

/-- A number leaves the end of the text that it was read from. -/
theorem readNumber_suffix {cs r : List Char} {negative : Bool} {n : JsonNumber}
    (h : readNumber negative cs = some (n, r)) : r <:+ cs := by
  unfold readNumber at h
  dsimp only at h
  split_ifs at h
  obtain ⟨⟨fraction, after⟩, hfraction, h⟩ := Option.bind_eq_some_iff.1 h
  obtain ⟨⟨exponent, last⟩, hexponent, h⟩ := Option.bind_eq_some_iff.1 h
  obtain ⟨value, -, h⟩ := Option.bind_eq_some_iff.1 h
  cases h
  exact ((readExponent_suffix hexponent).trans (readFraction_suffix hfraction)).trans
    (List.dropWhile_suffix _)

theorem parse?_eq_some_iff {text : String} {v : Json} :
    parse? text = some v ↔
      ∃ rest, readValue (text.toList.length + 1) maxDepth text.toList = some (v, rest) ∧
        skipBlanks rest = [] := by
  unfold parse?
  dsimp only
  cases hread : readValue (text.toList.length + 1) maxDepth text.toList with
  | none => simp
  | some read =>
    obtain ⟨w, rest⟩ := read
    simp [and_comm]

end Json

namespace JsonNumber

/-- The number comes back from its text.  A float that is not finite has no text and does not. -/
def ReadsBack (n : JsonNumber) : Prop := Json.parse? n.text = some (.number n)

theorem readsBack_iff {n : JsonNumber} :
    n.ReadsBack ↔ (Json.parse? n.text).bind Json.asNumber? = some n := by
  unfold ReadsBack
  constructor
  · intro h
    rw [h]
    rfl
  · intro h
    obtain ⟨v, hv, hn⟩ := Option.bind_eq_some_iff.1 h
    unfold Json.asNumber? at hn
    split at hn
    · rw [hv, Option.some.inj hn]
    · cases hn

instance (n : JsonNumber) : Decidable n.ReadsBack := decidable_of_iff _ readsBack_iff.symm

theorem toList_integer (n : Int) :
    (integer n).text.toList = (Double.signText (decide (n < 0))).toList ++ Nat.toDigits 10 n.natAbs := by
  cases n with
  | ofNat n => exact Double.toList_toString n
  | negSucc n =>
    have htext : (integer (.negSucc n)).text = "-" ++ toString (n + 1) := rfl
    rw [htext, String.toList_append, Double.toList_toString, Int.natAbs_negSucc,
      decide_eq_true (Int.negSucc_lt_zero n)]
    rfl

theorem isNumberText_integer (n : Int) : IsNumberText (integer n).text := by
  refine .of_digits (decide (n < 0)) (Nat.toDigits 10 n.natAbs) [] ?_ Nat.toDigits_ne_nil ?_ (by simp)
  · rw [toList_integer, List.append_nil]
  · exact fun d hd => Nat.isDigit_of_mem_toDigits (by norm_num) (by norm_num) hd

/-- A number that comes back has a text of its own. -/
theorem ReadsBack.isNumberText {n : JsonNumber} (h : n.ReadsBack) : IsNumberText n.text := by
  cases n with
  | integer n => exact isNumberText_integer n
  | float x =>
    cases htext : x.jsonText with
    | some text =>
      have hfloat : (float x).text = text := by rw [JsonNumber.text, htext]; rfl
      rw [hfloat]
      exact Double.isNumberText_jsonText htext
    | none =>
      have hnull : (float x).text = "null" := by rw [JsonNumber.text, htext]; rfl
      rw [ReadsBack, hnull] at h
      cases h

/-- **A number that comes back does so in any place of a document.** -/
theorem ReadsBack.readValue {n : JsonNumber} (h : n.ReadsBack) {rest : List Char}
    (hrest : Json.EndsNumber rest) (fuel depth : Nat) :
    Json.readValue (fuel + 1) depth (n.text.toList ++ rest) = some (.number n, rest) := by
  obtain ⟨negative, c, cs, htext, hc, hblank⟩ := h.isNumberText
  obtain ⟨r, hread, hr⟩ := Json.parse?_eq_some_iff.1 h
  rw [htext, Json.readValue_signed hc] at hread
  obtain ⟨⟨value, last⟩, hnumber, hpair⟩ := Option.map_eq_some_iff.1 hread
  cases hpair
  have hlast : r = [] := by
    cases r with
    | nil => rfl
    | cons d r =>
      have hd := hblank d ((Json.readNumber_suffix hnumber).subset List.mem_cons_self)
      rw [Json.skipBlanks, List.dropWhile_cons_of_neg (by simp [hd])] at hr
      cases hr
  subst hlast
  rw [htext, List.append_assoc, List.cons_append, Json.readValue_signed hc, ← List.cons_append,
    hrest.readNumber hnumber]
  rfl

/-- An integer of 64 bits comes back. -/
theorem readsBack_integer {n : Int} (hleast : -(2 ^ 63) ≤ n) (hmost : n < 2 ^ 64) :
    (integer n).ReadsBack := by
  have hlimit : Json.significandLimit = 2 ^ 64 := rfl
  have hread := Json.readNumber_toDigits (n := n.natAbs) (by omega) (decide (n < 0))
  obtain ⟨c, cs, hdigits⟩ :=
    List.exists_cons_of_ne_nil (Nat.toDigits_ne_nil (b := 10) (n := n.natAbs))
  have hc : c.isDigit = true :=
    Nat.isDigit_of_mem_toDigits (by norm_num) (by norm_num) (hdigits ▸ List.mem_cons_self)
  have hvalue : Json.integerNumber (decide (n < 0)) n.natAbs = integer n := by
    unfold Json.integerNumber
    simp only [Nat.pow_eq, Bool.not_eq_true', decide_eq_false_iff_not]
    split_ifs with hsign hzero hbound
    · omega
    · exact congrArg integer (by omega)
    · omega
    · exact congrArg integer (by omega)
  refine Json.parse?_eq_some_iff.2 ⟨[], ?_, rfl⟩
  rw [toList_integer, hdigits, Json.readValue_signed hc, ← hdigits, hread, hvalue]
  rfl

end JsonNumber

/-! ## Values -/

namespace Json

/-- Values whose arrays and objects are nested at most so deep, and whose numbers come back. -/
inductive Fits : Nat → Json → Prop
  | null {n : Nat} : Fits n .null
  | bool {n : Nat} (b : Bool) : Fits n (.bool b)
  | number {n : Nat} {v : JsonNumber} : v.ReadsBack → Fits n (.number v)
  | string {n : Nat} (s : String) : Fits n (.string s)
  | array {n : Nat} {vs : List Json} : (∀ v ∈ vs, Fits n v) → Fits (n + 1) (.array vs)
  | object {n : Nat} {ms : List (String × Json)} : (∀ m ∈ ms, Fits n m.2) → Fits (n + 1) (.object ms)

/-- The layout of a value is read back, whatever ends a number after it, where fewer characters than
the fuel are needed and enough brackets may open. -/
def Returns (n : Nat) (v : Json) : Prop :=
  ∀ (level fuel depth : Nat) (rest : List Char), EndsNumber rest →
    (prettyAt level v).toList.length < fuel → n < depth →
      readValue fuel depth ((prettyAt level v).toList ++ rest) = some (v, rest)

theorem newline_eq (level : Nat) :
    (newline level).toList = '\n' :: List.replicate (2 * level) ' ' := by
  rw [newline, String.toList_append, Double.toList_copies]
  rfl

theorem skipBlanks_newline (level : Nat) (cs : List Char) :
    skipBlanks ((newline level).toList ++ cs) = skipBlanks cs := by
  have hblanks : ∀ c ∈ (newline level).toList, isBlank c = true := by
    intro c hc
    rw [newline_eq] at hc
    rcases List.mem_cons.1 hc with rfl | hc
    · rfl
    · rw [List.eq_of_mem_replicate hc]
      rfl
  rw [skipBlanks, List.dropWhile_append_of_pos hblanks, skipBlanks]

/-- Reading a value starts behind the blanks. -/
theorem readValue_skip {cs cs' : List Char} (h : skipBlanks cs = skipBlanks cs') (fuel depth : Nat) :
    readValue fuel depth cs = readValue fuel depth cs' := by
  cases fuel with
  | zero => simp only [readValue]
  | succ fuel => rw [readValue, readValue, h]

theorem endsNumber_comma (rest : List Char) : EndsNumber (',' :: rest) := by simp [EndsNumber]

theorem endsNumber_newline (level : Nat) (rest : List Char) :
    EndsNumber ((newline level).toList ++ rest) := by
  rw [newline_eq]
  simp [EndsNumber]

theorem toList_prettyItems_cons (level : Nat) (v : Json) (vs : List Json) :
    (prettyItems level (v :: vs)).toList =
      (newline level).toList ++ ((prettyAt level v).toList ++
        if vs = [] then [] else ',' :: (prettyItems level vs).toList) := by
  cases vs with
  | nil => simp [prettyItems]
  | cons w vs => simp [prettyItems]

theorem toList_prettyMembers_cons (level : Nat) (k : String) (v : Json) (ms : List (String × Json)) :
    (prettyMembers level ((k, v) :: ms)).toList =
      (newline level).toList ++ ((quote k).toList ++ (':' :: ' ' :: ((prettyAt level v).toList ++
        if ms = [] then [] else ',' :: (prettyMembers level ms).toList))) := by
  cases ms with
  | nil => simp [prettyMembers]
  | cons m ms => simp [prettyMembers]

section

variable {n : Nat} {v : Json} (hv : Returns n v) {level fuel depth : Nat} {more : List Char}
  (hmore : EndsNumber more) (hfuel : (prettyAt level v).toList.length < fuel) (hdepth : n < depth)
include hv hmore hfuel hdepth

/-- One item comes back, and a comma behind it goes on with the array. -/
theorem readItems_comma {rest : List Char} (hnext : skipBlanks more = ',' :: rest) (done : List Json) :
    readItems (fuel + 1) depth done
        ((newline level).toList ++ ((prettyAt level v).toList ++ more)) =
      readItems fuel depth (v :: done) rest := by
  rw [readItems, readValue_skip (skipBlanks_newline level _), hv level fuel depth _ hmore hfuel hdepth]
  simp only [hnext]

/-- One item comes back, and a bracket behind it closes the array. -/
theorem readItems_close {rest : List Char} (hnext : skipBlanks more = ']' :: rest) (done : List Json) :
    readItems (fuel + 1) depth done
        ((newline level).toList ++ ((prettyAt level v).toList ++ more)) =
      some (.array (v :: done).reverse, rest) := by
  rw [readItems, readValue_skip (skipBlanks_newline level _), hv level fuel depth _ hmore hfuel hdepth]
  simp only [hnext]

/-- The value behind a key comes back. -/
theorem readValue_member : readValue fuel depth (' ' :: ((prettyAt level v).toList ++ more)) =
    some (v, more) := by
  have hspace : skipBlanks (' ' :: ((prettyAt level v).toList ++ more)) =
      skipBlanks ((prettyAt level v).toList ++ more) := List.dropWhile_cons_of_pos rfl
  rw [readValue_skip hspace, hv level fuel depth _ hmore hfuel hdepth]

/-- One member comes back, and a comma behind it goes on with the object. -/
theorem readMembers_comma (k : String) {rest : List Char} (hnext : skipBlanks more = ',' :: rest)
    (done : List (String × Json)) :
    readMembers (fuel + 1) depth done ((newline level).toList ++ ((quote k).toList ++
        (':' :: ' ' :: ((prettyAt level v).toList ++ more)))) =
      readMembers fuel depth ((k, v) :: done) rest := by
  obtain ⟨cs, hquote, hkey⟩ := readString_quote k (':' :: ' ' :: ((prettyAt level v).toList ++ more))
  rw [readMembers, skipBlanks_newline, hquote, List.cons_append, skipBlanks_mark rfl]
  simp only [hkey, skipBlanks_mark (show isBlank ':' = false from rfl),
    readValue_member hv hmore hfuel hdepth, hnext]

/-- One member comes back, and a brace behind it closes the object. -/
theorem readMembers_close (k : String) {rest : List Char} (hnext : skipBlanks more = '\x7d' :: rest)
    (done : List (String × Json)) :
    readMembers (fuel + 1) depth done ((newline level).toList ++ ((quote k).toList ++
        (':' :: ' ' :: ((prettyAt level v).toList ++ more)))) =
      some (.object ((k, v) :: done).reverse, rest) := by
  obtain ⟨cs, hquote, hkey⟩ := readString_quote k (':' :: ' ' :: ((prettyAt level v).toList ++ more))
  rw [readMembers, skipBlanks_newline, hquote, List.cons_append, skipBlanks_mark rfl]
  simp only [hkey, skipBlanks_mark (show isBlank ':' = false from rfl),
    readValue_member hv hmore hfuel hdepth, hnext]

end

/-- The items of an array come back in order. -/
theorem readItems_pretty {n : Nat} {vs : List Json} (hvs : ∀ v ∈ vs, Returns n v) (hne : vs ≠ [])
    (level outer : Nat) {depth : Nat} (hdepth : n < depth) (rest : List Char) :
    ∀ (fuel : Nat) (done : List Json), (prettyItems level vs).toList.length < fuel →
      readItems fuel depth done
          ((prettyItems level vs).toList ++ ((newline outer).toList ++ ']' :: rest)) =
        some (.array (done.reverse ++ vs), rest) := by
  induction vs with
  | nil => exact absurd rfl hne
  | cons v vs ih =>
    intro fuel done hfuel
    obtain ⟨hv, hvs⟩ := List.forall_mem_cons.1 hvs
    cases fuel with
    | zero => exact absurd hfuel (Nat.not_lt_zero _)
    | succ fuel =>
      rw [toList_prettyItems_cons, newline_eq] at hfuel
      simp only [List.length_append, List.length_cons] at hfuel
      rw [toList_prettyItems_cons, List.append_assoc, List.append_assoc]
      cases vs with
      | nil =>
        have hnext : skipBlanks ((newline outer).toList ++ ']' :: rest) = ']' :: rest := by
          rw [skipBlanks_newline, skipBlanks_mark rfl]
        rw [if_pos rfl, List.nil_append,
          readItems_close hv (endsNumber_newline outer _) (by omega) hdepth hnext, List.reverse_cons]
      | cons w vs =>
        rw [if_neg (List.cons_ne_nil w vs)] at hfuel ⊢
        rw [List.length_cons] at hfuel
        rw [List.cons_append,
          readItems_comma hv (endsNumber_comma _) (by omega) hdepth (skipBlanks_mark rfl _), ih hvs (List.cons_ne_nil w vs) fuel (v :: done) (by omega), List.reverse_cons,
          List.append_assoc, List.singleton_append]

/-- The members of an object come back in order. -/
theorem readMembers_pretty {n : Nat} {ms : List (String × Json)} (hms : ∀ m ∈ ms, Returns n m.2)
    (hne : ms ≠ []) (level outer : Nat) {depth : Nat} (hdepth : n < depth) (rest : List Char) :
    ∀ (fuel : Nat) (done : List (String × Json)), (prettyMembers level ms).toList.length < fuel →
      readMembers fuel depth done
          ((prettyMembers level ms).toList ++ ((newline outer).toList ++ '\x7d' :: rest)) =
        some (.object (done.reverse ++ ms), rest) := by
  induction ms with
  | nil => exact absurd rfl hne
  | cons m ms ih =>
    intro fuel done hfuel
    obtain ⟨k, v⟩ := m
    obtain ⟨hv, hms⟩ := List.forall_mem_cons.1 hms
    dsimp only at hv
    cases fuel with
    | zero => exact absurd hfuel (Nat.not_lt_zero _)
    | succ fuel =>
      rw [toList_prettyMembers_cons, newline_eq] at hfuel
      simp only [List.length_append, List.length_cons] at hfuel
      rw [toList_prettyMembers_cons, List.append_assoc, List.append_assoc, List.cons_append,
        List.cons_append, List.append_assoc]
      cases ms with
      | nil =>
        have hnext : skipBlanks ((newline outer).toList ++ '\x7d' :: rest) = '\x7d' :: rest := by
          rw [skipBlanks_newline, skipBlanks_mark rfl]
        rw [if_pos rfl, List.nil_append,
          readMembers_close hv (endsNumber_newline outer _) (by omega) hdepth k hnext,
          List.reverse_cons]
      | cons m ms =>
        rw [if_neg (List.cons_ne_nil m ms)] at hfuel ⊢
        rw [List.length_cons] at hfuel
        rw [List.cons_append,
          readMembers_comma hv (endsNumber_comma _) (by omega) hdepth k (skipBlanks_mark rfl _), ih hms (List.cons_ne_nil m ms) fuel ((k, v) :: done) (by omega), List.reverse_cons,
          List.append_assoc, List.singleton_append]

theorem skipBlanks_skipBlanks (cs : List Char) : skipBlanks (skipBlanks cs) = skipBlanks cs := by
  induction cs with
  | nil => rfl
  | cons c cs ih =>
    cases hc : isBlank c with
    | false => rw [skipBlanks_mark hc, skipBlanks_mark hc]
    | true =>
      have hskip : skipBlanks (c :: cs) = skipBlanks cs := List.dropWhile_cons_of_pos hc
      rw [hskip, ih]

theorem readItems_skip (fuel depth : Nat) (done : List Json) (cs : List Char) :
    readItems fuel depth done (skipBlanks cs) = readItems fuel depth done cs := by
  cases fuel with
  | zero => simp only [readItems]
  | succ fuel => rw [readItems, readItems, readValue_skip (skipBlanks_skipBlanks cs)]

theorem readMembers_skip (fuel depth : Nat) (done : List (String × Json)) (cs : List Char) :
    readMembers fuel depth done (skipBlanks cs) = readMembers fuel depth done cs := by
  cases fuel with
  | zero => simp only [readMembers]
  | succ fuel => rw [readMembers, readMembers, skipBlanks_skipBlanks]

/-- No value starts with the bracket that closes an array. -/
theorem readItems_bracket (fuel depth : Nat) (done : List Json) (cs : List Char) :
    readItems fuel depth done (']' :: cs) = none := by
  cases fuel with
  | zero => rw [readItems]
  | succ fuel =>
    cases fuel with
    | zero => rw [readItems, readValue]
    | succ fuel =>
      rw [readItems, readValue, skipBlanks_mark rfl]
      rfl

/-- No member starts with the brace that closes an object. -/
theorem readMembers_brace (fuel depth : Nat) (done : List (String × Json)) (cs : List Char) :
    readMembers fuel depth done ('\x7d' :: cs) = none := by
  cases fuel with
  | zero => rw [readMembers]
  | succ fuel =>
    rw [readMembers, skipBlanks_mark rfl]
    rfl

/-- A text that holds items makes an array behind its bracket. -/
theorem readValue_items {fuel depth : Nat} {cs : List Char} {r : Json × List Char} (hdepth : 1 < depth)
    (h : readItems fuel (depth - 1) [] cs = some r) :
    readValue (fuel + 1) depth ('[' :: cs) = some r := by
  rw [readValue, skipBlanks_mark rfl]
  simp only [if_neg (Nat.not_le.2 hdepth)]
  rw [← readItems_skip] at h
  split
  · rename_i heq
    rw [heq, readItems_bracket] at h
    cases h
  · exact h

/-- A text that holds members makes an object behind its brace. -/
theorem readValue_members {fuel depth : Nat} {cs : List Char} {r : Json × List Char}
    (hdepth : 1 < depth) (h : readMembers fuel (depth - 1) [] cs = some r) :
    readValue (fuel + 1) depth ('\x7b' :: cs) = some r := by
  rw [readValue, skipBlanks_mark rfl]
  simp only [if_neg (Nat.not_le.2 hdepth)]
  rw [← readMembers_skip] at h
  split
  · rename_i heq
    rw [heq, readMembers_brace] at h
    cases h
  · exact h

theorem returns_array {n : Nat} {vs : List Json} (hvs : ∀ v ∈ vs, Returns n v) :
    Returns (n + 1) (.array vs) := by
  intro level fuel depth rest _ hfuel hdepth
  cases fuel with
  | zero => exact absurd hfuel (Nat.not_lt_zero _)
  | succ fuel =>
    cases vs with
    | nil =>
      have htext : (prettyAt level (.array [])).toList = ['[', ']'] := by rw [prettyAt]; rfl
      rw [htext, List.cons_append, readValue, skipBlanks_mark rfl]
      simp only [if_neg (show ¬ depth ≤ 1 by omega)]
      rfl
    | cons v vs =>
      have htext : (prettyAt level (.array (v :: vs))).toList =
          '[' :: ((prettyItems (level + 1) (v :: vs)).toList ++ ((newline level).toList ++ [']'])) := by
        rw [prettyAt]
        · simp
        · exact List.cons_ne_nil v vs
      rw [htext, List.length_cons, List.length_append] at hfuel
      rw [htext, List.cons_append, List.append_assoc, List.append_assoc, List.singleton_append]
      refine readValue_items (by omega) ?_
      exact readItems_pretty hvs (List.cons_ne_nil v vs) (level + 1) level (by omega) rest fuel []
        (by omega)

theorem returns_object {n : Nat} {ms : List (String × Json)} (hms : ∀ m ∈ ms, Returns n m.2) :
    Returns (n + 1) (.object ms) := by
  intro level fuel depth rest _ hfuel hdepth
  cases fuel with
  | zero => exact absurd hfuel (Nat.not_lt_zero _)
  | succ fuel =>
    cases ms with
    | nil =>
      have htext : (prettyAt level (.object [])).toList = ['\x7b', '\x7d'] := by rw [prettyAt]; rfl
      rw [htext, List.cons_append, readValue, skipBlanks_mark rfl]
      simp only [if_neg (show ¬ depth ≤ 1 by omega)]
      rfl
    | cons m ms =>
      have htext : (prettyAt level (.object (m :: ms))).toList =
          '\x7b' :: ((prettyMembers (level + 1) (m :: ms)).toList ++
            ((newline level).toList ++ ['\x7d'])) := by
        rw [prettyAt]
        · simp
        · exact List.cons_ne_nil m ms
      rw [htext, List.length_cons, List.length_append] at hfuel
      rw [htext, List.cons_append, List.append_assoc, List.append_assoc, List.singleton_append]
      refine readValue_members (by omega) ?_
      exact readMembers_pretty hms (List.cons_ne_nil m ms) (level + 1) level (by omega) rest fuel []
        (by omega)

/-- **A layout is read back**, by induction on the value. -/
theorem Fits.returns {n : Nat} {v : Json} (h : Fits n v) : Returns n v := by
  induction h with
  | array _ ih => exact returns_array ih
  | object _ ih => exact returns_object ih
  | number hv =>
    intro level fuel depth rest hrest hfuel _
    obtain ⟨fuel, rfl⟩ : ∃ f, fuel = f + 1 := ⟨fuel - 1, by omega⟩
    rw [prettyAt]
    exact hv.readValue hrest fuel depth
  | null =>
    intro level fuel depth rest _ hfuel _
    obtain ⟨fuel, rfl⟩ : ∃ f, fuel = f + 1 := ⟨fuel - 1, by omega⟩
    rw [prettyAt, readValue]
    rfl
  | bool b =>
    intro level fuel depth rest _ hfuel _
    obtain ⟨fuel, rfl⟩ : ∃ f, fuel = f + 1 := ⟨fuel - 1, by omega⟩
    cases b <;> rw [prettyAt, readValue] <;> rfl
  | string s =>
    intro level fuel depth rest _ hfuel _
    obtain ⟨fuel, rfl⟩ : ∃ f, fuel = f + 1 := ⟨fuel - 1, by omega⟩
    obtain ⟨cs, hquote, hread⟩ := readString_quote s rest
    rw [prettyAt, hquote, List.cons_append, readValue, skipBlanks_mark rfl]
    simp only [hread]
    rfl

/-- **The text of a value is read back**, where its numbers are and its nesting is admitted. -/
theorem parse?_pretty {n : Nat} {v : Json} (h : Fits n v) (hn : n < maxDepth) :
    parse? v.pretty = some v := by
  have hread := h.returns 0 (v.pretty.toList.length + 1) maxDepth [] endsNumber_nil
    (Nat.lt_succ_self _) hn
  rw [List.append_nil] at hread
  exact parse?_eq_some_iff.2 ⟨[], hread, rfl⟩

end Json

end Abridge
