import Abridge.Json.Value
import Abridge.Proofs.Numerals
import Abridge.Proofs.ShortNames
import Abridge.Proofs.Spans
import Abridge.Syntax.Token

set_option autoImplicit false

namespace Abridge

/-! ## ASCII -/

theorem toNat_lt_of_isWordPart {c : Char} (h : Glossary.isWordPart c = true) : c.toNat < 128 := by
  have hupper : c.isUpper = true → c.val.toNat ≤ 'Z'.val.toNat := fun h =>
    UInt32.le_iff_toNat_le.mp (of_decide_eq_true h).2
  have hlower : c.isLower = true → c.val.toNat ≤ 'z'.val.toNat := fun h =>
    UInt32.le_iff_toNat_le.mp (of_decide_eq_true (Bool.and_eq_true_iff.mp h).2)
  have hdigit : c.isDigit = true → c.val.toNat ≤ '9'.val.toNat := fun h =>
    UInt32.le_iff_toNat_le.mp (of_decide_eq_true (Bool.and_eq_true_iff.mp h).2)
  change ((((c.isUpper || c.isLower) || c.isDigit) || c == '_') || c == '$') = true at h
  rw [Bool.or_eq_true, Bool.or_eq_true, Bool.or_eq_true, Bool.or_eq_true, beq_iff_eq, beq_iff_eq] at h
  change c.val.toNat < 128
  rcases h with ((((h | h) | h) | rfl) | rfl)
  · exact lt_of_le_of_lt (hupper h) (by decide)
  · exact lt_of_le_of_lt (hlower h) (by decide)
  · exact lt_of_le_of_lt (hdigit h) (by decide)
  · decide
  · decide

namespace Source

open Double (afterPoint)

/-- Whether a character starts neither a blank nor a comment, whatever follows it. -/
def isSolid (c : Char) : Bool :=
  !isLineBreak c && !isBlank c && c != '/' && c != '<' && c != '-'

/-- What the characters of short names are for the reader of tokens. -/
theorem isIdentifierPart_of_isWordPart {c : Char} (h : Glossary.isWordPart c = true) :
    Text.isIdentifierPart c = true ∧ isSolid c = true := by
  have hall : ∀ n < 128, Glossary.isWordPart (Char.ofNat n) = true →
      Text.isIdentifierPart (Char.ofNat n) = true ∧ isSolid (Char.ofNat n) = true := by decide
  have := hall c.toNat (toNat_lt_of_isWordPart h)
  rw [Char.ofNat_toNat] at this
  exact this h

theorem isIdentifierStart_of_isWordStart {c : Char} (h : Glossary.isWordStart c = true) :
    Glossary.isWordPart c = true ∧ Text.isIdentifierStart c = true := by
  have hpart : Glossary.isWordPart c = true := by
    simp only [Glossary.isWordStart, Glossary.isWordPart, Char.isAlphanum, Bool.or_eq_true] at h ⊢
    rcases h with (h | h) | h
    · exact .inl (.inl (.inl h))
    · exact .inl (.inr h)
    · exact .inr h
  have hall : ∀ n < 128, Glossary.isWordStart (Char.ofNat n) = true →
      Text.isIdentifierStart (Char.ofNat n) = true := by decide
  have := hall c.toNat (toNat_lt_of_isWordPart hpart)
  rw [Char.ofNat_toNat] at this
  exact ⟨hpart, this h⟩

/-! ## Blanks -/

/-- At the characters `cs`, wherever they stand, the next token passes a test and `rest` follows it. -/
def Gives (cs : List Char) (test : Token → Prop) (rest : List Char) : Prop :=
  ∀ (script : Bool) (n : Nat),
    test (next script ⟨cs, n⟩).token ∧ (next script ⟨cs, n⟩).after.rest = rest

theorem skipBlanks_of_isSolid {c : Char} (h : isSolid c = true) (script broken : Bool)
    (cs : List Char) (n : Nat) :
    skipBlanks script .blank broken (c :: cs) n = some (broken, ⟨c :: cs, n⟩) := by
  simp only [isSolid, Bool.and_eq_true, Bool.not_eq_true', bne_iff_ne] at h
  obtain ⟨⟨⟨⟨hline, hblank⟩, hslash⟩, hangle⟩, hminus⟩ := h
  rw [skipBlanks.eq_def]
  split <;> simp_all

/-- A token that starts at a solid character. -/
theorem gives_of_isSolid {c : Char} (h : isSolid c = true) {cs rest : List Char}
    {test : Token → Prop}
    (htoken : ∀ n, test (tokenHere ⟨c :: cs, n⟩).1 ∧ (tokenHere ⟨c :: cs, n⟩).2.rest = rest) :
    Gives (c :: cs) test rest := by
  intro script n
  rw [next, skipBlanks_of_isSolid h]
  exact htoken n

/-- A blank before a solid character changes nothing but where the token starts. -/
theorem next_space {c : Char} (h : isSolid c = true) (script : Bool) (cs : List Char) (n : Nat) :
    next script ⟨' ' :: c :: cs, n⟩ =
      { next script ⟨c :: cs, n + 1⟩ with broken := n == 0 } := by
  have hskip : skipBlanks script .blank (n == 0) (' ' :: c :: cs) n =
      skipBlanks script .blank (n == 0) (c :: cs) (n + 1) := rfl
  rw [next, next, hskip, skipBlanks_of_isSolid h, skipBlanks_of_isSolid h]

/-! ## Words -/

/-- A run of word characters up to one that is none. -/
theorem word_eq {c d : Char} {cs rest : List Char} (hc : Glossary.isWordStart c = true)
    (hcs : ∀ x ∈ cs, Glossary.isWordPart x = true) (hd : Text.isIdentifierPart d = false)
    (hd' : d ≠ '\\') (n : Nat) :
    tokenHere ⟨c :: (cs ++ d :: rest), n⟩ = (.word (String.ofList (c :: cs)) false,
      advance ⟨c :: (cs ++ d :: rest), n⟩ (cs.length + 1)) := by
  obtain ⟨hpart, hstart⟩ := isIdentifierStart_of_isWordStart hc
  have hall : ∀ x ∈ c :: cs, Text.isIdentifierPart x = true := by
    intro x hx
    rcases List.mem_cons.1 hx with rfl | hx
    · exact (isIdentifierPart_of_isWordPart hpart).1
    · exact (isIdentifierPart_of_isWordPart (hcs x hx)).1
  have hrun : (c :: (cs ++ d :: rest)).takeWhile Text.isIdentifierPart = c :: cs := by
    rw [← List.cons_append]
    exact (span_append hall (by simp [hd])).1
  simp only [tokenHere, hstart, Bool.true_or, if_true, word, hrun]
  simp [hd']

theorem gives_word {c d : Char} {cs rest : List Char} (hc : Glossary.isWordStart c = true)
    (hcs : ∀ x ∈ cs, Glossary.isWordPart x = true) (hd : Text.isIdentifierPart d = false)
    (hd' : d ≠ '\\') :
    Gives (c :: (cs ++ d :: rest)) (· = .word (String.ofList (c :: cs)) false) (d :: rest) := by
  refine gives_of_isSolid (isIdentifierPart_of_isWordPart
    (isIdentifierStart_of_isWordStart hc).1).2 fun n => ?_
  rw [word_eq hc hcs hd hd']
  exact ⟨rfl, by simp [advance]⟩

/-! ## Punctuators -/

theorem gives_end : Gives [] (· = .eof) [] := fun _ _ => ⟨rfl, rfl⟩

theorem gives_comma (rest : List Char) : Gives (',' :: rest) (· = .punct ",") rest :=
  gives_of_isSolid rfl fun _ => ⟨rfl, rfl⟩

theorem gives_semicolon (rest : List Char) : Gives (';' :: rest) (· = .punct ";") rest :=
  gives_of_isSolid rfl fun _ => ⟨rfl, rfl⟩

theorem longPunctuators_eq : longPunctuators =
    [['.', '.', '.'], ['=', '=', '='], ['!', '=', '='], ['*', '*', '='], ['<', '<', '='],
     ['&', '&', '='], ['|', '|', '='], ['?', '?', '='], ['=', '>'], ['=', '='], ['!', '='],
     ['<', '='], ['<', '<'], ['+', '+'], ['-', '-'], ['+', '='], ['-', '='], ['*', '='],
     ['/', '='], ['%', '='], ['*', '*'], ['&', '&'], ['|', '|'], ['?', '?'], ['&', '='],
     ['|', '='], ['^', '=']] := rfl

/-- A sign that starts no longer punctuator stands alone. -/
theorem punctuator_alone {c : Char} {rest : List Char} (hc : c ≠ '?')
    (hshort : shortPunctuators.contains c = true)
    (hlong : longPunctuators.find? (·.isPrefixOf (c :: rest)) = none) (n : Nat) :
    punctuator ⟨c :: rest, n⟩ = (.punct (String.ofList [c]), advance ⟨c :: rest, n⟩ 1) := by
  unfold punctuator
  split
  · rename_i heq
    exact absurd (List.cons.inj heq).1 hc
  · rw [hlong]
    exact if_pos hshort

/-- An equals sign stands alone unless another sign of its punctuators follows. -/
theorem gives_equals {d : Char} (h : d ≠ '=') (h' : d ≠ '>') (rest : List Char) :
    Gives ('=' :: d :: rest) (· = .punct "=") (d :: rest) := by
  refine gives_of_isSolid rfl fun n => ?_
  have hlong : longPunctuators.find? (·.isPrefixOf ('=' :: d :: rest)) = none := by
    simp [longPunctuators_eq, List.isPrefixOf, h.symm, h'.symm]
  have htoken : tokenHere ⟨'=' :: d :: rest, n⟩ = _ := punctuator_alone (by decide) rfl hlong n
  rw [htoken]
  exact ⟨rfl, rfl⟩

/-- A minus sign before a digit stands alone, and starts no comment. -/
theorem gives_minus {d : Char} (hd : d.isDigit = true) (rest : List Char) :
    Gives ('-' :: d :: rest) (· = .punct "-") (d :: rest) := by
  have hne : d ≠ '-' ∧ d ≠ '=' := by
    constructor <;> rintro rfl <;> cases hd
  intro script n
  have hskip : skipBlanks script .blank (n == 0) ('-' :: d :: rest) n =
      some (n == 0, ⟨'-' :: d :: rest, n⟩) := by
    have hline : isLineBreak '-' = false := rfl
    have hblank : isBlank '-' = false := rfl
    rw [skipBlanks] <;> simp_all
  have hlong : longPunctuators.find? (·.isPrefixOf ('-' :: d :: rest)) = none := by
    simp [longPunctuators_eq, List.isPrefixOf, hne.1.symm, hne.2.symm]
  have htoken : tokenHere ⟨'-' :: d :: rest, n⟩ = _ := punctuator_alone (by decide) rfl hlong n
  rw [next, hskip]
  dsimp only
  rw [htoken]
  exact ⟨rfl, rfl⟩

/-! ## Numbers -/

theorem digitRun_ok_digits : ∀ {ds : List Char} (_ : ∀ d ∈ ds, d.isDigit = true),
    digitRun.ok true ds = true
  | [], _ => rfl
  | d :: ds, h => by
    have hd : d ≠ '_' := by
      rintro rfl
      exact absurd (h _ List.mem_cons_self) (by decide)
    rw [digitRun.ok]
    · exact digitRun_ok_digits fun x hx => h x (List.mem_cons_of_mem _ hx)
    · exact fun h => hd h

/-- Digits up to a character that does not go on with them. -/
theorem digitRun_eq {ds : List Char} (h : ∀ d ∈ ds, d.isDigit = true) {c : Char}
    (hc : c.isDigit = false) (hc' : c ≠ '_') (rest : List Char) :
    digitRun Char.isDigit (ds ++ c :: rest) = (ds, ds.length, true) := by
  have hrun : (ds ++ c :: rest).takeWhile (fun d => d.isDigit || d == '_') = ds :=
    (span_append (fun d hd => by simp [h d hd]) (by simp [hc, hc'])).1
  have hfilter : ds.filter (· != '_') = ds := by
    rw [List.filter_eq_self]
    intro d hd
    have : d ≠ '_' := by
      rintro rfl
      exact absurd (h _ hd) (by decide)
    simp [this]
  rw [digitRun]
  simp only [hrun, hfilter]
  cases ds with
  | nil => rfl
  | cons d ds =>
    have hd : d ≠ '_' := by
      rintro rfl
      exact absurd (h _ List.mem_cons_self) (by decide)
    have hok : digitRun.ok false (d :: ds) = true := by
      rw [digitRun.ok]
      · exact digitRun_ok_digits fun x hx => h x (List.mem_cons_of_mem _ hx)
      · exact fun h => hd h
    rw [hok, Bool.or_true]

/-- What ends a number in a declaration. -/
def isNumberEnd (c : Char) : Bool := c == ',' || c == ';'

theorem isNumberEnd_iff {c : Char} : isNumberEnd c = true ↔ c = ',' ∨ c = ';' := by
  simp [isNumberEnd]

theorem isDigit_of_isNumberEnd {c : Char} (h : isNumberEnd c = true) :
    c.isDigit = false ∧ c ≠ '_' := by
  rcases isNumberEnd_iff.1 h with rfl | rfl <;> decide

theorem exponentPart_of_isNumberEnd {c : Char} (h : isNumberEnd c = true) (rest : List Char) :
    exponentPart (c :: rest) = some (0, 0) := by
  rcases isNumberEnd_iff.1 h with rfl | rfl <;> rfl

theorem endsCleanly_of_isNumberEnd {c : Char} (h : isNumberEnd c = true) (rest : List Char) :
    endsCleanly (c :: rest) = true := by
  rcases isNumberEnd_iff.1 h with rfl | rfl <;> rfl

/-- The tail of a decimal without an exponent. -/
theorem decimalTail_eq {whole fraction : List Char} (hfraction : ∀ d ∈ fraction, d.isDigit = true)
    {c : Char} (hc : isNumberEnd c = true) (rest : List Char) (n : Nat) :
    decimalTail ⟨whole ++ (afterPoint fraction ++ c :: rest), n⟩ whole whole.length =
      (.number (Double.ofDecimal false (valueIn 10 (whole ++ fraction)) (0 - (fraction.length : Int)))
        (String.ofList (whole ++ afterPoint fraction)),
       advance ⟨whole ++ (afterPoint fraction ++ c :: rest), n⟩
        (whole.length + (afterPoint fraction).length)) := by
  obtain ⟨hdigit, hunderscore⟩ := isDigit_of_isNumberEnd hc
  cases fraction with
  | nil =>
    have hpoint : c ≠ '.' := by rintro rfl; cases hc
    simp only [decimalTail, afterPoint, List.nil_append, List.drop_left]
    simp [hpoint, exponentPart_of_isNumberEnd hc, endsCleanly_of_isNumberEnd hc]
  | cons d fraction =>
    have hrun := digitRun_eq hfraction hdigit hunderscore rest
    rw [List.cons_append] at hrun
    have hlength : (whole ++ '.' :: d :: fraction).length = whole.length + (fraction.length + 2) := by
      simp
    have hassoc : whole ++ '.' :: d :: (fraction ++ c :: rest) =
        (whole ++ '.' :: d :: fraction) ++ c :: rest := by simp
    have hdrop : (whole ++ '.' :: d :: (fraction ++ c :: rest)).drop
        (whole.length + (fraction.length + 2)) = c :: rest := by
      rw [hassoc, ← hlength, List.drop_left]
    have htake : (whole ++ '.' :: d :: (fraction ++ c :: rest)).take
        (whole.length + (fraction.length + 2)) = whole ++ '.' :: d :: fraction := by
      rw [hassoc, ← hlength, List.take_left]
    simp only [decimalTail, afterPoint, List.drop_left, List.cons_append, hrun]
    simp [exponentPart_of_isNumberEnd hc, endsCleanly_of_isNumberEnd hc, hdrop, htake]

/-- What stands after the integer digits of a number in a declaration. -/
theorem exists_cons_afterPoint (fraction : List Char) {c : Char} (hc : isNumberEnd c = true)
    (rest : List Char) :
    ∃ e more, afterPoint fraction ++ c :: rest = e :: more ∧ (e = '.' ∨ e = ',' ∨ e = ';') := by
  cases fraction with
  | nil => exact ⟨c, rest, rfl, .inr (isNumberEnd_iff.1 hc)⟩
  | cons d fraction => exact ⟨'.', _, rfl, .inl rfl⟩

theorem plainNumber_eq {whole fraction : List Char} (hwhole : ∀ d ∈ whole, d.isDigit = true)
    {c : Char} (hc : isNumberEnd c = true) (rest : List Char) (n : Nat) :
    plainNumber ⟨whole ++ (afterPoint fraction ++ c :: rest), n⟩ =
      decimalTail ⟨whole ++ (afterPoint fraction ++ c :: rest), n⟩ whole whole.length := by
  obtain ⟨e, more, heq, he⟩ := exists_cons_afterPoint fraction hc rest
  have hend : e.isDigit = false ∧ e ≠ '_' ∧ e ≠ 'n' := by
    rcases he with rfl | rfl | rfl <;> decide
  rw [heq, plainNumber]
  simp [digitRun_eq hwhole hend.1 hend.2.1, hend.2.2]

/-- A decimal without superfluous zeros before it is one number. -/
theorem number_eq {whole fraction : List Char} (hwhole : ∀ d ∈ whole, d.isDigit = true)
    (hne : whole ≠ []) (hzero : whole = ['0'] ∨ whole.head? ≠ some '0')
    {c : Char} (hc : isNumberEnd c = true) (rest : List Char) (n : Nat) :
    number ⟨whole ++ (afterPoint fraction ++ c :: rest), n⟩ =
      decimalTail ⟨whole ++ (afterPoint fraction ++ c :: rest), n⟩ whole whole.length := by
  rw [← plainNumber_eq hwhole hc]
  rcases hzero with rfl | hzero
  · obtain ⟨e, more, heq, he⟩ := exists_cons_afterPoint fraction hc rest
    rw [heq]
    rcases he with rfl | rfl | rfl <;> rfl
  · cases whole with
    | nil => exact absurd rfl hne
    | cons d whole =>
      have hd : d ≠ '0' := fun h => hzero (by rw [h]; rfl)
      have hd' : d ≠ '.' := by
        rintro rfl
        exact absurd (hwhole _ List.mem_cons_self) (by decide)
      rw [number]
      split
      · rename_i heq
        exact absurd (List.cons.inj heq).1 hd
      · rename_i heq
        exact absurd (List.cons.inj heq).1 hd'
      · rfl

theorem gives_number {whole fraction : List Char} (hwhole : ∀ d ∈ whole, d.isDigit = true)
    (hne : whole ≠ []) (hzero : whole = ['0'] ∨ whole.head? ≠ some '0')
    (hfraction : ∀ d ∈ fraction, d.isDigit = true) {c : Char} (hc : isNumberEnd c = true)
    (rest : List Char) :
    Gives (whole ++ (afterPoint fraction ++ c :: rest))
      (· = .number
        (Double.ofDecimal false (valueIn 10 (whole ++ fraction)) (0 - (fraction.length : Int)))
        (String.ofList (whole ++ afterPoint fraction)))
      (c :: rest) := by
  obtain ⟨d, ds, rfl⟩ := List.exists_cons_of_ne_nil hne
  have hd := hwhole d List.mem_cons_self
  have hpart : Glossary.isWordPart d = true := Glossary.isWordPart_of_isDigit hd
  have hstart : Text.isIdentifierStart d = false ∧ d ≠ '\\' := by
    have hall : ∀ n < 128, (Char.ofNat n).isDigit = true →
        Text.isIdentifierStart (Char.ofNat n) = false ∧ Char.ofNat n ≠ '\\' := by decide
    have := hall d.toNat (toNat_lt_of_isWordPart hpart)
    rw [Char.ofNat_toNat] at this
    exact this hd
  refine gives_of_isSolid (isIdentifierPart_of_isWordPart hpart).2 fun n => ?_
  have htoken : tokenHere ⟨d :: (ds ++ (afterPoint fraction ++ c :: rest)), n⟩ =
      number ⟨(d :: ds) ++ (afterPoint fraction ++ c :: rest), n⟩ := by
    simp [tokenHere, hstart, hd]
  change _ ∧ _ = _
  rw [List.append_eq, htoken, number_eq hwhole hne hzero hc, decimalTail_eq hfraction hc]
  refine ⟨rfl, ?_⟩
  rw [advance, ← List.append_assoc, ← List.length_append, List.drop_left]

/-! ## Strings -/

/-- The escape of a control character reads back as it. -/
theorem escape?_control {n : Nat} (hn : n < 32) (rest : List Char) :
    escape? ('u' :: '0' :: '0' :: Text.hexDigit (n / 16) :: Text.hexDigit (n % 16) :: rest) =
      some (.char (Char.ofNat n), 5, false) := by
  have hrun : ∀ n < 32, hexRun? ['0', '0', Text.hexDigit (n / 16), Text.hexDigit (n % 16)] =
      some n := by decide
  have hunicode : unicodeEscape?
      ('0' :: '0' :: Text.hexDigit (n / 16) :: Text.hexDigit (n % 16) :: rest) = some (n, 4) := by
    rw [unicodeEscape?, hrun n hn]
    · rfl
    · exact fun h => absurd h (by decide)
  have hlow : ¬ 0xd800 ≤ n := by omega
  have hmax : n ≤ 0x10ffff := by omega
  have hvalue : unicodeValue?
      ('0' :: '0' :: Text.hexDigit (n / 16) :: Text.hexDigit (n % 16) :: rest) =
      some (.char (Char.ofNat n), 4) := by
    simp [unicodeValue?, hunicode, escapeOf, hlow, hmax]
  simp [escape?, hvalue]

/-- A character of a quoted string is read as itself. -/
theorem stringBody_escape (c : Char) (fuel : Nat) (rest : List Char) (used : Nat)
    (units : List Escape) :
    stringBody '"' (fuel + 1) (Json.escape c ++ rest) used units =
      stringBody '"' fuel rest (used + (Json.escape c).length) (.char c :: units) := by
  unfold Json.escape
  split
  · rfl
  · rfl
  · rfl
  · rfl
  · rfl
  rename_i hquote hback hline hreturn htab
  split
  · rename_i h
    have hc : c = Char.ofNat 8 := by rw [← h, Char.ofNat_toNat]
    rw [hc]
    rfl
  split
  · rename_i h
    have hc : c = Char.ofNat 12 := by rw [← h, Char.ofNat_toNat]
    rw [hc]
    rfl
  split
  · rename_i h
    have hescape := escape?_control h rest
    rw [Char.ofNat_toNat] at hescape
    simp [stringBody, hescape]
  · rw [List.singleton_append, stringBody]
    · simp_all
    · simp_all

/-- The body of a quoted string up to its closing quote. -/
theorem stringBody_quote (rest : List Char) :
    ∀ (cs : List Char) (fuel used : Nat) (units : List Escape), cs.length < fuel →
      stringBody '"' fuel (cs.flatMap Json.escape ++ '"' :: rest) used units =
        some (units.reverse ++ cs.map .char, used + (cs.flatMap Json.escape).length + 1)
  | _, 0, _, _, h => absurd h (Nat.not_lt_zero _)
  | [], fuel + 1, used, units, _ => by simp [stringBody]
  | c :: cs, fuel + 1, used, units, h => by
    rw [List.flatMap_cons, List.append_assoc, stringBody_escape,
      stringBody_quote rest cs fuel _ _ (by simpa using h)]
    simp [Nat.add_assoc]

/-- Characters stand for themselves in the value of a string. -/
theorem encodeUnits_chars (cs : List Char) :
    encodeUnits (cs.map .char) = (String.ofList cs, false) := by
  simp [encodeUnits, List.flatMap_map]

theorem length_escape_pos (c : Char) : 0 < (Json.escape c).length := by
  unfold Json.escape
  split
  iterate 5 exact Nat.succ_pos _
  split_ifs
  iterate 4 exact Nat.succ_pos _

theorem length_le_flatMap_escape : ∀ cs : List Char, cs.length ≤ (cs.flatMap Json.escape).length
  | [] => Nat.le_refl 0
  | c :: cs => by
    have := length_escape_pos c
    have := length_le_flatMap_escape cs
    rw [List.flatMap_cons, List.length_append, List.length_cons]
    omega

/-- No character is escaped in a way that strict code forbids. -/
theorem hasLegacyEscape_escape (c : Char) (rest : List Char) :
    hasLegacyEscape (Json.escape c ++ rest) = hasLegacyEscape rest := by
  unfold Json.escape
  split
  iterate 5 rfl
  rename_i hquote hback hline hreturn htab
  split_ifs with hbackspace hfeed hcontrol
  · rfl
  · rfl
  · have hdigit : ∀ n < 16, Text.hexDigit n ≠ '\\' := by decide
    have hfirst := hdigit (c.toNat / 16) (by omega)
    have hsecond := hdigit (c.toNat % 16) (by omega)
    simp [hasLegacyEscape, hfirst, hsecond]
  · rw [List.singleton_append, hasLegacyEscape]
    · simp_all
    · simp_all

theorem hasLegacyEscape_flatMap_escape (cs : List Char) :
    hasLegacyEscape (cs.flatMap Json.escape) = false := by
  induction cs with
  | nil => rfl
  | cons c cs ih => rw [List.flatMap_cons, hasLegacyEscape_escape, ih]

/-- **A quoted text is read as one string with its value.** -/
theorem gives_string (text : String) (rest : List Char) :
    Gives ((Json.quote text).toList ++ rest)
      (fun t => ∃ lit raw, t = .string lit raw ∧ lit.value = text ∧ lit.surrogates = false ∧
        lit.legacy = false) rest := by
  have hlist : (Json.quote text).toList ++ rest =
      '"' :: (text.toList.flatMap Json.escape ++ '"' :: rest) := by
    simp [Json.quote]
  rw [hlist]
  refine gives_of_isSolid rfl fun n => ?_
  have hlength := length_le_flatMap_escape text.toList
  have hbody := stringBody_quote rest text.toList
    ((text.toList.flatMap Json.escape ++ '"' :: rest).length + 1) 0 []
    (by rw [List.length_append]; omega)
  have htoken : tokenHere ⟨'"' :: (text.toList.flatMap Json.escape ++ '"' :: rest), n⟩ =
      string ⟨'"' :: (text.toList.flatMap Json.escape ++ '"' :: rest), n⟩ '"' := rfl
  rw [htoken, string]
  simp only [List.drop_one, List.tail_cons, hbody, List.reverse_nil, List.nil_append,
    encodeUnits_chars, String.ofList_toList]
  refine ⟨⟨_, _, rfl, rfl, rfl, ?_⟩, ?_⟩
  · simp [hasLegacyEscape_flatMap_escape]
  · simp [advance, List.drop_append]

end Source

end Abridge
