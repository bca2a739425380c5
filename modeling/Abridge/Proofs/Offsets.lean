import Abridge.Syntax.Reader
import Mathlib.Tactic.SplitIfs

/-!
# Where tokens stand

A plan knows a literal by the byte offset at which it was written, so an offset has to say which literal is
meant.  It does: whatever is read stands in one text, a byte offset has one rest of the text behind it, and
the token that starts there is a function of that rest.  Reading a token again in another mode gives no
literal, so the literals of a program are those that `Source.tokenHere` gives at their offsets.  A number is
read without a sign, which is an operator of its own.

## What is here

* `Source.StandsIn`: a source is the rest of a text, at its offset.
* `Source.Reading.StandsIn`: a token that was read from a text.
* `StringLiteral.IsIn`, `NumberLiteral.IsIn`: a literal is what a text says at its offset; then the offset
  determines the literal.
* `NumberLiteral.IsIn.isNegative`: no number is negative.
-/

set_option autoImplicit false

namespace Abridge

/-- Whether a token is a string or a number. -/
def Token.isLiteral : Token → Bool
  | .string _ _ => true
  | .number _ _ => true
  | _ => false

/-- The literal of a string token. -/
def Token.string? : Token → Option StringLiteral
  | .string lit _ => some lit
  | _ => none

/-- Whether a token is no string and, when it is a number, has no sign. -/
def Token.isPlain : Token → Bool
  | .string _ _ => false
  | .number value _ => !value.isNegative
  | _ => true

/-! ## Signs -/

namespace Double

/-- The steps of reading a ratio.  The last of them is applied as a function here: what the pair is
compared with is too large for the condition to be evaluated. -/
theorem ofRatio_eq {num den n d m' m : Nat} {q' q : Int} (hnum : num ≠ 0) (negative : Bool)
    (hq : exponentFor num den = q') (hs : scaled num den q' = (n, d)) (hm : roundDiv n d = m')
    (hfound : (if m' = Nat.pow 2 53 then (Nat.pow 2 52, q' + 1) else (m', q')) = (m, q)) :
    ofRatio negative num den =
      if h : IsCanonical m q then .finite negative m q h else .infinite negative := by
  let made (p : Nat × Int) : Double :=
    if h : IsCanonical p.1 p.2 then .finite negative p.1 p.2 h else .infinite negative
  unfold ofRatio
  rw [if_neg hnum, hq]
  extract_lets
  rw [hs]
  subst hm
  exact congrArg made hfound

theorem isNegative_ofRatio (negative : Bool) (num den : Nat) :
    (ofRatio negative num den).isNegative = negative := by
  by_cases hnum : num = 0
  · rw [ofRatio, if_pos hnum]
    rfl
  · obtain ⟨q', hq⟩ : ∃ q', exponentFor num den = q' := ⟨_, rfl⟩
    obtain ⟨⟨n, d⟩, hs⟩ : ∃ r, scaled num den q' = r := ⟨_, rfl⟩
    obtain ⟨m', hm⟩ : ∃ m', roundDiv n d = m' := ⟨_, rfl⟩
    obtain ⟨⟨m, q⟩, hfound⟩ : ∃ r, (if m' = Nat.pow 2 53 then (Nat.pow 2 52, q' + 1) else (m', q')) = r :=
      ⟨_, rfl⟩
    rw [ofRatio_eq hnum negative hq hs hm hfound]
    split <;> rfl

theorem isNegative_ofDecimal (negative : Bool) (digits : Nat) (exponent : Int) :
    (ofDecimal negative digits exponent).isNegative = negative := by
  unfold ofDecimal
  dsimp only
  split_ifs
  · rfl
  · rfl
  · rfl
  · exact isNegative_ofRatio _ _ _
  · exact isNegative_ofRatio _ _ _

end Double

theorem Token.isPlain_number (digits : Nat) (exponent : Int) (raw : String) :
    (Token.number (.ofDecimal false digits exponent) raw).isPlain = true := by
  rw [isPlain, Double.isNegative_ofDecimal]
  rfl

namespace Source

/-! ## Sources in a text -/

theorem foldl_utf8Size (n : Nat) (cs : List Char) :
    cs.foldl (fun n c => n + c.utf8Size) n = n + byteLength cs := by
  induction cs generalizing n with
  | nil => rfl
  | cons c cs ih =>
    rw [byteLength, List.foldl_cons, List.foldl_cons, ih, ih]
    omega

@[simp] theorem byteLength_nil : byteLength [] = 0 := rfl

@[simp] theorem byteLength_cons (c : Char) (cs : List Char) :
    byteLength (c :: cs) = c.utf8Size + byteLength cs := by
  rw [byteLength, List.foldl_cons, foldl_utf8Size, Nat.zero_add]

@[simp] theorem byteLength_append (cs ds : List Char) :
    byteLength (cs ++ ds) = byteLength cs + byteLength ds := by
  rw [byteLength, List.foldl_append, foldl_utf8Size]
  rfl

theorem eq_nil_of_byteLength_eq_zero {cs : List Char} (h : byteLength cs = 0) : cs = [] := by
  cases cs with
  | nil => rfl
  | cons c cs =>
    have := c.utf8Size_pos
    rw [byteLength_cons] at h
    omega

/-- A source is what is left of a text after some characters, and its offset counts their bytes. -/
def StandsIn (text : List Char) (s : Source) : Prop :=
  ∃ before, text = before ++ s.rest ∧ s.offset = byteLength before

variable {text : List Char} {s s' : Source}

theorem standsIn_start (text : List Char) : StandsIn text ⟨text, 0⟩ := ⟨[], rfl, rfl⟩

theorem StandsIn.cons {c : Char} {cs : List Char} {n : Nat} (h : StandsIn text ⟨c :: cs, n⟩) :
    StandsIn text ⟨cs, n + c.utf8Size⟩ := by
  obtain ⟨before, htext, hn⟩ := h
  refine ⟨before ++ [c], ?_, ?_⟩
  · rw [htext, List.append_assoc]
    rfl
  · rw [byteLength_append, byteLength_cons, byteLength_nil, Nat.add_zero, ← hn]

theorem StandsIn.advance (h : s.StandsIn text) (n : Nat) : (s.advance n).StandsIn text := by
  obtain ⟨before, htext, hn⟩ := h
  refine ⟨before ++ s.rest.take n, ?_, ?_⟩
  · rw [List.append_assoc, Source.advance, List.take_append_drop, htext]
  · rw [byteLength_append, ← hn]
    rfl

/-- **An offset determines what is left of the text.** -/
theorem StandsIn.eq_of_offset (h : s.StandsIn text) (h' : s'.StandsIn text)
    (hoffset : s.offset = s'.offset) : s = s' := by
  obtain ⟨before, htext, hn⟩ := h
  obtain ⟨before', htext', hn'⟩ := h'
  have hbytes : byteLength before = byteLength before' := by rw [← hn, hoffset, hn']
  have heq : before = before' := by
    rcases List.prefix_or_prefix_of_prefix ⟨_, htext.symm⟩ ⟨_, htext'.symm⟩ with ⟨more, rfl⟩ | ⟨more, rfl⟩
    · have hmore : more = [] := eq_nil_of_byteLength_eq_zero (by
        rw [byteLength_append] at hbytes
        omega)
      rw [hmore, List.append_nil]
    · have hmore : more = [] := eq_nil_of_byteLength_eq_zero (by
        rw [byteLength_append] at hbytes
        omega)
      rw [hmore, List.append_nil]
  subst heq
  obtain ⟨rest, offset⟩ := s
  obtain ⟨rest', offset'⟩ := s'
  obtain rfl : rest = rest' := List.append_cancel_left (htext.symm.trans htext')
  obtain rfl : offset = offset' := hoffset
  rfl

/-! ## Tokens in a text -/

theorem StandsIn.skipBlanks {script : Bool} {mode : Blank} {broken broken' : Bool} {cs : List Char}
    {n : Nat} {here : Source} (h : StandsIn text ⟨cs, n⟩)
    (hskip : skipBlanks script mode broken cs n = some (broken', here)) : here.StandsIn text := by
  fun_induction Source.skipBlanks script mode broken cs n with
  | case3 => cases hskip
  | case4 _ _ _ ih | case5 _ _ _ ih | case15 _ _ _ ih => exact ih h.cons.cons hskip
  | case6 _ _ _ _ ih => exact ih h.cons.cons.cons.cons hskip
  | case8 _ _ _ _ ih => exact ih h.cons.cons.cons hskip
  | case10 _ _ _ _ _ _ _ _ _ ih => exact ih h.cons hskip
  | case11 _ _ _ _ _ _ _ _ _ _ ih => exact ih h.cons hskip
  | case13 _ _ _ _ _ ih | case14 _ _ _ _ _ ih | case16 _ _ _ _ _ ih => exact ih h.cons hskip
  | _ => cases hskip; exact h

/-- A token is plain, and the text goes on after it. -/
structure Continues (s : Source) (r : Token × Source) : Prop where
  plain : r.1.isPlain = true
  after : ∀ {text : List Char}, s.StandsIn text → r.2.StandsIn text

theorem Continues.string {r : Token × Source} (h : s.Continues r) : r.1.string? = none := by
  have hplain := h.plain
  cases ht : r.1 with
  | string lit raw =>
    rw [ht] at hplain
    cases hplain
  | _ => rfl

theorem Continues.stay {t : Token} (ht : t.isPlain = true) : s.Continues (t, s) := ⟨ht, id⟩

theorem Continues.advance {t : Token} (ht : t.isPlain = true) (n : Nat) :
    s.Continues (t, s.advance n) :=
  ⟨ht, fun h => h.advance n⟩

theorem continues_templateTail (s : Source) : s.Continues s.templateTail := by
  unfold templateTail
  dsimp only
  split
  · exact .stay rfl
  · exact .advance rfl _

theorem continues_radixNumber (s : Source) (base : Nat) (isDigit : Char → Bool) :
    s.Continues (s.radixNumber base isDigit) := by
  unfold radixNumber
  dsimp only
  repeat' split
  all_goals first | exact .stay rfl | exact .advance (Token.isPlain_number _ _ _) _ | exact .advance rfl _

theorem continues_decimalTail (s : Source) (whole : List Char) (used : Nat) :
    s.Continues (s.decimalTail whole used) := by
  unfold decimalTail
  dsimp only
  repeat' split
  all_goals first | exact .stay rfl | exact .advance (Token.isPlain_number _ _ _) _

theorem continues_legacyNumber (s : Source) : s.Continues s.legacyNumber := by
  unfold legacyNumber
  dsimp only
  repeat' split
  all_goals first | exact .stay rfl | exact .advance (Token.isPlain_number _ _ _) _ | exact continues_decimalTail s _ _

theorem continues_plainNumber (s : Source) : s.Continues s.plainNumber := by
  unfold plainNumber
  dsimp only
  repeat' split
  all_goals first | exact .stay rfl | exact .advance rfl _ | exact continues_decimalTail s _ _

theorem continues_number (s : Source) : s.Continues s.number := by
  unfold number
  split
  · split_ifs
    all_goals first
      | exact continues_radixNumber s _ _ | exact continues_legacyNumber s | exact .stay rfl
      | exact continues_plainNumber s
  · exact continues_decimalTail s _ _
  · exact continues_plainNumber s

theorem continues_word (s : Source) : s.Continues s.word := by
  unfold word
  dsimp only
  repeat' split
  all_goals first | exact .stay rfl | exact .advance rfl _

theorem continues_privateName (s : Source) : s.Continues s.privateName := by
  unfold privateName
  split
  · rename_i hword
    refine ⟨rfl, fun h => ?_⟩
    have hafter := (continues_word (s.advance 1)).after (h.advance 1)
    rwa [hword] at hafter
  · exact .stay rfl

theorem continues_punctuator (s : Source) : s.Continues s.punctuator := by
  unfold punctuator
  repeat' split
  all_goals first | exact .stay rfl | exact .advance rfl _

/-- A token is a string that starts where it stands, or none. -/
theorem tokenHere_cases (s : Source) :
    s.Continues s.tokenHere ∨ ∃ quote, s.tokenHere = s.string quote := by
  unfold tokenHere
  split
  · exact .inl (.stay rfl)
  · split_ifs
    · exact .inl (continues_word s)
    · exact .inl (continues_number s)
    · exact .inr ⟨_, rfl⟩
    · exact .inl (continues_templateTail s)
    · exact .inl (continues_privateName s)
    · exact .inl (continues_number s)
    · exact .inl (continues_punctuator s)

/-- What a string token is, and where the text goes on after it. -/
theorem string_cases (s : Source) (quote : Char) :
    s.string quote = (.bad, s) ∨
      ∃ lit raw n, s.string quote = (.string lit raw, s.advance n) ∧ lit.start = s.offset := by
  unfold string
  dsimp only
  split
  · exact .inl rfl
  · exact .inr ⟨_, _, _, rfl, rfl⟩

/-- After a token the text goes on. -/
theorem StandsIn.tokenHere (h : s.StandsIn text) : s.tokenHere.2.StandsIn text := by
  rcases tokenHere_cases s with hother | ⟨quote, hstring⟩
  · exact hother.after h
  · rw [hstring]
    rcases string_cases s quote with hbad | ⟨lit, raw, n, hlit, -⟩
    · rwa [hbad]
    · rw [hlit]
      exact h.advance n

/-- A string literal remembers where it starts. -/
theorem start_eq_offset {lit : StringLiteral} (h : s.tokenHere.1.string? = some lit) :
    lit.start = s.offset := by
  rcases tokenHere_cases s with hother | ⟨quote, hstring⟩
  · rw [hother.string] at h
    cases h
  · rw [hstring] at h
    rcases string_cases s quote with hbad | ⟨lit', raw, n, hlit, hstart⟩
    · rw [hbad] at h
      cases h
    · rw [hlit] at h
      cases h
      exact hstart

/-- A token that was read from a text.  One that was read again in another mode is no literal. -/
structure Reading.StandsIn (text : List Char) (r : Reading) : Prop where
  start : r.start.StandsIn text
  after : r.after.StandsIn text
  literal : r.token.isLiteral = true → r.start.tokenHere.1 = r.token

theorem StandsIn.next (h : s.StandsIn text) (script : Bool) : (s.next script).StandsIn text := by
  unfold Source.next
  split
  · exact ⟨h, h, fun hliteral => by cases hliteral⟩
  · rename_i hskip
    have hhere := h.skipBlanks hskip
    exact ⟨hhere, hhere.tokenHere, fun _ => rfl⟩

theorem StandsIn.markupChild (h : s.StandsIn text) : s.markupChild.StandsIn text := by
  unfold Source.markupChild
  split
  · exact ⟨h, h, fun hliteral => by cases hliteral⟩
  · exact ⟨h, h.advance _, fun hliteral => by cases hliteral⟩
  · exact ⟨h, h.advance _, fun hliteral => by cases hliteral⟩
  · refine ⟨h, h.advance _, fun hliteral => ?_⟩
    dsimp only at hliteral
    split at hliteral <;> cases hliteral

theorem StandsIn.attributeValue (h : s.StandsIn text) (script : Bool) :
    (s.attributeValue script).StandsIn text := by
  have hplain := h.next script
  unfold Source.attributeValue
  dsimp only
  split
  · split
    · split
      · exact ⟨hplain.start, hplain.start.advance _, fun hliteral => by cases hliteral⟩
      · exact ⟨hplain.start, hplain.after, fun hliteral => by cases hliteral⟩
    · exact hplain
  · exact hplain

end Source

/-! ## Literals in a text -/

/-- A string literal is what a text says at its offset. -/
def StringLiteral.IsIn (text : List Char) (lit : StringLiteral) : Prop :=
  ∃ (s : Source) (raw : String), s.StandsIn text ∧ s.tokenHere.1 = .string lit raw

/-- A numeric literal is what a text says at its offset. -/
def NumberLiteral.IsIn (text : List Char) (lit : NumberLiteral) : Prop :=
  ∃ s : Source, s.StandsIn text ∧ s.offset = lit.start ∧ s.tokenHere.1 = .number lit.value lit.raw

section

variable {text : List Char}

theorem Source.Reading.StandsIn.string {r : Source.Reading} (h : r.StandsIn text) {lit : StringLiteral}
    {raw : String} (htoken : r.token = .string lit raw) : lit.IsIn text :=
  ⟨r.start, raw, h.start, (h.literal (by rw [htoken]; rfl)).trans htoken⟩

theorem Source.Reading.StandsIn.number {r : Source.Reading} (h : r.StandsIn text) {value : Double}
    {raw : String} (htoken : r.token = .number value raw) :
    NumberLiteral.IsIn text ⟨value, raw, r.start.offset⟩ :=
  ⟨r.start, h.start, rfl, (h.literal (by rw [htoken]; rfl)).trans htoken⟩

/-- **Two strings at one offset of a text are the same.** -/
theorem StringLiteral.IsIn.eq {lit lit' : StringLiteral} (h : lit.IsIn text) (h' : lit'.IsIn text)
    (hstart : lit.start = lit'.start) : lit = lit' := by
  obtain ⟨s, raw, hs, htoken⟩ := h
  obtain ⟨s', raw', hs', htoken'⟩ := h'
  have hoffset : lit.start = s.offset := Source.start_eq_offset (by rw [htoken]; rfl)
  have hoffset' : lit'.start = s'.offset := Source.start_eq_offset (by rw [htoken']; rfl)
  obtain rfl := hs.eq_of_offset hs' (by rw [← hoffset, hstart, hoffset'])
  rw [htoken] at htoken'
  cases htoken'
  rfl

/-- **Two numbers at one offset of a text are the same.** -/
theorem NumberLiteral.IsIn.eq {lit lit' : NumberLiteral} (h : lit.IsIn text) (h' : lit'.IsIn text)
    (hstart : lit.start = lit'.start) : lit = lit' := by
  obtain ⟨s, hs, hoffset, htoken⟩ := h
  obtain ⟨s', hs', hoffset', htoken'⟩ := h'
  obtain rfl := hs.eq_of_offset hs' (by rw [hoffset, hstart, hoffset'])
  rw [htoken] at htoken'
  obtain ⟨value, raw, start⟩ := lit
  obtain ⟨value', raw', start'⟩ := lit'
  obtain ⟨rfl, rfl⟩ := Token.number.inj htoken'
  obtain rfl : start = start' := hstart
  rfl

/-- A number is written without a sign. -/
theorem NumberLiteral.IsIn.isNegative {lit : NumberLiteral} (h : lit.IsIn text) :
    lit.value.isNegative = false := by
  obtain ⟨s, -, -, htoken⟩ := h
  rcases Source.tokenHere_cases s with hother | ⟨quote, hstring⟩
  · have hplain := hother.plain
    rw [htoken, Token.isPlain] at hplain
    simpa using hplain
  · rw [hstring] at htoken
    rcases Source.string_cases s quote with hbad | ⟨lit', raw, n, hlit, -⟩
    · rw [hbad] at htoken
      cases htoken
    · rw [hlit] at htoken
      cases htoken

/-- **No string and no number stand at one offset of a text.** -/
theorem StringLiteral.IsIn.start_ne {lit : StringLiteral} {lit' : NumberLiteral} (h : lit.IsIn text)
    (h' : lit'.IsIn text) : lit.start ≠ lit'.start := by
  intro hstart
  obtain ⟨s, raw, hs, htoken⟩ := h
  obtain ⟨s', hs', hoffset', htoken'⟩ := h'
  have hoffset : lit.start = s.offset := Source.start_eq_offset (by rw [htoken]; rfl)
  obtain rfl := hs.eq_of_offset hs' (by rw [← hoffset, hstart, hoffset'])
  rw [htoken] at htoken'
  cases htoken'

end

end Abridge
