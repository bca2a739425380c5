import Abridge.Proofs.Offsets
import Mathlib.Data.List.Basic

/-!
# What strings stand for

The value of a string is a sequence of code units, two for a character beyond the first plane.  An escape
can also give one half of such a pair alone.  A literal whose value has a lone half keeps it as a
replacement character followed by four digits and says so by its flag, so that the same text stands for
other units with the flag than without it.

## What is here

* `StringLiteral.units`: the units of a literal, with and without the flag.
* `StringLiteral.IsIn.exists_escapes`, `StringLiteral.units_of_encodes`: a literal that was read stands for
  what the escapes and characters between its quotes stand for.
* `StringLiteral.IsIn.units_ne`: the flag of a literal that was read is not idle.
-/

set_option autoImplicit false

namespace Abridge

namespace Source

/-- The code units of a character. -/
def charUnits (c : Char) : List Nat :=
  if c.toNat < 0x10000 then [c.toNat]
  else [0xd800 + (c.toNat - 0x10000) / 0x400, 0xdc00 + (c.toNat - 0x10000) % 0x400]

/-- The code units that an escape stands for. -/
def Escape.units : Escape → List Nat
  | .char c => charUnits c
  | .surrogate n => [n]
  | .nothing => []

/-- The code units of a text in which four digits after a replacement character tell a unit. -/
def markedUnits : List Char → List Nat
  | '\uFFFD' :: a :: b :: c :: d :: rest => (hexRun? [a, b, c, d]).getD 0 :: markedUnits rest
  | c :: rest => charUnits c ++ markedUnits rest
  | [] => []

/-- Whether an escape is half of a pair. -/
def Escape.isSurrogate : Escape → Bool
  | .surrogate _ => true
  | _ => false

/-- A half of a pair is in the range of halves. -/
def Escape.InRange : Escape → Prop
  | .surrogate n => 0xd800 ≤ n ∧ n ≤ 0xdfff
  | _ => True

/-- How an escape is written in a text with marks. -/
def Escape.marked : Escape → List Char
  | .char c => if c == replacement then replacement :: hex4 0xfffd else [c]
  | .surrogate n => replacement :: hex4 n
  | .nothing => []

/-- The character that an escape is, when no marks are written. -/
def Escape.plain : Escape → List Char
  | .char c => [c]
  | _ => []

/-! ## Marks -/

theorem hexValue?_digitChar : ∀ i < 16, Text.hexValue? (Nat.digitChar i) = some i := by decide

theorem toDigits_step {n : Nat} (h : 16 ≤ n) :
    Nat.toDigits 16 n = Nat.toDigits 16 (n / 16) ++ [Nat.digitChar (n % 16)] := by
  rw [Nat.toDigits_eq_if (by omega), if_neg (by omega)]

/-- The four digits of a unit are read as the unit. -/
theorem hex4_spec {n : Nat} (hlow : 0x1000 ≤ n) (hhigh : n < 0x10000) :
    ∃ a b c d, hex4 n = [a, b, c, d] ∧ hexRun? [a, b, c, d] = some n := by
  have hdigits : Nat.toDigits 16 n = [Nat.digitChar (n / 16 / 16 / 16),
      Nat.digitChar (n / 16 / 16 % 16), Nat.digitChar (n / 16 % 16), Nat.digitChar (n % 16)] := by
    rw [toDigits_step (by omega), toDigits_step (by omega), toDigits_step (by omega),
      Nat.toDigits_of_lt_base (by omega)]
    rfl
  refine ⟨_, _, _, _, by rw [hex4, hdigits]; rfl, ?_⟩
  have hmod : ∀ k, Text.hexValue? (Nat.digitChar (k % 16)) = some (k % 16) := fun k =>
    hexValue?_digitChar _ (Nat.mod_lt _ (by decide))
  simp only [hexRun?, List.foldl_cons, List.foldl_nil, hmod, Option.pure_def, Option.bind_eq_bind,
    Option.bind_some, hexValue?_digitChar (n / 16 / 16 / 16) (by omega)]
  congr 1
  omega

theorem markedUnits_of_ne {c : Char} (hc : c ≠ replacement) (rest : List Char) :
    markedUnits (c :: rest) = charUnits c ++ markedUnits rest := by
  rw [markedUnits]
  rintro - - - - - h -
  exact hc h

theorem markedUnits_replacement {n : Nat} (hlow : 0x1000 ≤ n) (hhigh : n < 0x10000)
    (rest : List Char) : markedUnits (replacement :: hex4 n ++ rest) = n :: markedUnits rest := by
  obtain ⟨a, b, c, d, hhex, hrun⟩ := hex4_spec hlow hhigh
  rw [hhex]
  change (hexRun? [a, b, c, d]).getD 0 :: markedUnits rest = _
  rw [hrun, Option.getD_some]

/-- What is written with a mark is read as it was meant. -/
theorem markedUnits_marked {e : Escape} (he : e.InRange) (rest : List Char) :
    markedUnits (e.marked ++ rest) = e.units ++ markedUnits rest := by
  cases e with
  | nothing => rfl
  | surrogate n =>
    obtain ⟨hlow, hhigh⟩ := he
    exact markedUnits_replacement (by omega) (by omega) rest
  | char c =>
    rw [Escape.marked]
    split_ifs with hc
    · obtain rfl : c = replacement := eq_of_beq hc
      exact markedUnits_replacement (by decide) (by decide) rest
    · exact markedUnits_of_ne (by simpa using hc) rest

theorem markedUnits_flatMap : ∀ {es : List Escape}, (∀ e ∈ es, e.InRange) →
    markedUnits (es.flatMap Escape.marked) = es.flatMap Escape.units
  | [], _ => rfl
  | e :: es, h => by
    rw [List.flatMap_cons, markedUnits_marked (h e List.mem_cons_self), List.flatMap_cons,
      markedUnits_flatMap fun e he => h e (List.mem_cons_of_mem _ he)]

/-! ## The two encodings -/

theorem encodeUnits_snd (es : List Escape) : (encodeUnits es).2 = es.any Escape.isSurrogate := by
  refine congrArg es.any (funext fun e => ?_)
  cases e <;> rfl

theorem encodeUnits_of_surrogate {es : List Escape} (h : es.any Escape.isSurrogate = true) :
    encodeUnits es = (String.ofList (es.flatMap Escape.marked), true) := by
  have hlone := (encodeUnits_snd es).trans h
  refine Prod.ext ?_ hlone
  rw [encodeUnits] at hlone ⊢
  dsimp only at hlone ⊢
  rw [hlone]
  refine congrArg String.ofList (List.flatMap_congr fun e _ => ?_)
  cases e <;> rfl

theorem encodeUnits_of_plain {es : List Escape} (h : es.any Escape.isSurrogate = false) :
    encodeUnits es = (String.ofList (es.flatMap Escape.plain), false) := by
  have hlone := (encodeUnits_snd es).trans h
  refine Prod.ext ?_ hlone
  rw [encodeUnits] at hlone ⊢
  dsimp only at hlone ⊢
  rw [hlone]
  refine congrArg String.ofList (List.flatMap_congr fun e he => ?_)
  cases e with
  | surrogate n => exact absurd (List.any_eq_false.1 h _ he) (not_not_intro rfl)
  | _ => rfl

theorem flatMap_units_of_plain {es : List Escape} (h : es.any Escape.isSurrogate = false) :
    (es.flatMap Escape.plain).flatMap charUnits = es.flatMap Escape.units := by
  rw [List.flatMap_assoc]
  refine List.flatMap_congr fun e he => ?_
  cases e with
  | char c => exact List.append_nil _
  | surrogate n => exact absurd (List.any_eq_false.1 h _ he) (not_not_intro rfl)
  | nothing => rfl

/-! ## The length of marks -/

theorem length_le_flatMap_charUnits : ∀ cs : List Char, cs.length ≤ (cs.flatMap charUnits).length
  | [] => Nat.le_refl 0
  | c :: cs => by
    have hrest := length_le_flatMap_charUnits cs
    have hc : 1 ≤ (charUnits c).length := by
      rw [charUnits]
      split_ifs <;> simp
    rw [List.flatMap_cons, List.length_append, List.length_cons]
    omega

/-- A mark has more characters than the unit that it tells. -/
theorem length_units_le {e : Escape} (he : e.InRange) :
    e.units.length + e.isSurrogate.toNat ≤ (e.marked.flatMap charUnits).length := by
  have hmark : ∀ n, 0x1000 ≤ n → n < 0x10000 →
      2 ≤ ((replacement :: hex4 n).flatMap charUnits).length := by
    intro n hlow hhigh
    obtain ⟨a, b, c, d, hhex, -⟩ := hex4_spec hlow hhigh
    refine Nat.le_trans ?_ (length_le_flatMap_charUnits _)
    rw [hhex]
    exact Nat.le_add_left 2 3
  cases e with
  | nothing => exact Nat.le_refl 0
  | surrogate n =>
    obtain ⟨hlow, hhigh⟩ := he
    exact hmark n (by omega) (by omega)
  | char c =>
    rw [Escape.marked]
    split_ifs with hc
    · obtain rfl : c = replacement := eq_of_beq hc
      exact Nat.le_trans (by decide) (hmark 0xfffd (by decide) (by decide))
    · exact Nat.le_of_eq (congrArg List.length (List.append_nil (charUnits c)).symm)

theorem length_flatMap_units_le : ∀ {es : List Escape}, (∀ e ∈ es, e.InRange) →
    (es.flatMap Escape.units).length + (es.any Escape.isSurrogate).toNat ≤
      ((es.flatMap Escape.marked).flatMap charUnits).length
  | [], _ => Nat.le_refl 0
  | e :: es, h => by
    have hfirst := length_units_le (h e List.mem_cons_self)
    have hrest := length_flatMap_units_le fun e he => h e (List.mem_cons_of_mem _ he)
    have hany : (e.isSurrogate || es.any Escape.isSurrogate).toNat ≤
        e.isSurrogate.toNat + (es.any Escape.isSurrogate).toNat := by
      cases e.isSurrogate <;> cases es.any Escape.isSurrogate <;> decide
    rw [List.flatMap_cons, List.flatMap_cons, List.flatMap_append, List.length_append,
      List.length_append, List.any_cons]
    omega

/-! ## Escapes that are read -/

theorem inRange_of_escapeOf {n : Nat} {e : Escape} (h : escapeOf n = some e) : e.InRange := by
  rw [escapeOf] at h
  split_ifs at h with hrange
  · cases h
    rw [Bool.and_eq_true_iff, decide_eq_true_iff, decide_eq_true_iff] at hrange
    exact hrange
  · cases h
    trivial

theorem inRange_of_unicodeValue? {cs : List Char} {e : Escape} {used : Nat}
    (h : unicodeValue? cs = some (e, used)) : e.InRange := by
  have hsingle : ∀ {n k : Nat}, (escapeOf n).map (fun e => (e, k)) = some (e, used) → e.InRange := by
    intro n k hmap
    obtain ⟨e', he', heq⟩ := Option.map_eq_some_iff.1 hmap
    cases heq
    exact inRange_of_escapeOf he'
  obtain ⟨⟨n, k⟩, -, hrest⟩ := Option.bind_eq_some_iff.1 h
  dsimp only at hrest
  split_ifs at hrest
  · split at hrest
    · split at hrest
      · split_ifs at hrest
        · cases hrest
          trivial
        · exact hsingle hrest
      · cases hrest
    · exact hsingle hrest
  · exact hsingle hrest

theorem inRange_of_escape? {cs : List Char} {e : Escape} {n : Nat} {legacy : Bool}
    (h : escape? cs = some (e, n, legacy)) : e.InRange := by
  unfold escape? at h
  split at h
  case h_10 =>
    obtain ⟨⟨e', used⟩, hvalue, heq⟩ := Option.map_eq_some_iff.1 h
    cases heq
    exact inRange_of_unicodeValue? hvalue
  case h_9 =>
    split at h
    · obtain ⟨k, -, heq⟩ := Option.map_eq_some_iff.1 h
      cases heq
      trivial
    · cases h
  case h_11 =>
    dsimp only at h
    split_ifs at h <;> cases h <;> trivial
  all_goals cases h <;> trivial

theorem inRange_of_stringBody {quote : Char} {es : List Escape} {n : Nat} :
    ∀ {fuel : Nat} {cs : List Char} {used : Nat} {units : List Escape},
      (∀ e ∈ units, e.InRange) → stringBody quote fuel cs used units = some (es, n) →
      ∀ e ∈ es, e.InRange
  | 0, _, _, _, _, h => by cases h
  | fuel + 1, cs, used, units, hunits, h => by
    have hcons : ∀ {e : Escape}, e.InRange → ∀ e' ∈ e :: units, e'.InRange :=
      fun he => List.forall_mem_cons.2 ⟨he, hunits⟩
    unfold stringBody at h
    split at h
    · cases h
    · split at h
      · cases h
      · rename_i hescape
        exact inRange_of_stringBody (hcons (inRange_of_escape? hescape)) h
    · split_ifs at h
      · cases h
        exact fun e he => hunits e (List.mem_reverse.1 he)
      · exact inRange_of_stringBody (hcons (e := .char _) trivial) h

end Source

/-! ## Literals -/

namespace StringLiteral

/-- The code units that a literal stands for. -/
def units (lit : StringLiteral) : List Nat :=
  if lit.surrogates then Source.markedUnits lit.value.toList
  else lit.value.toList.flatMap Source.charUnits

/-- A literal is how escapes and characters are kept. -/
structure Encodes (lit : StringLiteral) (es : List Source.Escape) : Prop where
  encoded : Source.encodeUnits es = (lit.value, lit.surrogates)
  inRange : ∀ e ∈ es, e.InRange

variable {lit : StringLiteral} {es : List Source.Escape}

/-- **A literal stands for what its escapes and characters stand for.** -/
theorem units_of_encodes (h : lit.Encodes es) : lit.units = es.flatMap Source.Escape.units := by
  have hencoded := h.encoded
  cases hlone : es.any Source.Escape.isSurrogate with
  | true =>
    rw [Source.encodeUnits_of_surrogate hlone, Prod.mk.injEq] at hencoded
    rw [units, ← hencoded.1, ← hencoded.2, if_pos rfl, String.toList_ofList,
      Source.markedUnits_flatMap h.inRange]
  | false =>
    rw [Source.encodeUnits_of_plain hlone, Prod.mk.injEq] at hencoded
    rw [units, ← hencoded.1, ← hencoded.2, if_neg Bool.false_ne_true, String.toList_ofList,
      Source.flatMap_units_of_plain hlone]

/-- **A literal that was read keeps the escapes and characters between its quotes.** -/
theorem IsIn.exists_escapes {text : List Char} (h : lit.IsIn text) : ∃ es, lit.Encodes es := by
  obtain ⟨s, raw, -, htoken⟩ := h
  rcases Source.tokenHere_cases s with hother | ⟨quote, hstring⟩
  · have hnone := hother.string
    rw [htoken] at hnone
    cases hnone
  · rw [hstring, Source.string] at htoken
    dsimp only at htoken
    split at htoken
    · cases htoken
    · rename_i es used hbody
      cases htoken
      exact ⟨es, rfl, Source.inRange_of_stringBody (List.forall_mem_nil _) hbody⟩

/-- **The flag is not idle**: without it a literal that was read with it would stand for more units. -/
theorem IsIn.units_ne {text : List Char} (h : lit.IsIn text) (hlone : lit.surrogates = true) :
    lit.value.toList.flatMap Source.charUnits ≠ lit.units := by
  obtain ⟨es, hes⟩ := h.exists_escapes
  have hencoded := hes.encoded
  have hany : es.any Source.Escape.isSurrogate = true := by
    rw [← Source.encodeUnits_snd, hencoded]
    exact hlone
  rw [Source.encodeUnits_of_surrogate hany, Prod.mk.injEq] at hencoded
  intro heq
  have hlength := Source.length_flatMap_units_le hes.inRange
  rw [units_of_encodes hes, ← hencoded.1, String.toList_ofList] at heq
  rw [hany, heq, Bool.toNat_true] at hlength
  omega

end StringLiteral

end Abridge
