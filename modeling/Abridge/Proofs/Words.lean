import Abridge.Proofs.Reversal
import Abridge.Proofs.Spans

/-!
# Texts, word by word

A glossary replaces the words of a text and leaves the rest of it alone.  Which words a text has is not a
matter of looking around: a word starts where a letter, `_` or `$` stands and nothing before it is still
being read, and it goes on as far as it can.  So a digit may stand right in front of a word (`1v1` has the
word `v1`), and a text falls apart wherever a character stands that is in no word.

`Splits` says so without the scanner, and a text splits in one way only (`Splits.eq_pieces`).  The rest
follows from that.  Two texts that meet outside of words split apart, and a text whose words are replaced by
words has the new words at the places of the old ones, so that a second glossary finds every one of them.

## What is here

* `Splits.append`, `Splits.replace`: how the pieces of a text are put together and replaced.
* `lookup_inverse`: what a glossary knows that is turned around.
* `expand_by_words`: how a glossary treats texts, and how a replacement is taken back.
-/

set_option autoImplicit false

namespace Abridge

namespace Glossary

/-! ## Splitting a text -/

/-- A single word: a letter, `_` or `$`, and letters, digits, `_` and `$` behind it. -/
def IsWord (text : String) : Prop :=
  ∃ c cs, text.toList = c :: cs ∧ isWordStart c = true ∧ ∀ d ∈ cs, isWordPart d = true

instance (text : String) : Decidable (IsWord text) :=
  match hlist : text.toList with
  | [] => isFalse fun ⟨_, _, h, _⟩ => List.cons_ne_nil _ _ (h.symm.trans hlist)
  | c :: cs => decidable_of_iff ((isWordStart c && cs.all isWordPart) = true) (by
      rw [Bool.and_eq_true, List.all_eq_true]
      refine ⟨fun h => ⟨c, cs, hlist, h⟩, fun ⟨_, _, h, hword⟩ => ?_⟩
      obtain ⟨rfl, rfl⟩ := List.cons.inj (hlist.symm.trans h)
      exact hword)

/-- No word goes on into these characters. -/
def EndsWord (cs : List Char) : Prop := ∀ c ∈ cs.head?, isWordPart c = false

/-- The pieces of a text: words that go on as far as they can, and characters at which no word starts. -/
inductive Splits : List Char → List (String ⊕ Char) → Prop
  | nil : Splits [] []
  | word {word : String} {rest : List Char} {ps : List (String ⊕ Char)} (hword : IsWord word)
      (hends : EndsWord rest) (h : Splits rest ps) : Splits (word.toList ++ rest) (.inl word :: ps)
  | char {c : Char} {rest : List Char} {ps : List (String ⊕ Char)} (hc : isWordStart c = false)
      (h : Splits rest ps) : Splits (c :: rest) (.inr c :: ps)

theorem endsWord_dropWhile (cs : List Char) : EndsWord (cs.dropWhile isWordPart) := by
  intro c hc
  have := List.head?_dropWhile_not isWordPart cs
  rw [Option.mem_def.1 hc] at this
  simpa using this

theorem splits_pieces (cs : List Char) : Splits cs (pieces cs) := by
  induction cs using pieces.induct with
  | case1 =>
    rw [pieces]
    exact .nil
  | case2 c cs hc ih =>
    have hword : IsWord (headWord c cs) :=
      ⟨c, _, String.toList_ofList, hc, fun d hd => List.mem_takeWhile_imp hd⟩
    have hlist : (headWord c cs).toList ++ cs.dropWhile isWordPart = c :: cs := by
      rw [headWord, String.toList_ofList, List.cons_append, List.takeWhile_append_dropWhile]
    have hsplits := Splits.word hword (endsWord_dropWhile cs) ih
    rw [hlist] at hsplits
    rw [pieces, if_pos hc]
    exact hsplits
  | case3 c cs hc ih =>
    rw [pieces, if_neg hc]
    exact .char (Bool.eq_false_iff.2 hc) ih

/-- **A text splits in one way.** -/
theorem Splits.eq_pieces {cs : List Char} {ps : List (String ⊕ Char)} (h : Splits cs ps) :
    ps = pieces cs := by
  induction h with
  | nil => rw [pieces]
  | @word word rest ps hword hends h ih =>
    obtain ⟨c, cs, hlist, hc, hcs⟩ := hword
    obtain ⟨htake, hdrop⟩ := span_append hcs hends
    rw [hlist, List.cons_append, pieces, if_pos hc, htake, hdrop, ← hlist, String.ofList_toList, ih]
  | char hc h ih => rw [pieces, if_neg (Bool.eq_false_iff.1 hc), ih]

/-- What a piece is in the text. -/
def pieceText : String ⊕ Char → List Char
  | .inl word => word.toList
  | .inr c => [c]

theorem Splits.flatMap_pieceText {cs : List Char} {ps : List (String ⊕ Char)} (h : Splits cs ps) :
    ps.flatMap pieceText = cs := by
  induction h with
  | nil => rfl
  | word hword hends h ih => rw [List.flatMap_cons, ih, pieceText]
  | char hc h ih => rw [List.flatMap_cons, ih, pieceText, List.singleton_append]

/-- The words of a text, from left to right. -/
def words (text : String) : List String := (pieces text.toList).filterMap Sum.getLeft?

theorem mem_words {word text : String} : word ∈ words text ↔ .inl word ∈ pieces text.toList := by
  simp [words]

theorem IsWord.pieces_eq {word : String} (h : IsWord word) : pieces word.toList = [.inl word] := by
  obtain ⟨c, cs, hlist, hc, hcs⟩ := h
  rw [hlist, pieces_eq_singleton hc hcs, ← hlist, String.ofList_toList]

theorem Splits.isWordStart_of_mem {cs : List Char} {ps : List (String ⊕ Char)} (h : Splits cs ps)
    {word : String} (hmem : .inl word ∈ ps) : ∃ c ∈ cs, isWordStart c = true := by
  induction h with
  | nil => cases hmem
  | word hword hends h ih =>
    obtain ⟨c, cs, hlist, hc, -⟩ := hword
    exact ⟨c, by simp [hlist], hc⟩
  | char hc h ih =>
    obtain ⟨c, hmem, hstart⟩ := ih (by simpa using hmem)
    exact ⟨c, List.mem_cons_of_mem _ hmem, hstart⟩

/-! ## Two texts -/

/-- No word of the first text goes on in the second one: a character that is in no word stands last in the
first text or first in the second one. -/
def Apart (as bs : List Char) : Prop := (∀ c ∈ as.getLast?, isWordPart c = false) ∨ EndsWord bs

theorem Apart.of_append (as : List Char) {rest bs : List Char} (h : Apart (as ++ rest) bs) (hrest : rest ≠ []) :
    Apart rest bs :=
  h.imp_left fun hlast c hc => hlast c (by
    rw [List.getLast?_append_of_ne_nil as hrest]
    exact hc)

theorem IsWord.isWordPart_of_mem {word : String} (h : IsWord word) {c : Char} (hc : c ∈ word.toList) :
    isWordPart c = true := by
  obtain ⟨d, ds, hlist, hd, hds⟩ := h
  rw [hlist] at hc
  rcases List.mem_cons.1 hc with rfl | hc
  · exact isWordPart_of_isWordStart hd
  · exact hds c hc

theorem IsWord.toList_ne_nil {word : String} (h : IsWord word) : word.toList ≠ [] := by
  obtain ⟨d, ds, hlist, -⟩ := h
  rw [hlist]
  exact List.cons_ne_nil d ds

theorem Splits.append {as bs : List Char} {ps qs : List (String ⊕ Char)} (ha : Splits as ps)
    (hb : Splits bs qs) (h : Apart as bs) : Splits (as ++ bs) (ps ++ qs) := by
  induction ha with
  | nil => exact hb
  | @word word rest ps hword hends ha ih =>
    rw [List.append_assoc]
    cases rest with
    | nil =>
      -- The word stands last in the first text, so it is the second one that ends it.
      have hsecond : EndsWord bs := by
        refine h.resolve_left fun hlast => ?_
        rw [List.append_nil, List.getLast?_eq_some_getLast hword.toList_ne_nil] at hlast
        have hpart := hword.isWordPart_of_mem (List.getLast_mem hword.toList_ne_nil)
        rw [hlast _ rfl] at hpart
        cases hpart
      exact .word hword hsecond (ih (.inr hsecond))
    | cons c rest => exact .word hword hends (ih (h.of_append _ (List.cons_ne_nil c rest)))
  | @char c rest ps hc ha ih =>
    refine .char hc ?_
    cases rest with
    | nil =>
      have hnone : ps = [] := by rw [ha.eq_pieces, pieces]
      rw [hnone]
      exact hb
    | cons d rest => exact ih (h.of_append [c] (List.cons_ne_nil d rest))

variable {g : Glossary}

theorem expandChars_of_splits {cs : List Char} {ps : List (String ⊕ Char)} (h : Splits cs ps) :
    g.expandChars cs = ps.flatMap fun piece => (g.expandPiece piece).toList := by
  rw [expandChars, h.eq_pieces]

/-- Texts that meet outside of words are expanded one by one. -/
theorem expand_append {a b : String} (h : Apart a.toList b.toList) :
    g.expand (a ++ b) = g.expand a ++ g.expand b := by
  have hsplits := (splits_pieces a.toList).append (splits_pieces b.toList) h
  rw [← String.toList_inj, String.toList_append, toList_expand, toList_expand, toList_expand,
    String.toList_append, expandChars_of_splits hsplits, List.flatMap_append, expandChars, expandChars]

/-- A single word is looked up. -/
theorem expand_isWord {word : String} (h : IsWord word) : g.expand word = (g.lookup word).getD word := by
  rw [← String.toList_inj, toList_expand, expandChars, h.pieces_eq]
  simp [expandPiece]

/-- A text in which no word starts stays as it is. -/
theorem expand_of_no_word {text : String} (h : ∀ c ∈ text.toList, isWordStart c = false) :
    g.expand text = text := by
  rw [← String.toList_inj, toList_expand]
  refine expandChars_eq_self _ fun word hword => ?_
  obtain ⟨c, hc, hstart⟩ := (splits_pieces text.toList).isWordStart_of_mem hword
  rw [h c hc] at hstart
  cases hstart

/-- A glossary without entries changes no text. -/
theorem expand_of_table_eq_nil (h : g.table = []) (text : String) : g.expand text = text := by
  rw [← String.toList_inj, toList_expand]
  refine expandChars_eq_self _ fun word _ => ?_
  rw [lookup, h, Table.get?_nil]

/-! ## Taking a replacement back -/

/-- The pieces of a text after its words were replaced. -/
def replacePiece (g : Glossary) : String ⊕ Char → String ⊕ Char :=
  Sum.map (fun word => (g.lookup word).getD word) id

theorem pieceText_replacePiece (g : Glossary) (piece : String ⊕ Char) :
    pieceText (g.replacePiece piece) = (g.expandPiece piece).toList := by
  cases piece with
  | inl word => rfl
  | inr c => exact (String.toList_singleton c).symm

/-- The glossary stands words for words. -/
def OnWords (g : Glossary) : Prop := ∀ key text, g.lookup key = some text → IsWord text

theorem OnWords.isWord_getD (h : g.OnWords) {word : String} (hword : IsWord word) :
    IsWord ((g.lookup word).getD word) := by
  cases hlookup : g.lookup word with
  | none => exact hword
  | some text => exact h word text hlookup

/-- Behind a word nothing goes on with it, after its words were replaced as before. -/
theorem Splits.endsWord_replace {cs : List Char} {ps : List (String ⊕ Char)} (h : Splits cs ps)
    (hends : EndsWord cs) : EndsWord ((ps.map g.replacePiece).flatMap pieceText) := by
  cases h with
  | nil => exact hends
  | word hword _ _ =>
    obtain ⟨c, rest, hlist, hc, -⟩ := hword
    have hpart := hends c (by simp [hlist])
    rw [isWordPart_of_isWordStart hc] at hpart
    cases hpart
  | char _ _ => exact hends

/-- **Where words stand for words, the new words stand at the places of the old ones.** -/
theorem Splits.replace {cs : List Char} {ps : List (String ⊕ Char)} (h : Splits cs ps) (hg : g.OnWords) :
    Splits ((ps.map g.replacePiece).flatMap pieceText) (ps.map g.replacePiece) := by
  induction h with
  | nil => exact .nil
  | word hword hends h ih => exact .word (hg.isWord_getD hword) (h.endsWord_replace hends) ih
  | char hc h ih => exact .char hc ih

theorem splits_expandChars (hg : g.OnWords) (cs : List Char) :
    Splits (g.expandChars cs) ((pieces cs).map g.replacePiece) := by
  have hsplits := (splits_pieces cs).replace hg
  rwa [List.flatMap_map, funext g.pieceText_replacePiece] at hsplits

/-- The glossary turned around. -/
def inverse (g : Glossary) : Glossary := ofPairs (g.table.map Prod.swap)

/-- No two words stand for the same. -/
def Injective (g : Glossary) : Prop :=
  ∀ key key' text, g.lookup key = some text → g.lookup key' = some text → key = key'

/-- A glossary turned around knows the meanings of the words that it knew. -/
theorem lookup_inverse (hg : g.table.Distinct) (hinjective : g.Injective) {key text : String} :
    g.inverse.lookup text = some key ↔ g.lookup key = some text := by
  have hlookup : ∀ key text, g.lookup key = some text ↔ (key, text) ∈ g.table :=
    fun _ _ => hg.get?_eq_some_iff
  have hdistinct : Table.Distinct (g.table.map Prod.swap) := by
    have hfst : (g.table.map Prod.swap).map Prod.fst = g.table.map Prod.snd := by
      rw [List.map_map]
      rfl
    rw [Table.Distinct, hfst]
    refine (List.Nodup.of_map _ hg).map_on ?_
    rintro ⟨key, text⟩ h ⟨key', text'⟩ h' (rfl : text = text')
    rw [hinjective key key' text ((hlookup _ _).2 h) ((hlookup _ _).2 h')]
  rw [inverse, lookup_ofPairs_iff hdistinct, hlookup]
  simp

/-- The inverse takes back what was done to a piece, unless that is a word that others stand for. -/
theorem expandPiece_inverse (hg : g.table.Distinct) (hinjective : g.Injective) {piece : String ⊕ Char}
    (hfresh : ∀ word, piece = .inl word → ∀ key, g.lookup key ≠ some word) :
    (g.inverse.expandPiece (g.replacePiece piece)).toList = pieceText piece := by
  cases piece with
  | inr c => exact String.toList_singleton c
  | inl word =>
    change ((g.inverse.lookup ((g.lookup word).getD word)).getD ((g.lookup word).getD word)).toList =
      word.toList
    cases hlookup : g.lookup word with
    | some text => rw [Option.getD_some, (lookup_inverse hg hinjective).2 hlookup, Option.getD_some]
    | none =>
      have hnone : g.inverse.lookup word = none := Option.eq_none_iff_forall_ne_some.2 fun key hkey =>
        hfresh word rfl key ((lookup_inverse hg hinjective).1 hkey)
      rw [Option.getD_none, hnone, Option.getD_none]

theorem inverse_expand (hg : g.table.Distinct) (hwords : g.OnWords) (hinjective : g.Injective)
    {text : String} (hfresh : ∀ word ∈ words text, ∀ key, g.lookup key ≠ some word) :
    g.inverse.expand (g.expand text) = text := by
  have hpieces : ∀ piece ∈ pieces text.toList,
      (g.inverse.expandPiece (g.replacePiece piece)).toList = pieceText piece := by
    intro piece hpiece
    refine expandPiece_inverse hg hinjective ?_
    rintro word rfl
    exact hfresh word (mem_words.2 hpiece)
  rw [← String.toList_inj, toList_expand, toList_expand,
    expandChars_of_splits (splits_expandChars hwords text.toList), List.flatMap_map,
    List.flatMap_congr hpieces, (splits_pieces text.toList).flatMap_pieceText]

/-! ## The whole of it -/

/-- **A glossary works word by word.**  Texts that meet outside of words are expanded one by one, a single
word becomes what it stands for, and nothing happens to a text in which no word starts, or where nothing is
known.  Where words stand for words, no two for the same one, and no word of a text is what another one
stands for, the glossary turned around gives the text back. -/
theorem expand_by_words (pairs : List (String × String)) :
    (∀ a b : String, Apart a.toList b.toList →
      (ofPairs pairs).expand (a ++ b) = (ofPairs pairs).expand a ++ (ofPairs pairs).expand b) ∧
    (∀ word, IsWord word → (ofPairs pairs).expand word = ((ofPairs pairs).lookup word).getD word) ∧
    (∀ text : String, (∀ c ∈ text.toList, isWordStart c = false) → (ofPairs pairs).expand text = text) ∧
    ((ofPairs pairs).table = [] → ∀ text, (ofPairs pairs).expand text = text) ∧
    ((ofPairs pairs).OnWords → (ofPairs pairs).Injective → ∀ text,
      (∀ word ∈ words text, ∀ key, (ofPairs pairs).lookup key ≠ some word) →
        (ofPairs pairs).inverse.expand ((ofPairs pairs).expand text) = text) :=
  ⟨fun _ _ h => expand_append h, fun _ h => expand_isWord h, fun _ h => expand_of_no_word h,
    expand_of_table_eq_nil,
    fun hwords hinjective _ hfresh => inverse_expand (Table.distinct_ofEntries pairs) hwords hinjective hfresh⟩

/-- Two words, one of which starts like the other. -/
def versions : List (String × String) := [("v1", "first"), ("v12", "twelfth")]

/-- Those words in a text, one of them behind a digit and in front of a letter that is in no word. -/
theorem expand_by_words_versions :
    (Apart "v12+".toList "1v1é x".toList ∧
      (ofPairs versions).expand ("v12+" ++ "1v1é x") =
        (ofPairs versions).expand "v12+" ++ (ofPairs versions).expand "1v1é x") ∧
    (IsWord "v12" ∧ (ofPairs versions).expand "v12" = ((ofPairs versions).lookup "v12").getD "v12") ∧
    ((∀ c ∈ "1+2é".toList, isWordStart c = false) ∧ (ofPairs versions).expand "1+2é" = "1+2é") ∧
    ((ofPairs []).table = [] ∧ (ofPairs []).expand "v12" = "v12") ∧
    (ofPairs versions).OnWords ∧ (ofPairs versions).Injective ∧
    (∀ word ∈ words "v12+1v1é x", ∀ key, (ofPairs versions).lookup key ≠ some word) ∧
    (ofPairs versions).inverse.expand ((ofPairs versions).expand "v12+1v1é x") = "v12+1v1é x" := by
  have hmem : ∀ key text, (ofPairs versions).lookup key = some text → (key, text) ∈ versions :=
    fun _ _ h => Table.mem_of_get? h
  have happart : Apart "v12+".toList "1v1é x".toList := by
    refine .inl fun c hc => ?_
    obtain rfl : '+' = c := Option.some.inj hc
    decide
  have hword : ∀ text ∈ ["v12", "first", "twelfth"], IsWord text := by decide +kernel
  have houtside : ∀ c ∈ "1+2é".toList, isWordStart c = false := by
    have hall : ("1+2é".toList.all fun c => !isWordStart c) = true := by decide +kernel
    simpa using List.all_eq_true.1 hall
  have honWords : (ofPairs versions).OnWords := by
    intro key text h
    have htext : ∀ e ∈ versions, e.2 ∈ ["v12", "first", "twelfth"] := by decide
    exact hword text (htext _ (hmem _ _ h))
  have hinjective : (ofPairs versions).Injective := by
    intro key key' text h h'
    have heq : ∀ e ∈ versions, ∀ e' ∈ versions, e.2 = e'.2 → e.1 = e'.1 := by decide
    exact heq _ (hmem _ _ h) _ (hmem _ _ h') rfl
  have hfresh : ∀ word ∈ words "v12+1v1é x", ∀ key, (ofPairs versions).lookup key ≠ some word := by
    intro word hword key h
    have hvalues : ∀ word ∈ words "v12+1v1é x", ∀ e ∈ versions, e.2 ≠ word := by decide +kernel
    exact hvalues word hword _ (hmem _ _ h) rfl
  obtain ⟨happend, hlookup, hnone, -, hback⟩ := expand_by_words versions
  obtain ⟨-, -, -, hnil, -⟩ := expand_by_words []
  exact ⟨⟨happart, happend _ _ happart⟩, ⟨hword _ (by decide), hlookup _ (hword _ (by decide))⟩,
    ⟨houtside, hnone _ houtside⟩, ⟨rfl, hnil rfl _⟩, honWords, hinjective, hfresh,
    hback honWords hinjective _ hfresh⟩

end Glossary

end Abridge
