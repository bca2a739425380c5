import Mathlib.Data.List.TakeWhile

/-!
# Spans of characters

The readers of texts take characters as long as these are of one kind.  What they take is known when the text
is: characters of that kind, and something behind them that does not go on with it (`span_append`).  Where the
kind is every character but a mark, the text goes up to its first mark (`span_mark`), and from its end up to the
last one (`exists_lastMark`).
-/

set_option autoImplicit false

namespace Abridge

/-- Characters of one kind are taken up to one that is not, and the rest is left. -/
theorem span_append {p : Char → Bool} {cs rest : List Char} (hcs : ∀ c ∈ cs, p c = true)
    (hrest : ∀ c ∈ rest.head?, p c = false) :
    (cs ++ rest).takeWhile p = cs ∧ (cs ++ rest).dropWhile p = rest := by
  rw [List.takeWhile_append_of_pos hcs, List.dropWhile_append_of_pos hcs]
  cases rest with
  | nil => simp
  | cons c rest =>
    have hc : ¬ p c = true := Bool.eq_false_iff.1 (hrest c rfl)
    rw [List.takeWhile_cons_of_neg hc, List.dropWhile_cons_of_neg hc]
    exact ⟨List.append_nil _, rfl⟩

section

variable {mark : Char} {cs : List Char}

theorem bne_of_not_mem (h : mark ∉ cs) : ∀ c ∈ cs, (c != mark) = true := by
  intro c hc
  rw [bne_iff_ne]
  rintro rfl
  exact h hc

theorem span_mark (h : mark ∉ cs) (rest : List Char) :
    (cs ++ mark :: rest).takeWhile (· != mark) = cs ∧
      (cs ++ mark :: rest).dropWhile (· != mark) = mark :: rest :=
  span_append (bne_of_not_mem h) (by simp)

/-- A text has no mark, or a last one. -/
theorem exists_lastMark (mark : Char) (cs : List Char) :
    mark ∉ cs ∨ ∃ before after, cs = before ++ mark :: after ∧ mark ∉ after := by
  induction cs with
  | nil => exact .inl List.not_mem_nil
  | cons c cs ih =>
    rcases ih with hnone | ⟨before, after, rfl, hafter⟩
    · by_cases hmark : c = mark
      · subst hmark
        exact .inr ⟨[], cs, rfl, hnone⟩
      · exact .inl (List.not_mem_cons_of_ne_of_not_mem (Ne.symm hmark) hnone)
    · exact .inr ⟨c :: before, after, rfl, hafter⟩

end

end Abridge
