import Abridge.Glossary
import Abridge.Names.ShortNames
import Abridge.Profile.Compiled
import Mathlib.Data.List.Nodup
import Mathlib.Data.List.TakeWhile

/-!
# The allocator of short names

`ShortNames.next` never runs out.  The counters of one lead give pairwise different names
(`candidate_inj`), and the names that are ruled out are the members of one list, `ruledOut`, which is
shorter than the search is long.  So the name that is given out is free (`isFree_next`), and giving it
out rules out nothing else (`next_taken`, `next_inUse`).

A name with a usable lead is a single word of the glossary (`pieces_candidate`): it starts like one,
and the digits of the counter continue it.
-/

set_option autoImplicit false

namespace Abridge

namespace ShortNames

/-! ## Names by lead and counter -/

theorem toList_candidate (lead : String) (n : Nat) :
    (candidate lead n).toList = lead.toList ++ Nat.toDigits 10 n := by
  rw [candidate, String.toList_append, Nat.toString_eq_ofList_toDigits, String.toList_ofList]

theorem candidate_inj {lead : String} {m n : Nat} :
    candidate lead m = candidate lead n ↔ m = n := by
  refine ⟨fun h => ?_, fun h => h ▸ rfl⟩
  have hd : Nat.toDigits 10 m = Nat.toDigits 10 n := by
    have := congrArg String.toList h
    rwa [toList_candidate, toList_candidate, List.append_cancel_left_eq] at this
  rw [← Nat.ofDigitChars_ten_toDigits (n := m), hd, Nat.ofDigitChars_ten_toDigits]

/-! ## The search -/

/-- The names that may not be given out. -/
def ruledOut (s : ShortNames) : List String :=
  s.taken ++ s.inUse ++ reservedNames ++ hostGlobals ++ libraryGlobals

theorem isFree_iff (s : ShortNames) (name : String) :
    s.isFree name = true ↔ name ∉ s.taken ∧ name ∉ s.inUse ∧ isProtectedName name = false := by
  simp [isFree, and_assoc]

theorem isFree_iff_not_mem_ruledOut (s : ShortNames) (name : String) :
    s.isFree name = true ↔ name ∉ s.ruledOut := by
  simp [isFree_iff, ruledOut, isProtectedName, and_assoc]

theorem length_ruledOut (s : ShortNames) : s.ruledOut.length < s.bound := by
  simp only [ruledOut, bound, List.length_append]
  omega

/-- Among as many counters as the search tries there is one whose name is free: otherwise that many
different names would all be ruled out. -/
theorem exists_isFree (s : ShortNames) (lead : String) (n : Nat) :
    ∃ i, i < s.bound ∧ s.isFree (candidate lead (n + i)) = true := by
  by_contra hnone
  have hruled : ∀ i, i < s.bound → candidate lead (n + i) ∈ s.ruledOut := by
    intro i hi
    by_contra hfree
    exact hnone ⟨i, hi, (s.isFree_iff_not_mem_ruledOut _).2 hfree⟩
  have hnodup : ((List.range s.bound).map fun i => candidate lead (n + i)).Nodup := by
    refine List.nodup_range.map fun i j hij => ?_
    have := candidate_inj.1 hij
    omega
  have hsub : ((List.range s.bound).map fun i => candidate lead (n + i)) ⊆ s.ruledOut := by
    intro name hname
    obtain ⟨i, hi, rfl⟩ := List.mem_map.1 hname
    exact hruled i (List.mem_range.1 hi)
  have hlen := hnodup.length_le_of_subset hsub
  have := s.length_ruledOut
  simp only [List.length_map, List.length_range] at hlen
  omega

theorem isFree_search (s : ShortNames) (lead : String) :
    ∀ (fuel n i : Nat), i < fuel → s.isFree (candidate lead (n + i)) = true →
      s.isFree (candidate lead (s.search lead fuel n)) = true
  | 0, _, _, hi, _ => absurd hi (by omega)
  | fuel + 1, n, i, hi, hfree => by
    rw [search]
    split
    · assumption
    · rename_i hn
      cases i with
      | zero => exact absurd hfree hn
      | succ i =>
        have hfree' : s.isFree (candidate lead (n + 1 + i)) = true := by
          rw [← hfree]; congr 2; omega
        exact isFree_search s lead fuel (n + 1) i (by omega) hfree'

/-! ## Giving out a name -/

theorem next_eq_candidate (s : ShortNames) (lead : String) :
    ∃ n, (s.next lead).1 = candidate lead n := ⟨_, rfl⟩

/-- **The allocator gives out free names only.** -/
theorem isFree_next (s : ShortNames) (lead : String) : s.isFree (s.next lead).1 = true := by
  obtain ⟨i, hi, hfree⟩ := s.exists_isFree lead (s.counter lead)
  exact s.isFree_search lead _ _ i hi hfree

@[simp] theorem next_taken (s : ShortNames) (lead : String) :
    (s.next lead).2.taken = (s.next lead).1 :: s.taken := rfl

@[simp] theorem next_inUse (s : ShortNames) (lead : String) :
    (s.next lead).2.inUse = s.inUse := rfl

end ShortNames

/-! ## Short names as words -/

namespace Glossary

theorem isWordPart_of_isDigit {c : Char} (h : c.isDigit = true) : isWordPart c = true := by
  simp [isWordPart, Char.isAlphanum, h]

/-- A text that starts like a word and goes on like one is a single word. -/
theorem pieces_eq_singleton {c : Char} {cs : List Char} (hc : isWordStart c = true)
    (hcs : ∀ d ∈ cs, isWordPart d = true) :
    pieces (c :: cs) = [.inl (String.ofList (c :: cs))] := by
  have htake : cs.takeWhile isWordPart = cs := List.takeWhile_eq_self_iff.2 hcs
  have hdrop : cs.dropWhile isWordPart = [] := List.dropWhile_eq_nil_iff.2 hcs
  rw [pieces, if_pos hc, htake, hdrop, pieces]

theorem pieces_cons_ne_nil (c : Char) (cs : List Char) : pieces (c :: cs) ≠ [] := by
  rw [pieces]
  split <;> exact List.cons_ne_nil _ _

/-- A text that is a single word starts like one and goes on like one. -/
theorem exists_of_pieces_eq_singleton {text : String} (h : pieces text.toList = [.inl text]) :
    ∃ c cs, text.toList = c :: cs ∧ isWordStart c = true ∧ ∀ d ∈ cs, isWordPart d = true := by
  cases hlist : text.toList with
  | nil =>
    rw [hlist, pieces] at h
    cases h
  | cons c cs =>
    rw [hlist, pieces] at h
    split at h
    · rename_i hc
      refine ⟨c, cs, rfl, hc, List.dropWhile_eq_nil_iff.1 ?_⟩
      have hrest : pieces (cs.dropWhile isWordPart) = [] := (List.cons.inj h).2
      cases hdrop : cs.dropWhile isWordPart with
      | nil => rfl
      | cons d ds =>
        rw [hdrop] at hrest
        exact absurd hrest (pieces_cons_ne_nil d ds)
    · cases (List.cons.inj h).1

end Glossary

theorem Profile.isUsableLead_iff (text : String) :
    Profile.isUsableLead text = true ↔
      ∃ c cs, text.toList = c :: cs ∧ Glossary.isWordStart c = true ∧
        (∀ d ∈ cs, Glossary.isWordPart d = true) ∧ isReservedName text = false := by
  unfold Profile.isUsableLead
  cases htext : text.toList with
  | nil => simp
  | cons c cs =>
    simp [Glossary.isWordStart, Glossary.isWordPart, and_assoc]

/-- A name with a usable lead is one whole word. -/
theorem ShortNames.pieces_candidate {lead : String} (h : Profile.isUsableLead lead = true)
    (n : Nat) : Glossary.pieces (candidate lead n).toList = [.inl (candidate lead n)] := by
  obtain ⟨c, cs, hlead, hc, hcs, -⟩ := (Profile.isUsableLead_iff lead).1 h
  have hlist : (candidate lead n).toList = c :: (cs ++ Nat.toDigits 10 n) := by
    rw [toList_candidate, hlead, List.cons_append]
  have hpart : ∀ d ∈ cs ++ Nat.toDigits 10 n, Glossary.isWordPart d = true := by
    intro d hd
    rcases List.mem_append.1 hd with hd | hd
    · exact hcs d hd
    · exact Glossary.isWordPart_of_isDigit (Nat.isDigit_of_mem_toDigits (by omega) (by omega) hd)
  rw [hlist, Glossary.pieces_eq_singleton hc hpart, ← hlist, String.ofList_toList]

end Abridge
