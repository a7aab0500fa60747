import Mathlib.Data.List.TakeWhile
import Scopewright.Proofs.Text.Find
import Scopewright.Text.Class

/-! # The words of a text

A word is not empty and holds no white space (`Text.of_mem_words`), and a text like this is one word
(`Text.words_of_not_blank`).  What stands on the two sides of white space has words of its own
(`Text.words_append_cons`), so white space at the ends of a text belongs to no word
(`Text.words_trim`). -/

namespace Scopewright
namespace Text

variable {t w : Text} {c : CodeUnit}

theorem not_blank_of_mem_takeWhile (h : c ∈ t.takeWhile (!·.isBlank)) : c.isBlank = false := by
  simpa using List.mem_takeWhile_imp h

theorem not_blank_of_mem_splitBlank (h : w ∈ splitBlank t) : ∀ c ∈ w, c.isBlank = false := by
  fun_induction splitBlank t with
  | case1 t word _ =>
      rw [List.mem_singleton.mp h]
      exact fun c hc => not_blank_of_mem_takeWhile hc
  | case2 t word d rest _ ih =>
      rcases List.mem_cons.mp h with rfl | h
      · exact fun c hc => not_blank_of_mem_takeWhile hc
      · exact ih h

theorem of_mem_words (h : w ∈ words t) : w ≠ [] ∧ ∀ c ∈ w, c.isBlank = false := by
  obtain ⟨hw, hne⟩ := List.mem_filter.mp h
  refine ⟨?_, not_blank_of_mem_splitBlank hw⟩
  rintro rfl
  cases hne

theorem splitBlank_of_not_blank (h : ∀ c ∈ w, c.isBlank = false) : splitBlank w = [w] := by
  have hall : ∀ c ∈ w, (!c.isBlank) = true := fun c hc => by rw [h c hc, Bool.not_false]
  rw [splitBlank, List.takeWhile_eq_self_iff.mpr hall]
  split
  · rfl
  · rename_i hrest
    rw [List.dropWhile_eq_nil_iff.mpr hall] at hrest
    cases hrest

theorem splitBlank_append_cons (h : ∀ c ∈ w, c.isBlank = false) (hc : c.isBlank = true) :
    splitBlank (w ++ c :: t) = w :: splitBlank (trimStart t) := by
  have hall : ∀ d ∈ w, (!d.isBlank) = true := fun d hd => by rw [h d hd, Bool.not_false]
  have htake : (w ++ c :: t).takeWhile (!·.isBlank) = w := by
    rw [List.takeWhile_append_of_pos hall, List.takeWhile_cons_of_neg (by simp [hc]),
      List.append_nil]
  have hdrop : (w ++ c :: t).dropWhile (!·.isBlank) = c :: t := by
    rw [List.dropWhile_append_of_pos hall, List.dropWhile_cons_of_neg (by simp [hc])]
  rw [splitBlank, htake]
  split
  · rename_i hrest
    rw [hdrop] at hrest
    cases hrest
  · rename_i hrest
    rw [hdrop] at hrest
    rw [(List.cons.inj hrest).2, trimStart]

theorem words_of_not_blank (hne : w ≠ []) (h : ∀ c ∈ w, c.isBlank = false) : words w = [w] := by
  rw [words, splitBlank_of_not_blank h, List.filter_cons_of_pos, List.filter_nil]
  rw [Bool.not_eq_true', Bool.eq_false_iff]
  exact fun he => hne (List.isEmpty_iff.mp he)

theorem words_trimStart (t : Text) : words (trimStart t) = words t := by
  cases t with
  | nil => rfl
  | cons c t =>
      by_cases hc : c.isBlank = true
      · have hsplit : splitBlank (c :: t) = [] :: splitBlank (trimStart t) :=
          splitBlank_append_cons (List.forall_mem_nil _) hc
        rw [trimStart, List.dropWhile_cons_of_pos hc, words, words, hsplit,
          List.filter_cons_of_neg (by simp), trimStart]
      · rw [trimStart, List.dropWhile_cons_of_neg hc]

theorem words_of_front (h : ∀ c ∈ w, c.isBlank = false) (hc : c.isBlank = true) :
    words (w ++ c :: t) = words w ++ words t := by
  calc words (w ++ c :: t) = (splitBlank w ++ splitBlank (trimStart t)).filter (!·.isEmpty) := by
        rw [words, splitBlank_append_cons h hc, splitBlank_of_not_blank h, List.singleton_append]
    _ = words w ++ words (trimStart t) := List.filter_append _ _
    _ = words w ++ words t := by rw [words_trimStart]

/-- No word goes over white space. -/
theorem words_append_cons (s t : Text) (hc : c.isBlank = true) :
    words (s ++ c :: t) = words s ++ words t := by
  -- the units of `s` up to its first white space are moved to `w` one by one
  suffices h : ∀ w, (∀ d ∈ w, d.isBlank = false) →
      words (w ++ s ++ c :: t) = words (w ++ s) ++ words t from h [] (List.forall_mem_nil _)
  induction s with
  | nil =>
      intro w hw
      rw [List.append_nil]
      exact words_of_front hw hc
  | cons d s ih =>
      intro w hw
      by_cases hd : d.isBlank = true
      · have hrest := ih [] (List.forall_mem_nil _)
        rw [List.nil_append] at hrest
        rw [List.append_assoc, List.cons_append, words_of_front hw hd, words_of_front hw hd, hrest,
          List.append_assoc]
      · have hone : ∀ e ∈ w ++ [d], e.isBlank = false := by
          intro e he
          rcases List.mem_append.mp he with he | he
          · exact hw e he
          · rw [List.mem_singleton.mp he]
            exact Bool.eq_false_iff.mpr hd
        have hrest := ih (w ++ [d]) hone
        rwa [List.append_assoc w, List.singleton_append] at hrest

theorem words_of_blank (h : ∀ c ∈ t, c.isBlank = true) : words t = [] := by
  have hnil : words [] = [] := by
    rw [words, splitBlank_of_not_blank (List.forall_mem_nil _), List.filter_cons_of_neg (by simp),
      List.filter_nil]
  induction t with
  | nil => exact hnil
  | cons c t ih =>
      obtain ⟨hc, ht⟩ := List.forall_mem_cons.mp h
      have hfront := words_append_cons [] t hc
      rwa [List.nil_append, ih ht, hnil] at hfront

/-- What a text has behind the white space at its front begins with another unit. -/
theorem exists_blanks_append (t : Text) :
    ∃ blanks rest : Text, t = blanks ++ rest ∧ (∀ c ∈ blanks, c.isBlank = true) ∧
      ∀ c ∈ rest.head?, c.isBlank = false :=
  ⟨t.takeWhile CodeUnit.isBlank, t.dropWhile CodeUnit.isBlank,
    List.takeWhile_append_dropWhile.symm, fun _ => List.mem_takeWhile_imp, head_dropWhile _ t⟩

/-- What is taken away from the end of a text is white space. -/
theorem exists_blanks_trimEnd (t : Text) :
    ∃ blanks : Text, (∀ c ∈ blanks, c.isBlank = true) ∧ t = trimEnd t ++ blanks := by
  refine ⟨(t.reverse.takeWhile CodeUnit.isBlank).reverse, fun c hc => ?_, ?_⟩
  · exact List.mem_takeWhile_imp (List.mem_reverse.mp hc)
  · rw [trimEnd, ← List.reverse_append, List.takeWhile_append_dropWhile, List.reverse_reverse]

/-- All white space at the end of a text is taken away. -/
theorem trimEnd_append {blanks : Text} (ht : ∀ c ∈ t.getLast?, c.isBlank = false)
    (hblanks : ∀ c ∈ blanks, c.isBlank = true) : trimEnd (t ++ blanks) = t := by
  have hdrop : (t ++ blanks).reverse.dropWhile CodeUnit.isBlank = t.reverse := by
    rw [List.reverse_append]
    refine (span_append (fun c hc => hblanks c (List.mem_reverse.mp hc)) fun c hc => ?_).2
    rw [List.head?_reverse] at hc
    exact ht c hc
  rw [trimEnd, hdrop, List.reverse_reverse]

theorem trimEnd_of_last (ht : ∀ c ∈ t.getLast?, c.isBlank = false) : trimEnd t = t := by
  have htrim := @trimEnd_append t [] ht nofun
  rwa [List.append_nil] at htrim

theorem words_trimEnd (t : Text) : words (trimEnd t) = words t := by
  obtain ⟨back, hblank, ht⟩ := exists_blanks_trimEnd t
  cases back with
  | nil => rw [← List.append_nil (trimEnd t), ← ht]
  | cons c back =>
      obtain ⟨hc, hrest⟩ := List.forall_mem_cons.mp hblank
      have hsplit := words_append_cons (trimEnd t) back hc
      rwa [← ht, words_of_blank hrest, List.append_nil, eq_comm] at hsplit

theorem words_trim (t : Text) : words (trim t) = words t := by
  rw [trim, words_trimEnd, words_trimStart]

end Text
end Scopewright
