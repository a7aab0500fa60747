import Mathlib.Data.List.Infix
import Mathlib.Data.List.TakeWhile
import Scopewright.Text.Basic

/-! # Searching in the front of a text

What is found in a text stands there and is the first of its kind (`Text.find_isPrefix`,
`Text.exists_find`).  It is found as well when the text is cut off behind it
(`Text.find_of_isPrefix`), and is not when the text is cut off before (`Text.find_eq_none`). -/

namespace Scopewright
namespace Text

variable {s t needle : Text} {k : ℕ}

theorem findIdx_of_isPrefix {p : CodeUnit → Bool} (hs : s <+: t) (h : t.findIdx? p = some k)
    (hk : k < s.length) : s.findIdx? p = some k := by
  obtain ⟨rest, rfl⟩ := hs
  rw [List.findIdx?_append] at h
  cases hfound : s.findIdx? p with
  | some j => rwa [hfound, Option.some_or] at h
  | none =>
      rw [hfound, Option.none_or] at h
      obtain ⟨j, -, rfl⟩ := Option.map_eq_some_iff.mp h
      omega

theorem findIdx_lt {p : CodeUnit → Bool} (h : t.findIdx? p = some k) : k < t.length :=
  (List.findIdx?_eq_some_iff_getElem.mp h).1

theorem takeWhile_of_isPrefix {p : CodeUnit → Bool} (hs : s <+: t)
    (h : (t.takeWhile p).length < s.length) : s.takeWhile p = t.takeWhile p := by
  obtain ⟨rest, rfl⟩ := hs
  rw [List.takeWhile_append] at h ⊢
  split
  · rename_i hall
    rw [if_pos hall, List.length_append] at h
    omega
  · rfl

/-- What is left begins with a unit that is not taken away. -/
theorem head_dropWhile (p : CodeUnit → Bool) (t : Text) :
    ∀ c ∈ (t.dropWhile p).head?, p c = false := by
  intro c hc
  have hdrop := List.head?_dropWhile_not p t
  rw [Option.mem_def.mp hc] at hdrop
  simpa using hdrop

/-- Units of a class are told from what stands behind them and does not begin with one. -/
theorem span_append {p : CodeUnit → Bool} {w rest : Text} (hw : ∀ c ∈ w, p c = true)
    (hrest : ∀ c ∈ rest.head?, p c = false) :
    (w ++ rest).takeWhile p = w ∧ (w ++ rest).dropWhile p = rest := by
  rw [List.takeWhile_append_of_pos hw, List.dropWhile_append_of_pos hw]
  cases rest with
  | nil => exact ⟨List.append_nil _, rfl⟩
  | cons c r =>
      have hc : ¬ p c = true := by rw [hrest c rfl]; exact nofun
      rw [List.takeWhile_cons_of_neg hc, List.dropWhile_cons_of_neg hc, List.append_nil]
      exact ⟨rfl, rfl⟩

theorem contains_iff {c : CodeUnit} : t.contains c = true ↔ c ∈ t := by
  simp only [contains, List.any_eq_true, decide_eq_true_eq, exists_eq_right]

theorem has_iff : has needle t = true ↔ needle <:+: t := by
  induction t with
  | nil => rw [has, List.isEmpty_iff, List.infix_nil]
  | cons c r ih =>
      rw [has, Bool.or_eq_true, List.isPrefixOf_iff_prefix, ih, List.infix_cons_iff]

/-- What is found stands there. -/
theorem find_isPrefix (h : find? needle t = some k) : needle <+: t.drop k := by
  induction t generalizing k with
  | nil =>
      rw [find?] at h
      obtain ⟨hneedle, -⟩ := Option.ite_none_right_eq_some.mp h
      rw [List.isEmpty_iff.mp hneedle]
      exact List.nil_prefix
  | cons c r ih =>
      rw [find?] at h
      split at h
      · rename_i hhere
        rw [← Option.some.inj h]
        exact List.isPrefixOf_iff_prefix.mp hhere
      · obtain ⟨j, hj, rfl⟩ := Option.map_eq_some_iff.mp h
        exact ih hj

/-- What stands in a text is found there or in front of it. -/
theorem exists_find (h : needle <+: t.drop k) : ∃ j ≤ k, find? needle t = some j := by
  induction t generalizing k with
  | nil =>
      rw [List.drop_nil, List.prefix_nil] at h
      subst h
      exact ⟨0, Nat.zero_le k, rfl⟩
  | cons c r ih =>
      rw [find?]
      by_cases hhere : needle.isPrefixOf (c :: r) = true
      · exact ⟨0, Nat.zero_le k, if_pos hhere⟩
      · cases k with
        | zero => exact absurd (List.isPrefixOf_iff_prefix.mpr h) hhere
        | succ k =>
            obtain ⟨j, hj, hfound⟩ := ih h
            exact ⟨j + 1, Nat.succ_le_succ hj, by rw [if_neg hhere, hfound]; rfl⟩

/-- Nothing is found in front of the first place. -/
theorem le_of_find (h : find? needle t = some k) {j : ℕ} (hj : needle <+: t.drop j) : k ≤ j := by
  obtain ⟨i, hi, hfound⟩ := exists_find hj
  rw [h] at hfound
  exact Option.some.inj hfound ▸ hi

theorem find_length_le (hneedle : needle ≠ []) (h : find? needle t = some k) :
    k + needle.length ≤ t.length := by
  have hlength := (find_isPrefix h).length_le
  have hpos := List.length_pos_iff.mpr hneedle
  rw [List.length_drop] at hlength
  omega

theorem find_of_isPrefix (hs : s <+: t) (h : find? needle t = some k)
    (hk : k + needle.length ≤ s.length) : find? needle s = some k := by
  have hneedle : needle <+: s.drop k := by
    refine List.prefix_of_prefix_length_le (find_isPrefix h) (hs.drop k) ?_
    rw [List.length_drop]
    omega
  obtain ⟨j, hj, hfound⟩ := exists_find hneedle
  have hle := le_of_find h ((find_isPrefix hfound).trans (hs.drop j))
  rw [hfound, Nat.le_antisymm hj hle]

theorem find_eq_none (hneedle : needle ≠ []) (hs : s <+: t) (h : find? needle t = some k)
    (hk : s.length < k + needle.length) : find? needle s = none := by
  cases hfound : find? needle s with
  | none => rfl
  | some j =>
      have hlength := find_length_le hneedle hfound
      have hle := le_of_find h ((find_isPrefix hfound).trans (hs.drop j))
      omega

end Text
end Scopewright
