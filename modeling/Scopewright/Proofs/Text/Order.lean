import Mathlib.Data.List.Nodup
import Scopewright.Text.Basic

/-! # The order of texts

The order by units is linear (`Text.le_iff`), so a sorted list without a text that is equal to the
one before it is strictly increasing (`Text.sortUnique_pairwise`), and holds the same texts
(`Text.mem_sortUnique`).  Two lists give the same one when they have the same members
(`Text.sortUnique_eq_iff`). -/

namespace Scopewright

namespace CodeUnit

instance : Std.IsLinearOrder CodeUnit where
  le_refl c := UInt16.le_refl c.code
  le_trans _ _ _ := UInt16.le_trans
  le_antisymm c d hcd hdc := by
    cases c
    cases d
    exact congrArg CodeUnit.mk (UInt16.le_antisymm hcd hdc)
  le_total c d := UInt16.le_total c.code d.code

instance : Std.LawfulOrderLT CodeUnit where
  lt_iff c d := Std.LawfulOrderLT.lt_iff c.code d.code

end CodeUnit

namespace Text

theorem le_iff {a b : Text} : le a b = true ↔ a ≤ b := by
  rw [le, Bool.not_eq_true', decide_eq_false_iff_not]
  exact List.not_lt

theorem le_trans {a b c : Text} (hab : le a b = true) (hbc : le b c = true) : le a c = true :=
  le_iff.mpr (List.le_trans (le_iff.mp hab) (le_iff.mp hbc))

theorem le_total (a b : Text) : (le a b || le b a) = true := by
  rw [Bool.or_eq_true, le_iff, le_iff]
  exact List.le_total a b

theorem le_antisymm {a b : Text} (hab : le a b = true) (hba : le b a = true) : a = b :=
  List.le_antisymm (le_iff.mp hab) (le_iff.mp hba)

theorem lt_iff {a b : Text} : a < b ↔ le a b = true ∧ a ≠ b := by
  rw [le_iff, List.le_iff_lt_or_eq]
  constructor
  · intro h
    refine ⟨.inl h, ?_⟩
    rintro rfl
    exact List.lt_irrefl a h
  · rintro ⟨h | h, hne⟩
    · exact h
    · exact absurd h hne

theorem sort_pairwise (ts : List Text) : (sort ts).Pairwise (le · ·) :=
  @List.pairwise_mergeSort Text le (fun _ _ _ => le_trans) le_total ts

theorem mem_dropRepeated {t : Text} (ts : List Text) : t ∈ dropRepeated ts ↔ t ∈ ts := by
  fun_induction dropRepeated ts with
  | case1 => exact Iff.rfl
  | case2 u => exact Iff.rfl
  | case3 u ts ih => simp only [ih, List.mem_cons, or_self_left]
  | case4 u v ts _ ih => rw [List.mem_cons, ih, ← List.mem_cons]

/-- In a sorted list a text that is not equal to the next one does not come again. -/
theorem dropRepeated_nodup {ts : List Text} (h : ts.Pairwise (le · ·)) :
    (dropRepeated ts).Nodup := by
  fun_induction dropRepeated ts with
  | case1 => exact List.nodup_nil
  | case2 t => exact List.nodup_singleton t
  | case3 t ts ih => exact ih (List.pairwise_cons.mp h).2
  | case4 t u ts hne ih =>
      obtain ⟨ht, hts⟩ := List.pairwise_cons.mp h
      refine List.nodup_cons.mpr ⟨fun hmem => hne ?_, ih hts⟩
      have htu : le t u = true := ht u List.mem_cons_self
      rcases List.mem_cons.mp ((mem_dropRepeated _).mp hmem) with rfl | hmem
      · rfl
      · exact le_antisymm htu ((List.pairwise_cons.mp hts).1 t hmem)

theorem mem_sortUnique {t : Text} {ts : List Text} : t ∈ sortUnique ts ↔ t ∈ ts := by
  rw [sortUnique, mem_dropRepeated, sort, List.mem_mergeSort]

theorem sortUnique_nodup (ts : List Text) : (sortUnique ts).Nodup :=
  dropRepeated_nodup (sort_pairwise ts)

theorem dropRepeated_sublist (ts : List Text) : (dropRepeated ts).Sublist ts := by
  fun_induction dropRepeated ts with
  | case1 => exact List.Sublist.refl _
  | case2 t => exact List.Sublist.refl _
  | case3 t ts ih => exact ih.cons _
  | case4 t u ts _ ih => exact ih.cons_cons _

theorem sortUnique_sorted (ts : List Text) : (sortUnique ts).Pairwise (le · ·) :=
  (sort_pairwise ts).sublist (dropRepeated_sublist _)

/-- Without repetitions the order is strict. -/
theorem sortUnique_pairwise (ts : List Text) : (sortUnique ts).Pairwise (· < ·) :=
  ((sortUnique_sorted ts).and (sortUnique_nodup ts)).imp lt_iff.mpr

/-- What is left of a list depends on its members only. -/
theorem sortUnique_eq_iff {ts us : List Text} :
    sortUnique ts = sortUnique us ↔ ∀ t, t ∈ ts ↔ t ∈ us := by
  constructor
  · intro h t
    rw [← mem_sortUnique, h, mem_sortUnique]
  · intro h
    refine List.Perm.eq_of_pairwise (fun _ _ _ _ => le_antisymm) (sortUnique_sorted ts)
      (sortUnique_sorted us) ?_
    refine (List.perm_ext_iff_of_nodup (sortUnique_nodup ts) (sortUnique_nodup us)).mpr fun t => ?_
    rw [mem_sortUnique, mem_sortUnique, h]

end Text
end Scopewright
