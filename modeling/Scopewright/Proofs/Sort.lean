import Mathlib.Data.List.Sort

/-! # Sorting and leaving out

Sorting is stable, so it does not matter whether elements are left out of a list before or after it
is sorted (`filter_mergeSort`).  A list that is sorted by keys is known when the elements with each
key are known in their order (`eq_of_filter_key_eq`).

Elements are compared by one key after another (`byKey`).  If the keys are ordered, and the elements
with one key are sorted by the rest, so are all of them (`byKey_trans`, `byKey_total`). -/

namespace Scopewright

open List

variable {α : Type} {le : α → α → Bool}

/-- The part of a sorted list before an element is told by comparing with that element. -/
theorem takeWhile_of_pairwise {a : α} {l₁ l₂ : List α} (hfront : ∀ b, b ∈ l₁ → !le a b)
    (h : (l₁ ++ a :: l₂).Pairwise (le · ·)) : (l₁ ++ l₂).takeWhile (fun b => !le a b) = l₁ := by
  rw [takeWhile_append_of_pos hfront]
  have hback : ∀ b ∈ l₂, le a b := (pairwise_cons.mp (pairwise_append.mp h).2.1).1
  cases l₂ with
  | nil => rw [takeWhile_nil, append_nil]
  | cons b l₂ =>
      rw [takeWhile_cons_of_neg (by simp [hback b mem_cons_self]), append_nil]

/-- Leaving elements out of a list and sorting it can be done in either order. -/
theorem filter_mergeSort (trans : ∀ a b c, le a b → le b c → le a c)
    (total : ∀ a b, le a b || le b a) (p : α → Bool) (l : List α) :
    (l.mergeSort le).filter p = (l.filter p).mergeSort le := by
  induction l with
  | nil => simp
  | cons a l ih =>
      obtain ⟨l₁, l₂, hsort, hrest, hfront⟩ := mergeSort_cons trans total a l
      have hsorted := pairwise_mergeSort trans total (a :: l)
      rw [hsort] at hsorted
      rw [hrest, filter_append] at ih
      by_cases hp : p a = true
      · obtain ⟨m₁, m₂, hsort', hrest', hfront'⟩ := mergeSort_cons trans total a (l.filter p)
        have hsorted' := pairwise_mergeSort trans total (a :: l.filter p)
        rw [hsort'] at hsorted'
        have hfilter := hsorted.filter p
        rw [filter_append, filter_cons_of_pos hp] at hfilter
        -- both are what is less than `a` in one sorted list
        have hm : l₁.filter p = m₁ := by
          rw [← takeWhile_of_pairwise (fun b hb => hfront b (mem_filter.mp hb).1) hfilter,
            ← takeWhile_of_pairwise hfront' hsorted', ih, hrest']
        rw [hrest', hm] at ih
        rw [hsort, filter_append, filter_cons_of_pos hp, filter_cons_of_pos hp, hsort', hm,
          append_cancel_left ih]
      · rw [hsort, filter_append, filter_cons_of_neg hp, filter_cons_of_neg hp, ih]

/-- In sorted lists the elements with one key stand together. -/
theorem eq_of_filter_key_eq {κ : Type} [DecidableEq κ] (key : α → κ) {r : κ → κ → Prop}
    (antisymm : ∀ {a b}, r a b → r b a → a = b) : ∀ {l m : List α},
    l.Pairwise (fun a b => r (key a) (key b)) → m.Pairwise (fun a b => r (key a) (key b)) →
    (∀ k, l.filter (fun a => decide (key a = k)) = m.filter fun a => decide (key a = k)) → l = m
  | [], [], _, _, _ => rfl
  | [], b :: m, _, _, h => by
      have hb := h (key b)
      rw [filter_nil, filter_cons_of_pos (by simp)] at hb
      cases hb
  | a :: l, [], _, _, h => by
      have ha := h (key a)
      rw [filter_nil, filter_cons_of_pos (by simp)] at ha
      cases ha
  | a :: l, b :: m, hl, hm, h => by
      obtain ⟨hal, htl⟩ := pairwise_cons.mp hl
      obtain ⟨hbm, htm⟩ := pairwise_cons.mp hm
      have hamem : a ∈ b :: m := by
        have ha : a ∈ (a :: l).filter fun c => decide (key c = key a) := by simp
        rw [h] at ha
        exact mem_of_mem_filter ha
      have hbmem : b ∈ a :: l := by
        have hb : b ∈ (b :: m).filter fun c => decide (key c = key b) := by simp
        rw [← h] at hb
        exact mem_of_mem_filter hb
      have hkey : key a = key b := by
        rcases mem_cons.mp hamem with rfl | ham
        · rfl
        · rcases mem_cons.mp hbmem with rfl | hbl
          · rfl
          · exact antisymm (hal b hbl) (hbm a ham)
      have hhead := h (key a)
      rw [filter_cons_of_pos (by simp), filter_cons_of_pos (by simp [hkey])] at hhead
      obtain ⟨rfl, _⟩ := cons.inj hhead
      refine congrArg (a :: ·) (eq_of_filter_key_eq key antisymm htl htm fun k => ?_)
      have hk := h k
      by_cases ha : key a = k
      · rw [filter_cons_of_pos (by simpa using ha), filter_cons_of_pos (by simpa using ha)] at hk
        exact (cons.inj hk).2
      · rwa [filter_cons_of_neg (by simpa using ha), filter_cons_of_neg (by simpa using ha)] at hk

/-! ### One key after another -/

section byKey

variable {κ : Type} [DecidableEq κ] {key : α → κ} {r : κ → κ → Bool} {rest : α → α → Bool}

/-- By a key, and by the rest among elements with one key. -/
def byKey (key : α → κ) (r : κ → κ → Bool) (rest : α → α → Bool) (a b : α) : Bool :=
  if key a = key b then rest a b else r (key a) (key b)

theorem byKey_trans (antisymm : ∀ x y, r x y → r y x → x = y)
    (trans : ∀ x y z, r x y → r y z → r x z) (hrest : ∀ a b c, rest a b → rest b c → rest a c) :
    ∀ a b c, byKey key r rest a b → byKey key r rest b c → byKey key r rest a c := by
  intro a b c hab hbc
  unfold byKey at *
  by_cases hkab : key a = key b
  · rw [if_pos hkab] at hab
    by_cases hkbc : key b = key c
    · rw [if_pos hkbc] at hbc
      rw [if_pos (hkab.trans hkbc)]
      exact hrest a b c hab hbc
    · rw [if_neg hkbc] at hbc
      rwa [if_neg (hkab ▸ hkbc), hkab]
  · rw [if_neg hkab] at hab
    by_cases hkbc : key b = key c
    · rwa [if_neg (hkbc ▸ hkab), ← hkbc]
    · rw [if_neg hkbc] at hbc
      have hkac : key a ≠ key c := fun h => hkab (antisymm _ _ hab (h ▸ hbc))
      rw [if_neg hkac]
      exact trans _ _ _ hab hbc

theorem byKey_total (total : ∀ x y, x ≠ y → r x y || r y x) (hrest : ∀ a b, rest a b || rest b a) :
    ∀ a b, byKey key r rest a b || byKey key r rest b a := by
  intro a b
  unfold byKey
  by_cases hkey : key a = key b
  · rw [if_pos hkey, if_pos hkey.symm]
    exact hrest a b
  · rw [if_neg hkey, if_neg (Ne.symm hkey)]
    exact total _ _ hkey

end byKey

end Scopewright
