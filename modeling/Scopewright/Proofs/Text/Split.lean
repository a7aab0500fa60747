import Mathlib.Data.List.Basic
import Scopewright.Text.Basic

/-! # Lines joined and split

A text of joined lines is split into the same lines (`Text.splitOn_join`), the first of them stand
at its front (`Text.join_append_prefix`) and the last one at its end (`Text.suffix_join_concat`).
The lines that a text is split into are joined to the same text (`Text.join_splitOn`). -/

namespace Scopewright
namespace Text

variable {c : CodeUnit}

theorem splitOn_of_notMem {p : Text} (h : c ∉ p) : splitOn c p = [p] := by
  induction p with
  | nil => rfl
  | cons d p ih =>
      rw [List.mem_cons, not_or] at h
      rw [splitOn, if_neg (fun hd => h.1 hd.symm), ih h.2]

theorem splitOn_append {p : Text} (h : c ∉ p) (t : Text) :
    splitOn c (p ++ c :: t) = p :: splitOn c t := by
  induction p with
  | nil => rw [List.nil_append, splitOn, if_pos rfl]
  | cons d p ih =>
      rw [List.mem_cons, not_or] at h
      rw [List.cons_append, splitOn, if_neg (fun hd => h.1 hd.symm), ih h.2]

theorem splitOn_ne_nil (t : Text) : splitOn c t ≠ [] := by
  cases t with
  | nil => exact List.cons_ne_nil _ _
  | cons d r =>
      rw [splitOn]
      split
      · exact List.cons_ne_nil _ _
      · split <;> exact List.cons_ne_nil _ _

theorem splitOn_append_cons (s t : Text) :
    splitOn c (s ++ c :: t) = splitOn c s ++ splitOn c t := by
  induction s with
  | nil => exact if_pos rfl
  | cons d s ih =>
      rw [List.cons_append, splitOn, splitOn, ih]
      split
      · rw [List.cons_append]
      · cases hparts : splitOn c s with
        | nil => exact absurd hparts (splitOn_ne_nil s)
        | cons p ps => rfl

/-- What is put behind a text without a break goes on the last line. -/
theorem splitOn_append_last {s t : Text} (hs : c ∉ s) {lines : List Text} {line : Text}
    (ht : splitOn c t = lines ++ [line]) : splitOn c (t ++ s) = lines ++ [line ++ s] := by
  induction t generalizing lines line with
  | nil =>
      obtain ⟨rfl, hline⟩ := List.append_inj' (show [] ++ [[]] = lines ++ [line] from ht) rfl
      obtain rfl := List.singleton_inj.mp hline
      exact splitOn_of_notMem hs
  | cons d r ih =>
      rw [splitOn] at ht
      rw [List.cons_append, splitOn]
      split at ht
      · rename_i hd
        rw [if_pos hd]
        cases lines with
        | nil => exact absurd (List.cons.inj ht).2 (splitOn_ne_nil r)
        | cons first lines =>
            obtain ⟨rfl, hrest⟩ := List.cons.inj ht
            rw [ih hrest, List.cons_append]
      · rename_i hd
        rw [if_neg hd]
        rcases List.eq_nil_or_concat (splitOn c r) with hnil | ⟨before, last, hr⟩
        · exact absurd hnil (splitOn_ne_nil r)
        rw [List.concat_eq_append] at hr
        rw [hr] at ht
        rw [ih hr]
        cases before with
        | nil =>
            obtain ⟨rfl, hline⟩ := List.append_inj'
              (show [] ++ [d :: last] = lines ++ [line] from ht) rfl
            obtain rfl := List.singleton_inj.mp hline
            rfl
        | cons first before =>
            obtain ⟨rfl, hline⟩ := List.append_inj'
              (show (d :: first) :: before ++ [last] = lines ++ [line] from ht) rfl
            obtain rfl := List.singleton_inj.mp hline
            rfl

/-- The lines of a text are written with its units. -/
theorem mem_of_mem_splitOn {t line : Text} (hline : line ∈ splitOn c t) {d : CodeUnit}
    (hd : d ∈ line) : d ∈ t := by
  induction t generalizing line with
  | nil =>
      rw [List.mem_singleton.mp hline] at hd
      cases hd
  | cons e r ih =>
      obtain ⟨p, ps, hparts⟩ := List.exists_cons_of_ne_nil (splitOn_ne_nil (c := c) r)
      rw [splitOn, hparts] at hline
      rw [hparts] at ih
      split at hline
      · rcases List.mem_cons.mp hline with rfl | hline
        · cases hd
        · exact List.mem_cons_of_mem e (ih hline hd)
      · rcases List.mem_cons.mp hline with rfl | hline
        · rcases List.mem_cons.mp hd with rfl | hd
          · exact List.mem_cons_self
          · exact List.mem_cons_of_mem e (ih List.mem_cons_self hd)
        · exact List.mem_cons_of_mem e (ih (List.mem_cons_of_mem p hline) hd)

theorem join_cons_cons (p q : Text) (ps : List Text) :
    join [c] (p :: q :: ps) = p ++ c :: join [c] (q :: ps) := by
  unfold join
  rw [List.intercalate_cons_cons, List.append_assoc, List.singleton_append]

theorem join_singleton (p : Text) : join [c] [p] = p := List.intercalate_singleton

theorem splitOn_join (p : Text) (ps : List Text) (h : ∀ q ∈ p :: ps, c ∉ q) :
    splitOn c (join [c] (p :: ps)) = p :: ps := by
  induction ps generalizing p with
  | nil => rw [join_singleton, splitOn_of_notMem (h p List.mem_cons_self)]
  | cons q ps ih =>
      rw [join_cons_cons, splitOn_append (h p List.mem_cons_self),
        ih q fun r hr => h r (List.mem_cons_of_mem _ hr)]

theorem join_splitOn (t : Text) : join [c] (splitOn c t) = t := by
  induction t with
  | nil => exact join_singleton []
  | cons d r ih =>
      rw [splitOn]
      cases hparts : splitOn c r with
      | nil => exact absurd hparts (splitOn_ne_nil r)
      | cons p ps =>
          rw [hparts] at ih
          split
          · rename_i hd
            rw [join_cons_cons, ih, hd, List.nil_append]
          · cases ps with
            | nil => rw [join_singleton, ← ih, join_singleton]
            | cons q qs =>
                rw [join_cons_cons] at ih ⊢
                rw [← ih, List.cons_append]

theorem join_append {ps qs : List Text} (hps : ps ≠ []) (hqs : qs ≠ []) :
    join [c] (ps ++ qs) = join [c] ps ++ c :: join [c] qs := by
  induction ps with
  | nil => exact absurd rfl hps
  | cons p ps ih =>
      cases ps with
      | nil =>
          obtain ⟨q, qs, rfl⟩ := List.exists_cons_of_ne_nil hqs
          rw [List.singleton_append, join_cons_cons, join_singleton]
      | cons q ps =>
          rw [List.cons_append, List.cons_append, join_cons_cons, join_cons_cons,
            ← List.cons_append, ih (List.cons_ne_nil q ps), List.append_assoc, List.cons_append]

/-- The last line stands at the end. -/
theorem suffix_join_concat (ps : List Text) (p : Text) : p <:+ join [c] (ps ++ [p]) := by
  induction ps with
  | nil => exact (join_singleton p).symm ▸ List.suffix_refl p
  | cons q qs ih =>
      cases qs with
      | nil =>
          rw [List.singleton_append, join_cons_cons, join_singleton]
          exact (List.suffix_cons c p).trans (List.suffix_append q (c :: p))
      | cons q' qs =>
          rw [List.cons_append, List.cons_append, join_cons_cons]
          exact (ih.trans (List.suffix_cons c _)).trans (List.suffix_append q _)

/-- The first lines stand at the front. -/
theorem join_append_prefix (p : Text) (ps qs : List Text) :
    join [c] (p :: ps) <+: join [c] (p :: ps ++ qs) := by
  induction ps generalizing p with
  | nil =>
      cases qs with
      | nil => exact List.prefix_refl _
      | cons q qs =>
          rw [join_singleton, List.singleton_append, join_cons_cons]
          exact List.prefix_append _ _
  | cons q ps ih =>
      rw [List.cons_append, List.cons_append, join_cons_cons, join_cons_cons,
        List.prefix_append_right_inj, List.cons_prefix_cons]
      exact ⟨rfl, ih q⟩

end Text
end Scopewright
