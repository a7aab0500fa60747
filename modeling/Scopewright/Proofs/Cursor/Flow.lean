import Mathlib.Data.Int.Notation
import Mathlib.Data.List.Induction
import Scopewright.Cursor.Yaml

/-! # Reading a flow sequence

The text of a flow sequence is read unit by unit, by brackets and commas alone
(`Cursor.Yaml.Parted.read`).  So its place is the number of commas that stand in no further brackets
(`Cursor.Yaml.looseCommas`), in a quoted string or not, and what is typed last begins behind the
last of them (`Cursor.Yaml.exists_flowItem`). -/

namespace Scopewright
namespace Cursor
namespace Yaml

open Scopewright.Yaml

/-! ### Brackets and commas -/

/-- How many more brackets a text opens than it closes. -/
def balance (t : Text) : ℤ := t.count (CodeUnit.ofBasic '[') - t.count (CodeUnit.ofBasic ']')

/-- The number of commas in a text that stand in no brackets, when the text itself begins in so many
of them. -/
def looseCommas : ℤ → Text → ℕ
  | _, [] => 0
  | level, c :: r =>
    (if c = ',' ∧ level = 0 then 1 else 0) + looseCommas (level + balance [c]) r

theorem balance_append (s t : Text) : balance (s ++ t) = balance s + balance t := by
  simp only [balance, List.count_append]
  omega

theorem balance_cons (c : CodeUnit) (t : Text) : balance (c :: t) = balance [c] + balance t :=
  balance_append [c] t

theorem looseCommas_append (level : ℤ) (s t : Text) :
    looseCommas level (s ++ t) = looseCommas level s + looseCommas (level + balance s) t := by
  induction s generalizing level with
  | nil =>
      show looseCommas level t = 0 + looseCommas (level + 0) t
      rw [Int.add_zero, Nat.zero_add]
  | cons c s ih =>
      rw [List.cons_append, looseCommas, looseCommas, ih, balance_cons c s, Int.add_assoc,
        Nat.add_assoc]

theorem looseCommas_concat (level : ℤ) (t : Text) (c : CodeUnit) :
    looseCommas level (t ++ [c]) =
      looseCommas level t + (if c = ',' ∧ level + balance t = 0 then 1 else 0) := by
  rw [looseCommas_append, looseCommas, looseCommas, Nat.add_zero]

theorem balance_comma : balance [CodeUnit.ofBasic ','] = 0 := rfl

/-- The text is empty, or ends with a comma that stands in no brackets. -/
def EndsItem (t : Text) : Prop := t = [] ∨ ∃ s, t = s ++ [CodeUnit.ofBasic ','] ∧ balance s = 0

/-- The text of a flow sequence behind its first bracket, parted behind the last comma that stands
in no further brackets. -/
structure Parted (t items last : Text) : Prop where
  eq_append : t = items ++ last
  endsItem : EndsItem items
  noComma : looseCommas (balance items) last = 0

theorem EndsItem.balance_eq_zero {t : Text} (h : EndsItem t) : balance t = 0 := by
  rcases h with rfl | ⟨s, rfl, hs⟩
  · rfl
  · rw [balance_append, hs]
    rfl

/-- A text does not go on to the end of an item without a comma. -/
theorem EndsItem.eq_nil {s t rest : Text} (h : EndsItem (s ++ t))
    (hnone : looseCommas (balance s) (t ++ rest) = 0) : t = [] := by
  rcases List.eq_nil_or_concat t with hnil | ⟨u, c, hu⟩
  · exact hnil
  · rw [List.concat_eq_append] at hu
    subst hu
    rcases h with hnil | ⟨v, hv, hbalance⟩
    · simp at hnil
    · rw [← List.append_assoc] at hv
      obtain ⟨rfl, hcomma⟩ := List.append_inj' hv rfl
      obtain rfl := List.singleton_inj.mp hcomma
      rw [balance_append] at hbalance
      rw [looseCommas_append, looseCommas_concat, hbalance, if_pos ⟨rfl, rfl⟩] at hnone
      omega

/-- There is only one way to part a text. -/
theorem Parted.unique {t items items' last last' : Text} (h : Parted t items last)
    (h' : Parted t items' last') : items = items' ∧ last = last' := by
  have happend := h.eq_append.symm.trans h'.eq_append
  rcases List.append_eq_append_iff.mp happend with ⟨more, rfl, rfl⟩ | ⟨more, rfl, rfl⟩
  · obtain rfl := EndsItem.eq_nil h'.endsItem h.noComma
    exact ⟨(List.append_nil _).symm, rfl⟩
  · obtain rfl := EndsItem.eq_nil h.endsItem h'.noComma
    exact ⟨List.append_nil _, rfl⟩

theorem Parted.looseCommas_eq {t items last : Text} (h : Parted t items last) :
    looseCommas 0 t = looseCommas 0 items := by
  rw [h.eq_append, looseCommas_append, Int.zero_add, h.noComma, Nat.add_zero]

/-! ### Reading -/

/-- What has been read of a flow sequence behind its first bracket. -/
structure Reads (t : Text) (f : Flow) : Prop where
  depth : f.depth = 1 + balance t
  commas : f.commas = looseCommas 0 t
  next : f.next = t.length + 1
  itemStart : ∃ items last, Parted t items last ∧ f.itemStart = items.length + 1

/-- One more unit is read. -/
theorem Reads.read {t : Text} {f : Flow} (h : Reads t f) (c : CodeUnit) :
    Reads (t ++ [c]) (f.read c) := by
  obtain ⟨hdepth, hcommas, hnext, items, last, hparted, hstart⟩ := h
  have hlength : f.next + 1 = (t ++ [c]).length + 1 := by
    rw [hnext, List.length_append]
    rfl
  by_cases hcomma : c = ',' ∧ balance t = 0
  · obtain ⟨rfl, hbalance⟩ := hcomma
    have hone : f.depth = 1 := by rw [hdepth, hbalance]; rfl
    have hread : f.read (CodeUnit.ofBasic ',') =
        ⟨f.depth, f.commas + 1, f.next + 1, f.next + 1⟩ := by
      rw [Flow.read, if_neg (by decide), if_neg (by decide), if_pos ⟨rfl, hone⟩]
    have hends : EndsItem (t ++ [CodeUnit.ofBasic ',']) := .inr ⟨t, rfl, hbalance⟩
    rw [hread]
    refine ⟨?_, ?_, hlength, _, [], ⟨(List.append_nil _).symm, hends, rfl⟩, hlength⟩
    · rw [hends.balance_eq_zero]
      exact hone
    · rw [looseCommas_concat, Int.zero_add, if_pos ⟨rfl, hbalance⟩, hcommas]
  · have hparted' : Parted (t ++ [c]) items (last ++ [c]) := by
      refine ⟨?_, hparted.endsItem, ?_⟩
      · rw [hparted.eq_append, List.append_assoc]
      · rw [looseCommas_concat, hparted.noComma, ← balance_append, ← hparted.eq_append,
          if_neg hcomma]
    have hloose : looseCommas 0 (t ++ [c]) = f.commas := by
      rw [looseCommas_concat, Int.zero_add, if_neg hcomma, hcommas]
      rfl
    have hbalance : balance (t ++ [c]) = balance t + balance [c] := balance_append t [c]
    by_cases hopen : c = '['
    · subst hopen
      rw [Flow.read, if_pos rfl]
      refine ⟨?_, hloose.symm, hlength, items, _, hparted', hstart⟩
      show f.depth + 1 = 1 + balance (t ++ [_])
      have hone : balance [CodeUnit.ofBasic '['] = 1 := rfl
      omega
    by_cases hclose : c = ']'
    · subst hclose
      rw [Flow.read, if_neg hopen, if_pos rfl]
      refine ⟨?_, hloose.symm, hlength, items, _, hparted', hstart⟩
      show f.depth - 1 = 1 + balance (t ++ [_])
      have hone : balance [CodeUnit.ofBasic ']'] = -1 := rfl
      omega
    have hnone : ¬ (c = ',' ∧ f.depth = 1) := fun hc => hcomma ⟨hc.1, by omega⟩
    have hzero : balance [c] = 0 := by
      rw [balance, List.count_singleton, List.count_singleton]
      simp [hopen, hclose]
    rw [Flow.read, if_neg hopen, if_neg hclose, if_neg hnone]
    refine ⟨?_, hloose.symm, hlength, items, _, hparted', hstart⟩
    show f.depth = 1 + balance (t ++ [c])
    omega

/-- A whole text is read. -/
theorem reads_foldl (t : Text) : Reads t (t.foldl Flow.read ⟨1, 0, 1, 1⟩) := by
  induction t using List.reverseRecOn with
  | nil => exact ⟨rfl, rfl, rfl, [], [], ⟨rfl, .inl rfl, rfl⟩, rfl⟩
  | append_singleton t c ih =>
      rw [List.foldl_append]
      exact ih.read c

/-- The place of the item being typed is the number of commas in no further brackets, and it begins
behind the last of them. -/
theorem exists_flowItem (t : Text) : ∃ items last, Parted t items last ∧
    flowItem? (CodeUnit.ofBasic '[' :: t) =
      if 0 < 1 + balance t then some (looseCommas 0 t, items.length + 1) else none := by
  obtain ⟨hdepth, hcommas, _, items, last, hparted, hstart⟩ := reads_foldl t
  refine ⟨items, last, hparted, ?_⟩
  have hfirst : (CodeUnit.ofBasic '[' :: t).foldl Flow.read ⟨0, 0, 0, 1⟩ =
      t.foldl Flow.read ⟨1, 0, 1, 1⟩ := rfl
  rw [flowItem?, if_pos List.head?_cons, hfirst]
  simp only [hdepth, hcommas, hstart]

end Yaml
end Cursor
end Scopewright
