import Scopewright.Cursor.Yaml
import Scopewright.Proofs.Block.Tree

/-! # Walking up over the lines of blocks

What one line does to the walk up (`Cursor.Yaml.climb`) and to the counting of items
(`Cursor.Yaml.itemsAbove`).  The lines of a block are passed over by whoever looks for its owner
(`climb_under`), and the items among them are counted (`itemsAbove_under`). -/

namespace Scopewright
namespace Block

open Yaml Cursor.Yaml

/-- What is looked for by a block at a column. -/
def Kind.need (col : ℕ) : Kind → Need
  | .mapping => ⟨true, col⟩
  | .sequence => ⟨false, col⟩

theorem Kind.col_need (m : Kind) (col : ℕ) : (m.need col).col = col := by
  cases m with
  | mapping => rfl
  | sequence => rfl

/-- The entry may own what is needed. -/
def owns (n : Need) (e : LineEntry) : Bool := decide (e.col < n.col) || ownsCompactly n e

/-- Some lines of a block under other lines; the nearest line comes first. -/
def under (lines : List Text) (rs : List Row) : List Text := (rs.map Row.text).reverse ++ lines

theorem under_nil (lines : List Text) : under lines [] = lines := rfl

theorem under_cons (lines : List Text) (r : Row) (rs : List Row) :
    under lines (r :: rs) = under (r.text :: lines) rs := by
  simp only [under, List.map_cons, List.reverse_cons, List.append_assoc, List.singleton_append]

theorem under_append (lines : List Text) (rs rs' : List Row) :
    under lines (rs ++ rs') = under (under lines rs) rs' := by
  simp only [under, List.map_append, List.reverse_append, List.append_assoc]

theorem under_concat (lines : List Text) (rs : List Row) (r : Row) :
    under lines (rs ++ [r]) = r.text :: under lines rs := by
  rw [under_append]
  rfl

/-! ### Owners -/

theorem Row.Beyond.owns_eq_false {m : Kind} {col : ℕ} {r : Row} (h : r.Beyond m col)
    {e : LineEntry} (he : e ∈ r.entries) : owns (m.need col) e = false := by
  obtain ⟨hcol, hdash⟩ := h e he
  cases m with
  | mapping =>
      have hlt : ¬ e.col < col := by omega
      cases e <;> simp [owns, Kind.need, ownsCompactly, hlt]
  | sequence =>
      have hlt : ¬ e.col < col := by omega
      cases e with
      | dash d => simp [owns, Kind.need, ownsCompactly, hlt]
      | key d name hasValue blockScalar =>
          have hne : d ≠ col := by
            intro hd
            cases hdash rfl hd
          simp [owns, Kind.need, ownsCompactly, hlt, hne]

/-- The owner is the last entry that can be one. -/
theorem owner?_append {n : Need} {es es' : List LineEntry} {e : LineEntry} (he : owns n e = true)
    (hes : ∀ e' ∈ es', owns n e' = false) : owner? n (es ++ e :: es') = some e := by
  have hnil : es'.filter (owns n) = [] := by
    refine List.filter_eq_nil_iff.mpr fun e' h => ?_
    rw [hes e' h]
    exact Bool.false_ne_true
  show ((es ++ e :: es').filter (owns n)).getLast? = some e
  rw [List.filter_append, List.filter_cons_of_pos he, hnil, List.getLast?_append]
  rfl

theorem owner?_eq_none {n : Need} {es : List LineEntry} (hes : ∀ e ∈ es, owns n e = false) :
    owner? n es = none := by
  have hnil : es.filter (owns n) = [] := by
    refine List.filter_eq_nil_iff.mpr fun e h => ?_
    rw [hes e h]
    exact Bool.false_ne_true
  show (es.filter (owns n)).getLast? = none
  rw [hnil]
  rfl

/-! ### One line -/

section Walk

variable (before : Text) (offset : ℕ)

theorem climb_zero {n : Need} (hn : n.col = 0) (first : Bool) (f : Found) (lines : List Text) :
    climb before offset n first f lines = f := by
  cases lines with
  | nil => rfl
  | cons line lines => rw [climb, if_pos hn]

/-- A line without an owner is passed over. -/
theorem climb_of_none {n : Need} {r : Row} (h : owner? n r.entries = none) (first : Bool)
    (f : Found) (lines : List Text) :
    climb before offset n first f (r.text :: lines) = climb before offset n first f lines := by
  by_cases hn : n.col = 0
  · rw [climb_zero before offset hn, climb_zero before offset hn]
  · rw [climb, if_neg hn, lineEntries_text, h]

/-- The last dash or key to the left of what is needed is its owner. -/
theorem climb_of_dash {n : Need} {r : Row} {es es' : List LineEntry} {d : ℕ}
    (hr : r.entries = es ++ .dash d :: es') (hd : d < n.col)
    (hes : ∀ e ∈ es', owns n e = false) (first : Bool) (f : Found) (lines : List Text) :
    climb before offset n first f (r.text :: lines) =
      climb before offset (Kind.sequence.need d) false
        { f with path := .index (itemsAbove d lines) :: f.path } lines := by
  have hown : owns n (.dash d) = true := by simp [owns, LineEntry.col, hd]
  rw [climb, if_neg (by omega), lineEntries_text, hr, owner?_append hown hes]
  rfl

theorem climb_of_key {n : Need} {r : Row} {es es' : List LineEntry} {d : ℕ} {name : Text}
    (hr : r.entries = es ++ .key d name false false :: es') (hd : d < n.col)
    (hes : ∀ e ∈ es', owns n e = false) (first : Bool) (f : Found) (lines : List Text) :
    climb before offset n first f (r.text :: lines) =
      climb before offset (Kind.mapping.need d) false
        { f with path := .key name :: f.path } lines := by
  have hown : owns n (.key d name false false) = true := by simp [owns, LineEntry.col, hd]
  rw [climb, if_neg (by omega), lineEntries_text, hr, owner?_append hown hes]
  rfl

/-- A key with a value owns nothing. -/
theorem climb_of_value {n : Need} {r : Row} {es es' : List LineEntry} {d : ℕ} {name : Text}
    (hr : r.entries = es ++ .key d name true false :: es') (hd : d < n.col)
    (hes : ∀ e ∈ es', owns n e = false) (first : Bool) (f : Found) (lines : List Text) :
    (climb before offset n first f (r.text :: lines)).malformed = true := by
  have hown : owns n (.key d name true false) = true := by simp [owns, LineEntry.col, hd]
  rw [climb, if_neg (by omega), lineEntries_text, hr, owner?_append hown hes]
  rfl

/-- The lines of a block are passed over. -/
theorem climb_under {m : Kind} {col : ℕ} (rs : List Row) (h : ∀ r ∈ rs, r.Beyond m col)
    (first : Bool) (f : Found) : ∀ lines : List Text,
    climb before offset (m.need col) first f (under lines rs) =
      climb before offset (m.need col) first f lines := by
  induction rs with
  | nil => exact fun _ => rfl
  | cons r rs ih =>
      intro lines
      have hr := h r List.mem_cons_self
      rw [under_cons, ih fun r' hr' => h r' (List.mem_cons_of_mem _ hr'),
        climb_of_none before offset (owner?_eq_none fun e he => hr.owns_eq_false he)]

end Walk

/-! ### Counting -/

theorem itemsAbove_cons (col : ℕ) (r : Row) (lines : List Text) :
    itemsAbove col (r.text :: lines) =
      if r.entries.any fun e => decide (e.col < col) || e.isKeyAt col then
        (if r.hasDashAt col then 1 else 0)
      else (if r.hasDashAt col then 1 else 0) + itemsAbove col lines := by
  rw [itemsAbove, lineEntries_text]
  rfl

/-- The counting ends at a line with an entry to the left. -/
theorem itemsAbove_of_lt {col : ℕ} {r : Row} {e : LineEntry} (he : e ∈ r.entries)
    (hlt : e.col < col) (lines : List Text) :
    itemsAbove col (r.text :: lines) = if r.hasDashAt col then 1 else 0 := by
  rw [itemsAbove_cons, if_pos]
  exact List.any_eq_true.mpr ⟨e, he, by simp [hlt]⟩

/-- Nothing is counted in the columns behind a key without a value. -/
theorem itemsAbove_of_key {r : Row} {cols : List ℕ} {col c : ℕ} {name : Text}
    (hr : r.entries = cols.map .dash ++ [.key col name false false])
    (hcols : ∀ d ∈ cols, d < col) (hc : col < c) (lines : List Text) :
    itemsAbove c (r.text :: lines) = 0 := by
  have hmem : LineEntry.key col name false false ∈ r.entries := by
    rw [hr]
    exact List.mem_append_right _ (List.mem_singleton_self _)
  have hnone : r.hasDashAt c = false := by
    refine List.any_eq_false.mpr fun e he => ?_
    rw [hr] at he
    rcases List.mem_append.mp he with he | he
    · obtain ⟨d, hd, rfl⟩ := List.mem_map.mp he
      have := hcols d hd
      simp only [LineEntry.isDashAt, decide_eq_true_eq]
      omega
    · obtain rfl := List.mem_singleton.mp he
      exact Bool.false_ne_true
  rw [itemsAbove_of_lt hmem hc, hnone]
  rfl

/-- The items of a sequence are counted, line by line. -/
theorem itemsAbove_under {col : ℕ} (rs : List Row) (h : ∀ r ∈ rs, r.Beyond .sequence col) :
    ∀ lines : List Text, itemsAbove col (under lines rs) =
      (rs.filter (Row.hasDashAt col)).length + itemsAbove col lines := by
  induction rs with
  | nil => exact fun lines => (Nat.zero_add _).symm
  | cons r rs ih =>
      intro lines
      have hopen : ¬ (r.entries.any fun e => decide (e.col < col) || e.isKeyAt col) = true := by
        rw [Bool.not_eq_true, List.any_eq_false]
        intro e he
        obtain ⟨hcol, hdash⟩ := h r List.mem_cons_self e he
        have hlt : ¬ e.col < col := by omega
        cases e with
        | dash d => simp [LineEntry.isKeyAt, hlt]
        | key d name hasValue blockScalar =>
            have hne : d ≠ col := by
              intro hd
              cases hdash rfl hd
            simp [LineEntry.isKeyAt, hlt, hne]
      rw [under_cons, ih fun r' hr' => h r' (List.mem_cons_of_mem _ hr'), itemsAbove_cons,
        if_neg hopen, List.filter_cons]
      split
      · rw [List.length_cons]
        omega
      · omega

end Block
end Scopewright
