import Scopewright.Proofs.Block.Row

/-! # Lines moved to the right

What a line opens stands in it from the left to the right (`Yaml.pairwise_lineEntries`).  With
spaces in front, a line of an item opens the same so many columns further right
(`Yaml.InItem.lineEntries_moved`).  Other lines may open more by it: a document mark or a directive
is one at the front of a line only. -/

namespace Scopewright
namespace Yaml

open Block (spaces)

/-- An entry so many columns further right. -/
def LineEntry.moved (k : ℕ) : LineEntry → LineEntry
  | dash col => dash (col + k)
  | key col name hasValue blockScalar => key (col + k) name hasValue blockScalar

theorem LineEntry.col_moved (k : ℕ) (e : LineEntry) : (e.moved k).col = e.col + k := by
  cases e <;> rfl

/-- Dashes so many columns further right. -/
def Dashes.moved (k : ℕ) (d : Dashes) : Dashes :=
  ⟨d.cols.map (· + k), d.contentCol + k, d.content⟩

theorem dashes_moved (k col : ℕ) (t : Text) : dashes (col + k) t = (dashes col t).moved k := by
  fun_induction dashes col t with
  | case1 col => rw [dashes]; rfl
  | case2 col c r hitem rest inner ih =>
      have hcol : ∀ n, col + k + 1 + n = col + 1 + n + k := fun n => by omega
      rw [dashes, if_pos hitem]
      simp only [hcol]
      exact congrArg (fun d : Dashes => Dashes.mk ((col + k) :: d.cols) d.contentCol d.content) ih
  | case3 col c r hitem =>
      rw [dashes, if_neg hitem]
      rfl

theorem keyMember?_moved (k col : ℕ) (content : Text) :
    keyMember? (col + k) content = (keyMember? col content).map (·.moved k) := by
  rw [keyMember?, keyMember?, Option.map_map]
  rfl

/-! ### The order of the entries -/

theorem dashes_order (col : ℕ) (t : Text) :
    (dashes col t).cols.Pairwise (· < ·) ∧ col ≤ (dashes col t).contentCol ∧
      ∀ c ∈ (dashes col t).cols, col ≤ c ∧ c < (dashes col t).contentCol := by
  fun_induction dashes col t with
  | case1 col => exact ⟨.nil, Nat.le_refl _, fun c hc => by cases hc⟩
  | case2 col c r hitem rest inner ih =>
      obtain ⟨hpair, hle, hcols⟩ := ih
      have hlt : col < inner.contentCol := Nat.lt_of_lt_of_le (by omega) hle
      refine ⟨List.pairwise_cons.mpr ⟨fun c hc => ?_, hpair⟩, Nat.le_of_lt hlt, ?_⟩
      · exact Nat.lt_of_lt_of_le (by omega) (hcols c hc).1
      · intro c hc
        rcases List.mem_cons.mp hc with rfl | hc
        · exact ⟨Nat.le_refl _, hlt⟩
        · exact ⟨Nat.le_trans (by omega) (hcols c hc).1, (hcols c hc).2⟩
  | case3 col c r hitem => exact ⟨.nil, Nat.le_refl _, fun c hc => by cases hc⟩

theorem exists_of_keyMember? {col : ℕ} {content : Text} {e : LineEntry}
    (h : keyMember? col content = some e) :
    ∃ name hasValue blockScalar, e = .key col name hasValue blockScalar := by
  obtain ⟨_, _, rfl⟩ := Option.map_eq_some_iff.mp h
  exact ⟨_, _, _, rfl⟩

/-- A line opens nothing, or what its dashes and the content behind them tell. -/
theorem lineEntries_eq (line : Text) :
    lineEntries line = [] ∨
      lineEntries line = (dashes (indentOf line) (line.drop (indentOf line))).cols.map .dash ++
        (keyMember? (dashes (indentOf line) (line.drop (indentOf line))).contentCol
          (dashes (indentOf line) (line.drop (indentOf line))).content).toList := by
  rw [lineEntries]
  split
  · exact .inl rfl
  · exact .inr rfl

theorem pairwise_lineEntries (line : Text) :
    (lineEntries line).Pairwise fun e e' => e.col < e'.col := by
  obtain ⟨hpair, _, hcols⟩ := dashes_order (indentOf line) (line.drop (indentOf line))
  rcases lineEntries_eq line with hnil | heq
  · rw [hnil]
    exact .nil
  · rw [heq]
    refine List.pairwise_append.mpr ⟨List.pairwise_map.mpr hpair, ?_, ?_⟩
    · cases keyMember? _ _ <;> simp
    · intro e he e' he'
      obtain ⟨c, hc, rfl⟩ := List.mem_map.mp he
      obtain ⟨name, hasValue, blockScalar, rfl⟩ := exists_of_keyMember? (Option.mem_toList.mp he')
      exact (hcols c hc).2

/-! ### Lines of items -/

/-- The line stands deeper than a column, or with a dash in it. -/
def InItem (col : ℕ) (line : Text) : Prop :=
  col < indentOf line ∨ col = indentOf line ∧ beginsItem (line.drop (indentOf line)) = true

namespace InItem

variable {col : ℕ} {line : Text} (h : InItem col line)

include h

theorem le_indentOf : col ≤ indentOf line := by
  rcases h with hlt | ⟨heq, _⟩
  · exact Nat.le_of_lt hlt
  · exact Nat.le_of_eq heq

/-- What stands in the column is a dash. -/
theorem dash_or_lt : ∀ e ∈ lineEntries line, e = .dash col ∨ col < e.col := by
  intro e he
  obtain ⟨_, hle, hcols⟩ := dashes_order (indentOf line) (line.drop (indentOf line))
  have hindent := h.le_indentOf
  rcases lineEntries_eq line with hnil | heq
  · rw [hnil] at he
    cases he
  · rw [heq] at he
    rcases List.mem_append.mp he with he | he
    · obtain ⟨c, hc, rfl⟩ := List.mem_map.mp he
      rcases Nat.lt_or_eq_of_le (Nat.le_trans hindent (hcols c hc).1) with hlt | rfl
      · exact .inr hlt
      · exact .inl rfl
    · obtain ⟨name, hasValue, blockScalar, rfl⟩ := exists_of_keyMember? (Option.mem_toList.mp he)
      right
      show col < (dashes _ _).contentCol
      rcases h with hlt | ⟨hcol, hitem⟩
      · exact Nat.lt_of_lt_of_le hlt hle
      · -- the key stands behind the dash that begins the item
        cases hbody : line.drop (indentOf line) with
        | nil => rw [hbody] at hitem; cases hitem
        | cons c r =>
            rw [hbody] at hitem hcols
            have hmem : indentOf line ∈ (dashes (indentOf line) (c :: r)).cols := by
              rw [dashes, if_pos hitem]
              exact List.mem_cons_self
            rw [hcol]
            exact (hcols _ hmem).2

end InItem

/-! ### Spaces in front -/

theorem indentOf_spaces_append (k : ℕ) (line : Text) :
    indentOf (spaces k ++ line) = indentOf line + k := by
  rw [indentOf, indentOf, List.takeWhile_append_of_pos fun c hc => ?_, List.length_append,
    Block.length_spaces, Nat.add_comm]
  rw [List.eq_of_mem_replicate hc]
  rfl

theorem drop_spaces_append (k n : ℕ) (line : Text) :
    (spaces k ++ line).drop (n + k) = line.drop n := by
  rw [Nat.add_comm, ← List.drop_drop, List.drop_left' (Block.length_spaces k)]

/-- Behind a space no mark and no directive begins. -/
theorem isPlainLine_of_space {line : Text} (h : line.head? = some (CodeUnit.ofBasic ' ')) :
    isPlainLine line =
      (line.drop (indentOf line)).head?.all fun c => decide (c = CodeUnit.ofBasic '#') := by
  obtain ⟨r, rfl⟩ : ∃ r, line = CodeUnit.ofBasic ' ' :: r := by
    cases line with
    | nil => cases h
    | cons c r => exact ⟨r, by rw [Option.some.inj h]⟩
  rw [isPlainLine]
  cases (CodeUnit.ofBasic ' ' :: r).drop (indentOf (CodeUnit.ofBasic ' ' :: r)) with
  | nil => rfl
  | cons c body =>
      show (decide (c = CodeUnit.ofBasic '#') || false || false) = _
      rw [Bool.or_false, Bool.or_false]
      rfl

namespace InItem

variable {col k : ℕ} {line : Text} (h : InItem col line) (hk : 0 < k)

include h

/-- A line of an item is no mark and no directive. -/
theorem isPlainLine_eq : isPlainLine line =
    (line.drop (indentOf line)).head?.all fun c => decide (c = CodeUnit.ofBasic '#') := by
  cases hline : line with
  | nil => rfl
  | cons c r =>
      by_cases hc : c = CodeUnit.ofBasic ' '
      · exact isPlainLine_of_space (by rw [hc]; rfl)
      · have hindent : indentOf (c :: r) = 0 := by
          rw [indentOf, List.takeWhile_cons_of_neg (by simpa using hc)]
          rfl
        rw [hline] at h
        rcases h with hlt | ⟨_, hitem⟩
        · rw [hindent] at hlt
          exact absurd hlt (Nat.not_lt_zero _)
        · rw [hindent] at hitem
          obtain ⟨hdash, hblank⟩ := (Bool.and_eq_true _ _).mp hitem
          obtain rfl := of_decide_eq_true hdash
          rw [isPlainLine, hindent]
          -- three dashes are no dash with white space behind it
          cases r with
          | nil => rfl
          | cons d r =>
              have hd : (CodeUnit.ofBasic '-' == d) = false := by
                refine beq_false_of_ne fun heq => ?_
                rw [← heq] at hblank
                cases hblank
              show (false || (CodeUnit.ofBasic '-' == d && _) || false) = false
              rw [hd]
              rfl

include hk

theorem lineEntries_moved :
    lineEntries (spaces k ++ line) = (lineEntries line).map (·.moved k) := by
  have hspace : (spaces k ++ line).head? = some (CodeUnit.ofBasic ' ') := by
    obtain ⟨n, rfl⟩ := Nat.exists_eq_succ_of_ne_zero (Nat.ne_of_gt hk)
    rfl
  rw [lineEntries, lineEntries, isPlainLine_of_space hspace, h.isPlainLine_eq,
    indentOf_spaces_append, drop_spaces_append, dashes_moved]
  split
  · rfl
  · simp only [Dashes.moved, keyMember?_moved, List.map_append, List.map_map, Option.toList_map]
    rfl

end InItem
end Yaml
end Scopewright
