import Scopewright.Proofs.SyntaxTest.Covered

/-! # The region that is highlighted

A region shows columns of the tested line: those of the selected carets, or those that the assertion
in the line of the cursor covers (`ShowsColumn`).  The columns are told in another line than the one
they are shown in.  So a region begins in the tested line or behind it and has at least one column,
and ends in the line just when all its columns are columns of that line (`region_shows`). -/

namespace Scopewright
namespace SyntaxTest

variable {t : Text} {fileName : Option Text} {columns : Columns} {start stop : ℕ} {region : Span}

/-- The column is shown for a line with an assertion: it is one of the selected carets, or the
assertion covers it when no carets are selected. -/
def ShowsColumn (t : Text) (selection : Span) (d : Details) (k : ℕ) : Prop :=
  if isCarets (t.between selection.start selection.stop) then
    selection.start ≤ d.line.start + k ∧ d.line.start + k < selection.stop
  else ∃ columns, d.assertion = some columns ∧ columns.Covers k

/-- The region has just these columns, counted from the start of a line, and at least one. -/
structure HasColumns (region line : Span) (shows : ℕ → Prop) : Prop where
  start_le : line.start ≤ region.start
  start_lt : region.start < region.stop
  iff : ∀ k : ℕ, region.start ≤ line.start + k ∧ line.start + k < region.stop ↔ shows k

variable {line : Span} {shows : ℕ → Prop}

theorem hasColumns_between {a b : ℤ} (ha : 0 ≤ a) (hab : a < b)
    (hshows : ∀ k : ℕ, shows k ↔ a ≤ k ∧ k < b) :
    HasColumns ⟨line.start + a, line.start + b⟩ line shows where
  start_le := Int.le_add_of_nonneg_right ha
  start_lt := Int.add_lt_add_left hab _
  iff k := by
    rw [hshows]
    exact and_congr (Int.add_le_add_iff_left _) (Int.add_lt_add_iff_left _)

/-- The region ends in the line when its columns do. -/
theorem HasColumns.stop_le_iff (hregion : HasColumns region line shows) :
    region.stop ≤ line.stop ↔ ∀ k, shows k → line.start + k < line.stop := by
  obtain ⟨hstart, hlt, hshows⟩ := hregion
  constructor
  · intro hstop k hk
    have := (hshows k).mpr hk
    omega
  · intro hall
    obtain ⟨k, hk⟩ := Int.eq_ofNat_of_zero_le (show 0 ≤ region.stop - 1 - line.start by omega)
    have hlast := hall k ((hshows k).mp (by omega))
    omega

/-- A run of carets begins in front of its end. -/
theorem assertionOf_le {marker : Columns} {line : Text}
    (hcolumns : assertionOf? marker line = some columns) : columns.start ≤ columns.stop := by
  obtain ⟨m, -, rfl⟩ := Option.map_eq_some_iff.mp hcolumns
  split
  · exact Nat.le_refl _
  · exact Nat.le_add_right _ _

/-- The line of an assertion belongs to a test, begins in front of the cursor, and has columns in
order. -/
theorem assertion_spec (hcolumns : (details t start fileName).assertion = some columns) :
    (details t start fileName).line.start ≤ start ∧ columns.start ≤ columns.stop := by
  cases hheader : testHeader? fileName t with
  | none =>
      rw [(details_of_header_none hheader start).2] at hcolumns
      cases hcolumns
  | some h =>
      refine ⟨details_start_le hheader start, ?_⟩
      obtain ⟨above, front, htake, hfront, -⟩ := Text.exists_ofAbove (t.take start)
      rw [details_split hheader htake hfront] at hcolumns
      obtain ⟨marker, -, hcolumns⟩ := Option.bind_eq_some_iff.mp hcolumns
      exact assertionOf_le hcolumns

/-- Carets are selected in a selection that is not empty. -/
theorem lt_of_isCarets (hle : start ≤ stop) (hcarets : isCarets (t.between start stop) = true) :
    start < stop := by
  refine Nat.lt_of_le_of_ne hle fun heq => ?_
  rw [← heq, Text.between, Nat.min_self, Nat.max_self, Nat.sub_self, List.take_zero] at hcarets
  cases hcarets

/-- A region is shown for the assertion in the line of the cursor. -/
theorem of_assertedRegion {selection : Span}
    (h : assertedRegion? t selection fileName = some region) :
    ∃ tested columns, tested? t selection.start fileName = some tested ∧
      (details t selection.start fileName).assertion = some columns ∧
      region =
        if selection.start < selection.stop ∧
            isCarets (t.between selection.start selection.stop) then
          ⟨tested.line.start + (selection.start - (details t selection.start fileName).line.start),
            tested.line.start + (selection.stop - (details t selection.start fileName).line.start)⟩
        else if columns.stop = columns.start then
          ⟨tested.line.start + columns.start, tested.line.start + (columns.stop + 1)⟩
        else ⟨tested.line.start + columns.start, tested.line.start + columns.stop⟩ := by
  obtain ⟨tested, htested, hnearest⟩ := Option.bind_eq_some_iff.mp h
  obtain ⟨nearest, hhead, hassertion⟩ := Option.bind_eq_some_iff.mp hnearest
  obtain ⟨columns, hcolumns, hregion⟩ := Option.bind_eq_some_iff.mp hassertion
  have hclimb := (Option.ite_none_right_eq_some.mp htested).2
  rw [← Option.some.inj hclimb] at hhead
  refine ⟨tested, columns, htested, head_climb hhead ▸ hcolumns, Option.some.inj ?_⟩
  have hline : (details t selection.start fileName).line = lineAt t selection.start := by
    rw [details, detailsOf]
    split <;> rfl
  rw [← hregion, hline, ← Int.add_assoc]
  simp only
  split
  · rfl
  · split <;> rfl

/-- **What is highlighted.**  A region has the columns that are shown for the assertion of the
cursor, moved to the tested line.  It has at least one, so it begins in the line or behind it, and
it ends in the line just when each of its columns is a column of the line. -/
theorem region_shows (hle : start ≤ stop)
    (hregion : assertedRegion? t ⟨start, stop⟩ fileName = some region) :
    ∃ tested, tested? t start fileName = some tested ∧
      HasColumns region tested.line (ShowsColumn t ⟨start, stop⟩ (details t start fileName)) ∧
      (region.stop ≤ tested.line.stop ↔
        ∀ k, ShowsColumn t ⟨start, stop⟩ (details t start fileName) k →
          tested.line.start + k < tested.line.stop) := by
  obtain ⟨tested, columns, htested, hcolumns, hspan⟩ := of_assertedRegion hregion
  simp only at htested hcolumns hspan
  obtain ⟨hstart, horder⟩ := assertion_spec hcolumns
  suffices hhas : HasColumns region tested.line
      (ShowsColumn t ⟨start, stop⟩ (details t start fileName)) from
    ⟨tested, htested, hhas, hhas.stop_le_iff⟩
  by_cases hcarets : (start : ℤ) < stop ∧ isCarets (t.between start stop) = true
  · rw [hspan, if_pos hcarets]
    refine hasColumns_between (by omega) (by omega) fun k => ?_
    rw [ShowsColumn, if_pos hcarets.2]
    simp only
    omega
  · rw [hspan, if_neg hcarets]
    have hnone : ¬ isCarets (t.between start stop) = true := fun hsome =>
      hcarets ⟨Int.ofNat_lt.mpr (lt_of_isCarets hle hsome), hsome⟩
    have hshows (k : ℕ) : ShowsColumn t ⟨start, stop⟩ (details t start fileName) k ↔
        columns.Covers k := by
      rw [ShowsColumn, if_neg hnone, hcolumns]
      exact ⟨fun ⟨c, hc, hk⟩ => Option.some.inj hc ▸ hk, fun hk => ⟨columns, rfl, hk⟩⟩
    by_cases harrow : columns.IsArrow
    · have hsame : columns.start = columns.stop := harrow
      rw [if_pos hsame.symm]
      refine hasColumns_between (by omega) (by omega) fun k => ?_
      rw [hshows, Columns.Covers, if_pos harrow]
      omega
    · have hne : ¬ columns.start = columns.stop := harrow
      rw [if_neg (Ne.symm hne)]
      refine hasColumns_between (by omega) (by omega) fun k => ?_
      rw [hshows, Columns.Covers, if_neg harrow]
      omega

/-- Carets under the last columns of a line are highlighted in it. -/
theorem region_shows_run :
    let t : Text := "# SYNTAX TEST \"s\"\nabcd\n#^^^"
    assertedRegion? t ⟨(27 : ℕ), (27 : ℕ)⟩ none = some ⟨19, 22⟩ ∧
      ∃ tested, tested? t (27 : ℕ) none = some tested ∧ tested.line = ⟨18, 22⟩ ∧
        ∀ k, ShowsColumn t ⟨(27 : ℕ), (27 : ℕ)⟩ (details t (27 : ℕ) none) k →
          tested.line.start + k < tested.line.stop := by
  intro t
  have hregion : assertedRegion? t ⟨(27 : ℕ), (27 : ℕ)⟩ none = some ⟨19, 22⟩ := by decide +kernel
  obtain ⟨tested, htested, -, hiff⟩ := region_shows (Nat.le_refl 27) hregion
  have hline : (tested? t (27 : ℕ) none).map (·.line) = some ⟨18, 22⟩ := by decide +kernel
  rw [htested] at hline
  have hline : tested.line = ⟨18, 22⟩ := Option.some.inj hline
  have hstop : tested.line.stop = 22 := congrArg Span.stop hline
  exact ⟨hregion, tested, htested, hline, hiff.mp (Int.le_of_eq hstop.symm)⟩

/-- Carets behind the end of the tested line are highlighted behind it, over the line break. -/
theorem region_behindLine :
    let t : Text := "# SYNTAX TEST \"s\"\nab\n#^^^"
    assertedRegion? t ⟨(25 : ℕ), (25 : ℕ)⟩ none = some ⟨19, 22⟩ ∧
      (tested? t (25 : ℕ) none).map (·.line) = some ⟨18, 20⟩ ∧
      (details t (25 : ℕ) none).assertion = some ⟨1, 4⟩ := by
  decide +kernel

end SyntaxTest
end Scopewright
