import Scopewright.Proofs.SyntaxTest.Completed

/-! # Alignment

Blanks are put in only behind the first line of a test, where the cursor has a line above it
(`exists_place_of_align`).  How many they are is told from the part of the line in front of the
cursor and from the line above (`Place.align_eq`).  What is put in without a line break leaves the
place what it was, with a longer part of the line in front (`Place.stays`): so the header and the
line above stay, the cursor comes to stand in the column behind the assertion above, and nothing is
left to put in (`align_aligned`), whether the line still has its comment token or not. -/

namespace Scopewright
namespace SyntaxTest

open Text (ofAbove lineOf)

variable {h : Header} {t x front nearest : Text} {fileName : Option Text} {above : List Text}
  {start : ℕ} {i : Insertion}

/-- What the line above a place says. -/
theorem Place.details_above (hp : Place t start fileName h (nearest :: above) front) :
    details t ((details t start fileName).line.start - 1) fileName =
      lineDetails h (ofAbove above).length nearest := by
  have ht := Text.ofAbove_append_drop hp.take_eq
  have hheader := hp.header
  rw [← ht] at hheader
  have hline := details_line hheader (hp.break_notMem_above nearest List.mem_cons_self)
  rw [ht] at hline
  rw [hp.details_eq, lineDetails, length_ofAbove_sub, hline]

/-- How many blanks are put in at a place. -/
theorem Place.align_eq (hp : Place t start fileName h (nearest :: above) front) :
    align? t start fileName =
      if (markerOf? h (front ++ lineOf (t.drop start))).isNone then none
      else (assertionIn? h nearest).bind fun columns =>
        if columns.stop ≤ front.length then none
        else some ⟨start, List.replicate (columns.stop - front.length) (CodeUnit.ofBasic ' ')⟩ := by
  have hlength := hp.length_eq
  have hstart := Text.length_ofAbove nearest above
  rw [List.length_append] at hlength
  have hline := congrArg (·.line.start) hp.details_eq
  have hmarker := congrArg Details.marker hp.details_eq
  have habove := congrArg Details.assertion hp.details_above
  simp only [lineDetails] at hline hmarker habove
  have hfirst : ¬ (details t start fileName).line.start = 0 := by omega
  unfold align?
  simp only [hmarker, or_iff_left hfirst, habove]
  split
  · rfl
  · refine Option.bind_congr fun columns _ => ?_
    have hcount : (columns.stop : ℤ) - (start - (details t start fileName).line.start) ≤ 0 ↔
        columns.stop ≤ front.length := by omega
    have hblanks : ((columns.stop : ℤ) - (start - (details t start fileName).line.start)).toNat =
        columns.stop - front.length := by omega
    rw [if_congr hcount rfl rfl, hblanks]
    rfl

/-- Blanks are put in behind the first line of a test only. -/
theorem exists_place_of_align (hstart : start ≤ t.length) (hi : align? t start fileName = some i) :
    ∃ h above front, Place t start fileName h above front := by
  obtain ⟨hcond, -⟩ := Option.ite_none_left_eq_some.mp hi
  obtain ⟨hnone, hline⟩ := not_or.mp hcond
  have hmarker : (details t start fileName).marker.isSome = true :=
    Option.isSome_iff_ne_none.mpr fun heq => hnone (Option.isNone_iff_eq_none.mpr heq)
  have hbreak : CodeUnit.ofBasic '\n' ∈ t.take start := by
    by_contra hno
    exact hline (line_start_of_notMem hno hmarker)
  cases hheader : testHeader? fileName t with
  | none =>
      rw [(details_of_header_none hheader start).1] at hmarker
      cases hmarker
  | some h => exact ⟨h, (exists_place_iff hstart).mpr ⟨hheader, hbreak⟩⟩

/-- When what is put in ends in the column behind the assertion above, the cursor is aligned. -/
theorem Place.align_typed (hp : Place t start fileName h (nearest :: above) front)
    (hx : CodeUnit.ofBasic '\n' ∉ x) {columns : Columns}
    (hcolumns : assertionIn? h nearest = some columns)
    (hend : front.length + x.length = columns.stop) (stop : ℕ) :
    let after := typedOver t ⟨start, stop⟩ x
    let cursor : ℤ := start + x.length
    let line := (details after cursor fileName).line
    (details after (line.start - 1) fileName).assertion = some columns ∧
      cursor - line.start = columns.stop ∧ align? after cursor fileName = none := by
  intro after cursor line
  have hp' := hp.stays hx stop
  have hcursor : cursor = (start + x.length : ℕ) := (Int.natCast_add _ _).symm
  have hline : line.start = (ofAbove (nearest :: above)).length := by
    simp only [line, hcursor]
    rw [hp'.details_eq]
    rfl
  have habove := congrArg Details.assertion hp'.details_above
  rw [← hcursor] at habove
  refine ⟨habove.trans hcolumns, ?_, ?_⟩
  · have hlength := hp'.length_eq
    simp only [List.length_append] at hlength
    omega
  · have hle : columns.stop ≤ (front ++ x).length := by
      rw [List.length_append]
      omega
    rw [hcursor, hp'.align_eq, hcolumns, Option.bind_some, if_pos hle, ite_self]

/-- **Alignment.**  When blanks are put in, the cursor comes to stand in the column behind the
assertion of the line above, which is what it was, and nothing more is put in there. -/
theorem align_aligned (hstart : start ≤ t.length) (hi : align? t start fileName = some i) :
    i.offset = start ∧ i.text ≠ [] ∧ (∀ c ∈ i.text, c = CodeUnit.ofBasic ' ') ∧
      let after := typedOver t ⟨i.offset, i.offset⟩ i.text
      let cursor := i.offset + i.text.length
      let line := (details after cursor fileName).line
      ∃ columns,
        (details t ((details t start fileName).line.start - 1) fileName).assertion = some columns ∧
        (details after (line.start - 1) fileName).assertion = some columns ∧
        cursor - line.start = columns.stop ∧ align? after cursor fileName = none := by
  obtain ⟨h, above, front, hp⟩ := exists_place_of_align hstart hi
  obtain ⟨nearest, above, rfl⟩ := List.exists_cons_of_ne_nil hp.above_ne_nil
  rw [hp.align_eq] at hi
  obtain ⟨columns, hcolumns, hinserted⟩ :=
    Option.bind_eq_some_iff.mp (Option.ite_none_left_eq_some.mp hi).2
  obtain ⟨hcount, hinserted⟩ := Option.ite_none_left_eq_some.mp hinserted
  obtain rfl := Option.some.inj hinserted
  have hblank : ∀ c ∈ List.replicate (columns.stop - front.length) (CodeUnit.ofBasic ' '),
      c = CodeUnit.ofBasic ' ' := fun c hc => List.eq_of_mem_replicate hc
  have hbreak : CodeUnit.ofBasic '\n' ∉
      List.replicate (columns.stop - front.length) (CodeUnit.ofBasic ' ') := fun hmem =>
    absurd (hblank _ hmem) (by decide)
  have habove := congrArg Details.assertion hp.details_above
  refine ⟨rfl, List.ne_nil_of_length_pos ?_, hblank, columns, habove.trans hcolumns,
    hp.align_typed hbreak hcolumns ?_ start⟩
  · rw [List.length_replicate]
    omega
  · rw [List.length_replicate]
    omega

/-- A cursor inside the indentation is aligned: the comment token moves with it. -/
theorem align_aligned_indented :
    let t : Text := "# SYNTAX TEST \"s\"\nabcd\n# ^^\n  #"
    let i : Insertion := ⟨29, "   "⟩
    29 ≤ t.length ∧ align? t (29 : ℕ) none = some i ∧
      typedOver t ⟨29, 29⟩ i.text = "# SYNTAX TEST \"s\"\nabcd\n# ^^\n     #" ∧
      (∀ c ∈ i.text, c = CodeUnit.ofBasic ' ') ∧
      align? (typedOver t ⟨29, 29⟩ i.text) (29 + i.text.length) none = none := by
  intro t i
  have hi : align? t (29 : ℕ) none = some i := by decide +kernel
  obtain ⟨-, -, hblanks, -, -, -, -, hnone⟩ := align_aligned (show 29 ≤ t.length by decide) hi
  exact ⟨by decide, hi, rfl, hblanks, hnone⟩

end SyntaxTest
end Scopewright
