import Scopewright.Proofs.SyntaxTest.Completed
import Scopewright.Proofs.Text.Class
import Scopewright.Proofs.Text.Returns

/-! # Carriage returns in a syntax test

The header of a test is read without the carriage return in front of the line break
(`SyntaxTest.header_withReturns`), and so are the comment token and the marker of a line
(`SyntaxTest.assertionIn_addReturn`).  The line that is tested is one unit longer
(`SyntaxTest.testedLine_map_addReturn`), and a cursor in front of a line break is one unit in front of
it.  So the same is suggested unless a scope goes on over the end of the tested line, or a comment is to
be closed in front of a line break (`SyntaxTest.suggest_withReturns_iff`). -/

namespace Scopewright

namespace Text

/-- The first line ends with a carriage return, if a line break follows. -/
theorem lineOf_withReturns (t : Text) :
    lineOf (withReturns t) = lineOf t ∨ lineOf (withReturns t) = addReturn (lineOf t) := by
  have hsplit := splitOn_withReturns t
  rw [head_splitOn, head_splitOn t] at hsplit
  cases htail : (splitOn '\n' t).tail with
  | nil =>
      rw [htail] at hsplit
      exact .inl (List.cons.inj hsplit).1
  | cons l ls =>
      rw [htail, returned_cons_cons] at hsplit
      exact .inr (List.cons.inj hsplit).1

/-- A text begins with an empty line if it is empty or begins with a line break. -/
theorem lineOf_isEmpty (t : Text) :
    (lineOf t).isEmpty = true ↔ t = [] ∨ t.head? = some (CodeUnit.ofBasic '\n') := by
  cases t with
  | nil => simp [lineOf]
  | cons c t =>
      rw [lineOf]
      by_cases hc : c = CodeUnit.ofBasic '\n'
      · simp [hc]
      · simp [hc]

/-- With carriage returns no line is empty but the last one. -/
theorem lineOf_withReturns_isEmpty (t : Text) :
    (lineOf (withReturns t)).isEmpty = true ↔ t = [] := by
  have hreturn : ¬ CodeUnit.ofBasic '\r' = CodeUnit.ofBasic '\n' := by decide
  rw [lineOf_isEmpty]
  cases t with
  | nil => simp [withReturns, replaceUnit]
  | cons c t =>
      rw [withReturns_cons]
      by_cases hc : c = CodeUnit.ofBasic '\n'
      · rw [if_pos hc]
        refine iff_of_false (fun h => h.elim (List.cons_ne_nil _ _) fun h => ?_) (List.cons_ne_nil _ _)
        exact hreturn (Option.some.inj h)
      · rw [if_neg hc]
        refine iff_of_false (fun h => h.elim (List.cons_ne_nil _ _) fun h => ?_) (List.cons_ne_nil _ _)
        exact hc (Option.some.inj h)

theorem ofAbove_map_addReturn {above : List Text}
    (habove : ∀ line ∈ above, CodeUnit.ofBasic '\n' ∉ line) :
    ofAbove (above.map addReturn) = withReturns (ofAbove above) := by
  induction above with
  | nil => rfl
  | cons line above ih =>
      obtain ⟨hline, habove⟩ := List.forall_mem_cons.mp habove
      rw [List.map_cons, ofAbove, ofAbove, ih habove, withReturns_append, withReturns_append,
        withReturns_of_notMem hline, addReturn, List.append_assoc, List.append_assoc,
        List.append_assoc]
      rfl

end Text

namespace SyntaxTest

open Text (ofAbove lineOf)

variable {h : Header} {t line front x ending ending' : Text} {above : List Text} {columns : Columns}
  {start stop cursor n : ℕ} {scopes : List Text} {baseScope fileName : Option Text} {c : Completed}
  {scope : Text}

/-! ### Lines -/

theorem firstLine_withReturns (h : CodeUnit.ofBasic '\r' ∉ t) :
    firstLine t.withReturns = firstLine t := by
  have hlast : ¬ t.lineOf.getLast? = some (CodeUnit.ofBasic '\r') := fun hlast =>
    h ((Text.lineOf_isPrefix t).subset (List.mem_of_getLast? hlast))
  have hplain : firstLine t = t.lineOf := by
    rw [firstLine, ← Text.lineOf, if_neg hlast]
  rw [hplain, firstLine, ← Text.lineOf]
  rcases Text.lineOf_withReturns t with hline | hline
  · rw [hline, if_neg hlast]
  · rw [hline, Text.addReturn, List.getLast?_concat, if_pos rfl, List.dropLast_concat]

theorem header_withReturns (h : CodeUnit.ofBasic '\r' ∉ t) :
    header? t.withReturns = header? t := by
  rw [header?, header?, firstLine_withReturns h]

theorem markerOf_addReturn (hstart : h.start ≠ [] ∧ ∀ c ∈ h.start, c.isBlank = false) :
    markerOf? h (Text.addReturn line) = markerOf? h line := by
  have hreturn : CodeUnit.ofBasic '\r' ∉ h.start := fun hmem => by
    cases hstart.2 _ hmem
  have hnil : h.start.isPrefixOf [] = false := by
    cases hs : h.start with
    | nil => exact absurd hs hstart.1
    | cons c r => rfl
  rw [markerOf?, markerOf?, Text.dropBlanks_addReturn]
  by_cases hbody : line.dropWhile CodeUnit.isBlank = []
  · rw [if_pos hbody, hbody]
    simp only [hnil, Bool.false_eq_true, if_false]
  · rw [if_neg hbody]
    simp only [Text.isPrefixOf_addReturn hreturn, Text.length_addReturn, Nat.add_sub_add_right]

theorem assertionMark_addReturn (line : Text) :
    assertionMark? (Text.addReturn line) = assertionMark? line := by
  rw [assertionMark?, assertionMark?, Text.dropBlanks_addReturn]
  by_cases hbody : line.dropWhile CodeUnit.isBlank = []
  · rw [if_pos hbody, hbody]
    rfl
  · have hcarets : (Text.addReturn (line.dropWhile CodeUnit.isBlank)).takeWhile
        (· = CodeUnit.ofBasic '^') =
          (line.dropWhile CodeUnit.isBlank).takeWhile (· = CodeUnit.ofBasic '^') :=
      Text.takeWhile_addReturn (by decide) _
    have harrow : (Text.ofString "<-").isPrefixOf
        (Text.addReturn (line.dropWhile CodeUnit.isBlank)) =
          (Text.ofString "<-").isPrefixOf (line.dropWhile CodeUnit.isBlank) :=
      Text.isPrefixOf_addReturn (by decide)
    rw [if_neg hbody]
    simp only [harrow, hcarets, Text.length_addReturn, Nat.add_sub_add_right]

/-- A carriage return at the end of a line does not move the selector. -/
theorem selectorColumn_addReturn (hstart : h.start ≠ [] ∧ ∀ c ∈ h.start, c.isBlank = false) :
    selectorColumn? h (Text.addReturn line) = selectorColumn? h line := by
  rw [selectorColumn?, selectorColumn?, markerOf_addReturn hstart]
  cases hmarker : markerOf? h line with
  | none => rfl
  | some marker =>
      rw [Option.bind_eq_bind, Option.bind_some, Text.drop_addReturn (markerOf_stop_le hmarker),
        assertionMark_addReturn]
      rfl

theorem selectorOf_addReturn (hstart : h.start ≠ [] ∧ ∀ c ∈ h.start, c.isBlank = false) :
    selectorOf? h (Text.addReturn line) = (selectorOf? h line).map Text.addReturn := by
  rw [selectorOf?, selectorOf?, selectorColumn_addReturn hstart]
  cases hcolumn : selectorColumn? h line with
  | none => rfl
  | some column =>
      exact congrArg some (Text.drop_addReturn (selectorColumn_le hcolumn))

theorem assertionIn_addReturn (hstart : IsWord h.start) :
    assertionIn? h (Text.addReturn line) = assertionIn? h line := by
  rw [assertionIn?, assertionIn?, markerOf_addReturn hstart]
  cases hmarker : markerOf? h line with
  | none => rfl
  | some marker =>
      rw [Option.bind_some, Option.bind_some, assertionOf?, assertionOf?,
        Text.drop_addReturn (markerOf_stop_le hmarker), assertionMark_addReturn]

theorem assertionIn_withReturns (hstart : IsWord h.start) (front rest : Text) :
    assertionIn? h (front ++ Text.lineOf (Text.withReturns rest)) =
      assertionIn? h (front ++ Text.lineOf rest) := by
  rcases Text.lineOf_withReturns rest with hline | hline
  · rw [hline]
  · rw [hline, Text.addReturn, ← List.append_assoc, ← Text.addReturn, assertionIn_addReturn hstart]

/-- The tested line has a carriage return like all lines above. -/
theorem testedLine_map_addReturn (hstart : IsWord h.start) {above : List Text}
    (habove : ∃ line ∈ above, assertionIn? h line = none) :
    testedLine h (above.map Text.addReturn) = Text.addReturn (testedLine h above) := by
  induction above with
  | nil =>
      obtain ⟨line, hline, -⟩ := habove
      cases hline
  | cons line above ih =>
      rw [List.map_cons, testedLine, testedLine, assertionIn_addReturn hstart]
      cases hassertion : assertionIn? h line with
      | none => rfl
      | some columns =>
          obtain ⟨other, hother, hnone⟩ := habove
          rcases List.mem_cons.mp hother with rfl | hother
          · rw [hassertion] at hnone
            cases hnone
          · exact ih ⟨other, hother, hnone⟩

/-! ### Runs over the end of a line -/

/-- One column further a run is longer just when it reaches that column. -/
theorem run_succ_iff {column : ℕ} (hcolumn : column ≤ n + 1) :
    runFrom scopes scope column (n + 1) = runFrom scopes scope column n ↔
      ¬ ∀ k, column ≤ k → k ≤ n + 1 → scopes[k]? = some scope := by
  obtain ⟨hrun, hend⟩ := run_spec scopes scope column n
  obtain ⟨hrun', hend'⟩ := run_spec scopes scope column (n + 1)
  generalize runFrom scopes scope column n = m at *
  generalize runFrom scopes scope column (n + 1) = m' at *
  constructor
  · rintro rfl hall
    have hle : column + m' ≤ n + 1 := by
      by_contra hlt
      have := (hrun (n + 1 - column) (by omega)).1
      omega
    exact hend' hle (hall _ (Nat.le_add_right _ _) hle)
  · intro hnot
    rcases Nat.lt_trichotomy m' m with hlt | heq | hlt
    · obtain ⟨hle, hscope⟩ := hrun m' hlt
      exact absurd hscope (hend' (Nat.le_succ_of_le hle))
    · exact heq
    · -- the longer run ends at the further column, so it has all columns up to there
      obtain ⟨hle, hscope⟩ := hrun' m hlt
      have hlast : n < column + m := Nat.lt_of_not_le fun hle => hend hle hscope
      refine absurd (fun k hk hkn => ?_) hnot
      have hsame := (hrun' (k - column) (by omega)).2
      rwa [Nat.add_sub_cancel' hk] at hsame

/-- The scope that an assertion goes on with stands in all columns up to the end of the tested line and
in one behind it; an arrow, which is about one column, is in the one behind it. -/
def Columns.RunsOn (columns : Columns) (cursor n : ℕ) (scopes : List Text) : Prop :=
  columns.onward cursor ≤ n + 1 ∧ (columns.IsArrow → columns.onward cursor = n + 1) ∧
    ∃ scope, ∀ k, columns.onward cursor ≤ k → k ≤ n + 1 → scopes[k]? = some scope

theorem Columns.RunsOn.exists_scope (hruns : columns.RunsOn cursor n scopes) :
    ∃ scope, scopes[columns.onward cursor]? = some scope := by
  obtain ⟨hle, -, scope, hall⟩ := hruns
  exact ⟨scope, hall _ (Nat.le_refl _) hle⟩

/-- From a column of the tested line only a run goes on. -/
theorem Columns.runsOn_inside (hle : columns.onward cursor ≤ n)
    (hscope : scopes[columns.onward cursor]? = some scope) :
    columns.RunsOn cursor n scopes ↔ ¬ columns.IsArrow ∧
      ∀ k, columns.onward cursor ≤ k → k ≤ n + 1 → scopes[k]? = some scope := by
  constructor
  · rintro ⟨hle', harrow, scope', hall⟩
    obtain rfl := Option.some.inj (hscope.symm.trans (hall _ (Nat.le_refl _) hle'))
    refine ⟨fun h => ?_, hall⟩
    rw [harrow h] at hle
    exact Nat.not_succ_le_self n hle
  · rintro ⟨harrow, hall⟩
    exact ⟨Nat.le_succ_of_le hle, fun h => absurd h harrow, scope, hall⟩

/-- From the column behind it one scope is enough. -/
theorem Columns.runsOn_behind (honward : columns.onward cursor = n + 1)
    (hscope : scopes[columns.onward cursor]? = some scope) : columns.RunsOn cursor n scopes := by
  refine ⟨Nat.le_of_eq honward, fun _ => honward, scope, fun k hk hkn => ?_⟩
  rwa [Nat.le_antisymm (honward ▸ hkn) hk]

/-- The assertion that `character` makes in a text runs on over the end of the tested line. -/
def RunsOn (t : Text) (selection : Span) (scopes : List Text) (fileName : Option Text)
    (character : Text) : Prop :=
  let typed := typedOver t selection character
  let insertAt := selection.start + character.length
  let d := details typed insertAt fileName
  ∃ columns tested, ∃ cursor n : ℕ, d.assertion = some columns ∧
    tested? typed insertAt fileName = some tested ∧ insertAt - d.line.start = cursor ∧
    tested.line.stop - tested.line.start = n ∧ columns.RunsOn cursor n scopes

theorem complete_natCast (columns : Columns) (cursor n : ℕ) (scopes : List Text)
    (baseScope : Option Text) (ending : Text) :
    columns.complete? (some cursor) n scopes baseScope ending =
      if n < columns.onward cursor then none else scopes[columns.onward cursor]?.map fun scope =>
        ⟨if columns.IsArrow then 1 else runFrom scopes scope (columns.onward cursor) n,
          suggestedNames (columns.stackList scopes scope) baseScope, ending⟩ := by
  refine Option.ext fun c => ?_
  rw [complete_iff, Columns.onward_eq, Option.ite_none_left_eq_some, Option.map_eq_some_iff, Nat.not_lt]
  constructor
  · rintro ⟨column, m, hcolumn, hm, hle, scope, hscope, rfl⟩
    obtain rfl := Int.ofNat_inj.mp (Option.some.inj hcolumn)
    obtain rfl := Int.ofNat_inj.mp hm
    exact ⟨hle, scope, hscope, rfl⟩
  · rintro ⟨hle, scope, hscope, rfl⟩
    exact ⟨_, _, rfl, rfl, hle, scope, hscope, rfl⟩

/-- On a line that is one unit longer, with another end of the comment, an assertion goes on as before
if it does not run on and ends as before. -/
theorem complete_succ_iff :
    columns.complete? (some cursor) (n + 1 : ℕ) scopes baseScope ending' =
        columns.complete? (some cursor) n scopes baseScope ending ↔
      ¬ columns.RunsOn cursor n scopes ∧
        ((columns.complete? (some cursor) n scopes baseScope ending).isSome → ending' = ending) := by
  rw [complete_natCast, complete_natCast]
  cases hscope : scopes[columns.onward cursor]? with
  | none =>
      have hnone : ¬ columns.RunsOn cursor n scopes := fun hruns => by
        obtain ⟨scope, hsome⟩ := hruns.exists_scope
        rw [hscope] at hsome
        cases hsome
      simp only [Option.map_none, ite_self]
      exact iff_of_true trivial ⟨hnone, nofun⟩
  | some scope =>
      rcases Nat.lt_trichotomy (columns.onward cursor) (n + 1) with hlt | heq | hlt
      · have hle := Nat.le_of_lt_succ hlt
        rw [if_neg (Nat.not_lt.mpr (Nat.le_succ_of_le hle)), if_neg (Nat.not_lt.mpr hle),
          Columns.runsOn_inside hle hscope, not_and_or, not_not]
        simp only [Option.map_some, Option.some.injEq, Completed.mk.injEq, true_and,
          Option.isSome_some, forall_const]
        refine and_congr_left fun _ => ?_
        by_cases harrow : columns.IsArrow
        · simp only [if_pos harrow]
          exact iff_of_true trivial (.inl harrow)
        · simp only [if_neg harrow]
          exact (run_succ_iff (Nat.le_of_lt hlt)).trans (or_iff_right harrow).symm
      · rw [if_neg (heq ▸ Nat.lt_irrefl _), if_pos (heq ▸ Nat.lt_succ_self n)]
        exact iff_of_false nofun fun hnot => hnot.1 (Columns.runsOn_behind heq hscope)
      · rw [if_pos hlt, if_pos (Nat.lt_of_succ_lt hlt)]
        exact iff_of_true rfl ⟨fun hruns => absurd hruns.1 (Nat.not_le_of_lt hlt), nofun⟩

/-- The names do not depend on the length of the tested line. -/
theorem names_eq {n' : ℕ} {c' : Completed}
    (hc : columns.complete? (some cursor) n scopes baseScope ending = some c)
    (hc' : columns.complete? (some cursor) n' scopes baseScope ending' = some c') :
    c'.names = c.names := by
  rw [complete_natCast] at hc hc'
  obtain ⟨-, hc⟩ := Option.ite_none_left_eq_some.mp hc
  obtain ⟨-, hc'⟩ := Option.ite_none_left_eq_some.mp hc'
  obtain ⟨scope, hscope, rfl⟩ := Option.map_eq_some_iff.mp hc
  obtain ⟨scope', hscope', rfl⟩ := Option.map_eq_some_iff.mp hc'
  rw [Option.some.inj (hscope.symm.trans hscope')]

/-! ### Places with carriage returns -/

theorem testHeader_withReturns (ht : CodeUnit.ofBasic '\r' ∉ t) :
    testHeader? fileName t.withReturns = testHeader? fileName t := by
  have htest : isTest fileName t.withReturns = isTest fileName t := by
    cases fileName with
    | some name => rfl
    | none => rw [isTest, isTest, header_withReturns ht]
  rw [testHeader?, testHeader?, htest, header_withReturns ht]

namespace Place

theorem withReturns (hp : Place t start fileName h above front) (ht : CodeUnit.ofBasic '\r' ∉ t)
    (hstart : start ≤ t.length) :
    Place t.withReturns (start + t.breaksBefore start) fileName h (above.map Text.addReturn) front := by
  have htake : t.withReturns.take (start + t.breaksBefore start) =
      ofAbove (above.map Text.addReturn) ++ front := by
    rw [Text.take_withReturns, hp.take_eq, Text.withReturns_append,
      Text.withReturns_of_notMem hp.break_notMem_front,
      Text.ofAbove_map_addReturn hp.break_notMem_above]
  refine ⟨(testHeader_withReturns ht).trans hp.header, fun hnil => hp.above_ne_nil
    (List.map_eq_nil_iff.mp hnil), htake, ?_, ?_, hp.break_notMem_front⟩
  · rw [← htake, Text.take_withReturns, Text.length_take_withReturns hstart]
  · intro line hline hbreak
    obtain ⟨line', hline', rfl⟩ := List.mem_map.mp hline
    rcases List.mem_append.mp hbreak with hbreak | hbreak
    · exact hp.break_notMem_above line' hline' hbreak
    · exact absurd (List.mem_singleton.mp hbreak) (by decide)

theorem runsOn_iff (hp : Place t start fileName h above front) (hx : CodeUnit.ofBasic '\n' ∉ x)
    (stop : ℕ) :
    RunsOn t ⟨start, stop⟩ scopes fileName x ↔
      ∃ columns, assertionIn? h (front ++ x ++ lineOf (t.drop stop)) = some columns ∧
        columns.RunsOn (front ++ x).length (testedLine h above).length scopes := by
  have hdetails := hp.details_typed hx stop
  have hcursor : (start : ℤ) + x.length - (ofAbove above).length = ((front ++ x).length : ℕ) := by
    rw [hp.offset_eq, List.length_append]
    omega
  simp only [RunsOn, hdetails, lineDetails, hcursor]
  refine exists_congr fun columns => ⟨?_, ?_⟩
  · rintro ⟨tested, cursor, n, hcolumns, htested, hcursor, hn, hruns⟩
    obtain ⟨ds, htested'⟩ := hp.tested_typed hx (marker_isSome_of_assertion hcolumns)
    obtain rfl := Option.some.inj (htested'.symm.trans htested)
    rw [length_testedLine] at hn
    obtain rfl := Int.ofNat_inj.mp hcursor
    obtain rfl := Int.ofNat_inj.mp hn
    exact ⟨hcolumns, hruns⟩
  · rintro ⟨hcolumns, hruns⟩
    obtain ⟨ds, htested⟩ := hp.tested_typed hx (marker_isSome_of_assertion hcolumns)
    exact ⟨_, _, _, hcolumns, htested, rfl, length_testedLine h above, hruns⟩

end Place

/-! ### Suggestions with carriage returns -/

/-- The suggestion for the text with carriage returns. -/
def Suggestion.returned (s : Suggestion) (t : Text) : Suggestion :=
  ⟨t.returnedSpan s.edit, s.text, (typedOver t s.edit s.text).returnedSpan s.selection⟩

/-- In what is put in, which is on one line, there are as many line breaks before as in front of it. -/
theorem breaksBefore_typed (hstart : start ≤ t.length) (hx : CodeUnit.ofBasic '\n' ∉ x) {k : ℕ}
    (hk : k ≤ x.length) :
    (typedOver t ⟨start, stop⟩ x).breaksBefore (start + k) = t.breaksBefore start := by
  have hcount : (x.take k).count (CodeUnit.ofBasic '\n') = 0 :=
    List.count_eq_zero.mpr fun hmem => hx (List.mem_of_mem_take hmem)
  have hlength : (t.take start).length = start := List.length_take_of_le hstart
  have htake : (t.take start ++ x ++ t.drop stop).take (start + k) = t.take start ++ x.take k := by
    rw [List.append_assoc, List.take_append, hlength, List.take_of_length_le (by omega),
      Nat.add_sub_cancel_left, List.take_append_of_le_length hk]
  rw [typedOver_eq, Text.breaksBefore, htake, List.count_append, hcount, Text.breaksBefore,
    Nat.add_zero]

theorem returned_suggestion (hstart : start ≤ t.length) (hne : x ≠ [])
    (hbreak : CodeUnit.ofBasic '\n' ∉ c.text x) :
    (c.suggestion ⟨start, stop⟩ x).returned t =
      c.suggestion (t.returnedSpan ⟨start, stop⟩) x := by
  have hlength : (c.text x).length = x.length + c.length * x.length + c.tail.length := by
    simp only [Completed.text, List.length_append, length_repeated]
  have hle : c.length ≤ c.length * x.length :=
    Nat.le_mul_of_pos_right _ (List.length_pos_iff.mpr hne)
  have hfirst := @breaksBefore_typed _ _ start stop hstart hbreak (x.length + c.length) (by omega)
  have hlast := @breaksBefore_typed _ _ start stop hstart hbreak
    (x.length + c.length + c.tail.length) (by omega)
  have hspan : (⟨(start : ℤ) + x.length + c.length,
      (start : ℤ) + x.length + c.length + c.tail.length⟩ : Span) =
      ⟨(start + (x.length + c.length) : ℕ), (start + (x.length + c.length + c.tail.length) : ℕ)⟩ := by
    rw [Span.mk.injEq]
    omega
  simp only [Suggestion.returned, Completed.suggestion, hspan, Text.returnedSpan_natCast, hfirst,
    hlast]
  simp only [Suggestion.mk.injEq, Span.mk.injEq, true_and]
  omega

/-- What closes the comment is the same, unless the line ends there. -/
theorem ending_withReturns_iff (h : Header) (rest : Text) :
    h.ending (lineOf (Text.withReturns rest)).isEmpty = h.ending (lineOf rest).isEmpty ↔
      (h.stop.isSome = true → rest.head? ≠ some (CodeUnit.ofBasic '\n')) := by
  unfold Header.ending
  cases h.stop with
  | none => exact iff_of_true rfl nofun
  | some stop =>
      simp only [Option.isSome_some, forall_const]
      by_cases hbreak : rest.head? = some (CodeUnit.ofBasic '\n')
      · have hempty : (lineOf rest).isEmpty = true := (Text.lineOf_isEmpty rest).mpr (.inr hbreak)
        have hfull : ¬ (lineOf (Text.withReturns rest)).isEmpty = true := fun hnil => by
          rw [(Text.lineOf_withReturns_isEmpty rest).mp hnil] at hbreak
          cases hbreak
        rw [if_pos hempty, if_neg hfull]
        exact iff_of_false (fun heq => List.cons_ne_nil _ _ heq.symm) (not_not_intro hbreak)
      · refine iff_of_true ?_ hbreak
        have hsame : (lineOf (Text.withReturns rest)).isEmpty = (lineOf rest).isEmpty := by
          rw [Bool.eq_iff_iff, Text.lineOf_withReturns_isEmpty, Text.lineOf_isEmpty,
            or_iff_left hbreak]
        rw [hsame]

theorem map_suggestion_eq_iff {o o' : Option Completed} {selection : Span}
    (hnames : ∀ c ∈ o, ∀ c' ∈ o', c'.names = c.names) :
    o'.map (·.suggestion selection x) = o.map (·.suggestion selection x) ↔ o' = o := by
  refine ⟨fun heq => ?_, congrArg _⟩
  cases o with
  | none => exact Option.map_eq_none_iff.mp heq
  | some c =>
      obtain ⟨c', rfl, hsame⟩ := Option.map_eq_some_iff.mp heq
      have hnames := hnames c rfl c' rfl
      obtain ⟨length, names, ending⟩ := c
      obtain ⟨length', names', ending'⟩ := c'
      obtain rfl : names' = names := hnames
      simp only [Completed.suggestion, Suggestion.mk.injEq, Span.mk.injEq, true_and] at hsame
      obtain ⟨htext, hstart, -⟩ := hsame
      obtain rfl : length' = length := by omega
      have hending : ending' = ending := List.append_cancel_left (List.append_cancel_left htext)
      rw [hending]

/-- **Suggestions and carriage returns.**  With a carriage return in front of each line break the same
text is suggested, each offset moved by the line breaks before it, just when the assertion does not run
on over the end of the tested line, and no comment is closed in front of a line break. -/
theorem suggest_withReturns_iff (ht : CodeUnit.ofBasic '\r' ∉ t) (hstart : start ≤ t.length)
    (hne : x ≠ []) (hx : CodeUnit.ofBasic '\n' ∉ x) :
    suggest? t.withReturns (t.returnedSpan ⟨start, stop⟩) scopes baseScope fileName x =
        (suggest? t ⟨start, stop⟩ scopes baseScope fileName x).map (·.returned t) ↔
      ¬ RunsOn t ⟨start, stop⟩ scopes fileName x ∧
        ((suggest? t ⟨start, stop⟩ scopes baseScope fileName x).isSome → ∀ h ∈ header? t,
          h.stop.isSome → (t.drop stop).head? ≠ some (CodeUnit.ofBasic '\n')) := by
  have hmap : (suggest? t ⟨start, stop⟩ scopes baseScope fileName x).map (·.returned t) =
      (completion? t ⟨start, stop⟩ scopes baseScope fileName x).map
        (·.suggestion (t.returnedSpan ⟨start, stop⟩) x) := by
    rw [suggest?, Option.map_map]
    exact Option.map_congr fun c hc => returned_suggestion hstart hne
      (blank_notMem_text hc (by decide) (by decide) hx)
  rw [hmap, suggest?, suggest?, Option.isSome_map]
  have hstart' : start + t.breaksBefore start ≤ t.withReturns.length := by
    rw [(Text.withReturns_split t start).1, List.length_append, Text.length_take_withReturns hstart]
    exact Nat.le_add_right _ _
  by_cases hplace : ∃ h above front, Place t start fileName h above front
  · obtain ⟨h, above, front, hp⟩ := hplace
    have hword := headerOfLine_start (Option.ite_none_left_eq_some.mp (testHeader_iff.mp hp.header).2).2
    have hp' := hp.withReturns ht hstart
    rw [Text.returnedSpan_natCast, hp.completion_eq hx, hp'.completion_eq hx, hp.runsOn_iff hx,
      Text.drop_withReturns, assertionIn_withReturns hword,
      testedLine_map_addReturn hword hp.exists_tested, Text.length_addReturn,
      (testHeader_iff.mp hp.header).2]
    cases hassertion : assertionIn? h (front ++ x ++ lineOf (t.drop stop)) with
    | none => simp
    | some columns =>
        simp only [Option.bind_some]
        rw [map_suggestion_eq_iff fun c hc c' hc' => names_eq hc hc', complete_succ_iff,
          ending_withReturns_iff]
        simp
  · have hplace' : ¬ ∃ h above front,
        Place t.withReturns (start + t.breaksBefore start) fileName h above front := by
      simp only [exists_place_iff hstart', exists_place_iff hstart] at hplace ⊢
      rwa [testHeader_withReturns ht, Text.take_withReturns, Text.break_mem_withReturns]
    have hnone : completion? t ⟨start, stop⟩ scopes baseScope fileName x = none :=
      Option.eq_none_iff_forall_ne_some.mpr fun c hc => hplace (exists_place hstart hne hx hc)
    have hnone' : completion? t.withReturns (t.returnedSpan ⟨start, stop⟩) scopes baseScope fileName x =
        none :=
      Option.eq_none_iff_forall_ne_some.mpr fun c hc => hplace' (exists_place hstart' hne hx hc)
    rw [hnone, hnone']
    refine iff_of_true rfl ⟨?_, fun hsome => absurd hsome Bool.false_ne_true⟩
    rintro ⟨columns, tested, cursor, n, hcolumns, -⟩
    rw [assertion_of_no_place hstart hne hx hplace] at hcolumns
    cases hcolumns

/-- In an open comment, behind which a line ends, the same is suggested. -/
theorem suggest_withReturns_open :
    let t : Text := "# SYNTAX TEST \"s\"\nabc\n#\n#"
    let scopes : List Text := ["a", "a b", "a b", "a b"]
    let s : Suggestion := ⟨⟨23, 23⟩, "^^^ b", ⟨26, 28⟩⟩
    suggest? t ⟨(23 : ℕ), (23 : ℕ)⟩ scopes (some "a") none "^" = some s ∧
      suggest? t.withReturns (t.returnedSpan ⟨(23 : ℕ), (23 : ℕ)⟩) scopes (some "a") none "^" =
        some (s.returned t) ∧
      ¬ RunsOn t ⟨(23 : ℕ), (23 : ℕ)⟩ scopes none "^" := by
  intro t scopes s
  have hs : suggest? t ⟨(23 : ℕ), (23 : ℕ)⟩ scopes (some "a") none "^" = some s := by decide +kernel
  have hsame : suggest? t.withReturns (t.returnedSpan ⟨(23 : ℕ), (23 : ℕ)⟩) scopes (some "a") none "^" =
      some (s.returned t) := by decide +kernel
  have hreturned : suggest? t.withReturns (t.returnedSpan ⟨(23 : ℕ), (23 : ℕ)⟩) scopes (some "a") none
      "^" = (suggest? t ⟨(23 : ℕ), (23 : ℕ)⟩ scopes (some "a") none "^").map (·.returned t) := by
    rw [hs]
    exact hsame
  exact ⟨hs, hsame,
    ((suggest_withReturns_iff (by decide) (by decide) (by decide) (by decide)).mp hreturned).1⟩

/-- In front of a carriage return the comment is not closed. -/
theorem suggest_withReturns_closed :
    let t : Text := "/* SYNTAX TEST \"s\" */\nabcd\n/*\n"
    let scopes : List Text := ["x", "x", "x", "x"]
    suggest? t ⟨29, 29⟩ scopes none none "^" = some ⟨⟨29, 29⟩, "^^ x */", ⟨31, 36⟩⟩ ∧
      t.returnedSpan ⟨29, 29⟩ = ⟨31, 31⟩ ∧
      suggest? t.withReturns ⟨31, 31⟩ scopes none none "^" = some ⟨⟨31, 31⟩, "^^ x", ⟨33, 35⟩⟩ := by
  decide +kernel

-- when more scopes are known than the line has columns, the carriage return takes one of them
example :
    let t : Text := "# SYNTAX TEST \"s\"\nab\n#"
    let scopes : List Text := ["x", "x", "x", "x"]
    suggest? t ⟨22, 22⟩ scopes none none "^" = some ⟨⟨22, 22⟩, "^^ x", ⟨24, 26⟩⟩ ∧
      t.returnedSpan ⟨22, 22⟩ = ⟨24, 24⟩ ∧
      suggest? t.withReturns ⟨24, 24⟩ scopes none none "^" = some ⟨⟨24, 24⟩, "^^^ x", ⟨27, 29⟩⟩ := by
  decide +kernel

end SyntaxTest
end Scopewright
