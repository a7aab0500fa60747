import Scopewright.Proofs.SyntaxTest.Completed

/-! # What suggested names are about

A caret that is typed behind the comment token makes the run that it stands in longer, or leaves the
assertion of its line as it is (`assertionMark_caret`).  So the line asserts only columns that it
asserted before or that the carets go on over (`covers_typed`), and the suggested names are shared by
all of them (`suggest_covered`). -/

namespace Scopewright
namespace SyntaxTest

open Text (ofAbove lineOf)

variable {h : Header} {t front r ending character : Text} {columns marker : Columns} {start stop : ℕ}
  {scopes : List Text} {baseScope fileName : Option Text} {s : Suggestion} {c : Completed}

/-- The number of carets that a text begins with. -/
def carets (t : Text) : ℕ := (t.takeWhile (· = CodeUnit.ofBasic '^')).length

/-- A column that an assertion is about: one of its run, or the one column of an arrow. -/
def Columns.Covers (columns : Columns) (k : ℕ) : Prop :=
  if columns.IsArrow then k = columns.start else columns.start ≤ k ∧ k < columns.stop

/-! ### Carets -/

theorem carets_replicate {n : ℕ} {x : Text} (hx : x.head? ≠ some (CodeUnit.ofBasic '^')) :
    carets (List.replicate n (CodeUnit.ofBasic '^') ++ x) = n := by
  rw [carets, takeWhile_carets hx, List.length_replicate]

/-- A run that is typed is read up to its end. -/
theorem assertionMark_run {gap : Text} (hgap : ∀ c ∈ gap, c.isBlank = true) (n : ℕ) (x : Text) :
    assertionMark? (gap ++ List.replicate n (CodeUnit.ofBasic '^') ++ CodeUnit.ofBasic '^' :: x) =
      some ⟨gap.length, false, n + 1 + carets x⟩ := by
  have hbody : List.replicate n (CodeUnit.ofBasic '^') ++ CodeUnit.ofBasic '^' :: x =
      CodeUnit.ofBasic '^' :: (List.replicate n (CodeUnit.ofBasic '^') ++ x) := by
    rw [← List.singleton_append, ← List.append_assoc, ← List.replicate_succ', List.replicate_succ,
      List.cons_append]
  have hhead : ∀ c ∈ (CodeUnit.ofBasic '^' :: (List.replicate n (CodeUnit.ofBasic '^') ++ x)).head?,
      c.isBlank = false := by
    intro c hc
    rw [← Option.some.inj hc]
    decide
  have harrow : ("<-" : Text).isPrefixOf
      (CodeUnit.ofBasic '^' :: (List.replicate n (CodeUnit.ofBasic '^') ++ x)) = false := rfl
  have hcarets : carets (CodeUnit.ofBasic '^' :: (List.replicate n (CodeUnit.ofBasic '^') ++ x)) =
      n + 1 + carets x := by
    rw [carets, List.takeWhile_cons_of_pos (by simp), List.length_cons,
      List.takeWhile_append_of_pos (fun c hc => by simp [List.eq_of_mem_replicate hc]),
      List.length_append, List.length_replicate, carets]
    omega
  rw [List.append_assoc, hbody, assertionMark_append hgap hhead, harrow, if_neg Bool.false_ne_true,
    ← carets, hcarets, if_neg (by omega)]

/-- A caret goes on with the run of carets in front of it, or the marker stands further in front. -/
theorem assertionMark_caret (u : Text) :
    (∃ (gap : Text) (n : ℕ), (∀ c ∈ gap, c.isBlank = true) ∧
      u = gap ++ List.replicate n (CodeUnit.ofBasic '^')) ∨
      ∀ x, assertionMark? (u ++ CodeUnit.ofBasic '^' :: x) = assertionMark? u := by
  obtain ⟨gap, body, rfl, hgap, hbody⟩ := Text.exists_blanks_append u
  by_cases hcarets : ∀ c ∈ body, c = CodeUnit.ofBasic '^'
  · exact .inl ⟨gap, body.length, hgap, congrArg _ (List.eq_replicate_iff.mpr ⟨rfl, hcarets⟩)⟩
  · refine .inr fun x => ?_
    have hrun : (body ++ CodeUnit.ofBasic '^' :: x).takeWhile (· = CodeUnit.ofBasic '^') =
        body.takeWhile (· = CodeUnit.ofBasic '^') := by
      rw [List.takeWhile_append, if_neg]
      intro hall
      have hself := (List.takeWhile_prefix _).eq_of_length hall
      refine hcarets fun c hc => ?_
      rw [← hself] at hc
      simpa using List.mem_takeWhile_imp hc
    cases body with
    | nil => exact absurd nofun hcarets
    | cons d body =>
        have hbody' : ∀ c ∈ (d :: body ++ CodeUnit.ofBasic '^' :: x).head?, c.isBlank = false :=
          fun c hc => hbody c hc
        -- behind a single `<` the caret does not make an arrow
        have harrow : ("<-" : Text).isPrefixOf (d :: body ++ CodeUnit.ofBasic '^' :: x) =
            ("<-" : Text).isPrefixOf (d :: body) := by
          cases body with
          | nil =>
              have hdash : (CodeUnit.ofBasic '-' == CodeUnit.ofBasic '^') = false := by decide
              have hmark : ("<-" : Text) = [CodeUnit.ofBasic '<', CodeUnit.ofBasic '-'] := rfl
              rw [hmark, List.cons_append, List.nil_append, List.isPrefixOf_cons_cons,
                List.isPrefixOf_cons_cons, List.isPrefixOf_cons_cons, hdash, Bool.false_and,
                Bool.and_false, List.isPrefixOf_cons_nil, Bool.and_false]
          | cons e body => rfl
        rw [List.append_assoc, assertionMark_append hgap hbody', assertionMark_append hgap hbody,
          hrun, harrow]

/-! ### The line with the carets -/

/-- A comment token in front of a place stays the one of the line. -/
theorem markerOf_front (hstart : IsWord h.start) (hmarker : markerOf? h front = some marker)
    (x : Text) : markerOf? h (front ++ x) = some marker ∧ marker.stop ≤ front.length := by
  obtain ⟨indent, rest, hindent, rfl, rfl⟩ := (markerOf_iff hstart).mp hmarker
  refine ⟨(markerOf_iff hstart).mpr ⟨indent, rest ++ x, hindent, List.append_assoc _ _ _, rfl⟩, ?_⟩
  simp only [List.length_append]
  omega

/-- A comment token without a caret ends in front of the first caret. -/
theorem marker_isSome_of_caret (hstart : IsWord h.start) (hcaret : CodeUnit.ofBasic '^' ∉ h.start)
    {x : Text} (hmarker : (markerOf? h (front ++ CodeUnit.ofBasic '^' :: x)).isSome = true) :
    (markerOf? h front).isSome = true := by
  obtain ⟨marker, hmarker⟩ := Option.isSome_iff_exists.mp hmarker
  obtain ⟨indent, rest, hindent, hline, -⟩ := (markerOf_iff hstart).mp hmarker
  have hnone : CodeUnit.ofBasic '^' ∉ indent ++ h.start := fun hmem => by
    rcases List.mem_append.mp hmem with hmem | hmem
    · exact absurd (hindent _ hmem) (by decide)
    · exact hcaret hmem
  obtain ⟨back, hfront⟩ : ∃ back, front = indent ++ h.start ++ back := by
    rcases List.append_eq_append_iff.mp hline with ⟨back, hstop, hback⟩ | ⟨back, hfront, -⟩
    · cases back with
      | nil => exact ⟨[], by rw [hstop, List.append_nil, List.append_nil]⟩
      | cons c back =>
          rw [hstop, ← (List.cons.inj hback).1] at hnone
          exact absurd (List.mem_append_right _ List.mem_cons_self) hnone
    · exact ⟨back, hfront⟩
  exact Option.isSome_iff_exists.mpr
    ⟨_, (markerOf_iff hstart).mpr ⟨indent, back, hindent, hfront, rfl⟩⟩

/-- **Carets in a line.**  When carets are typed behind the comment token and something else behind
them, the line asserts what it asserted with the first of them alone, but for columns that the others
stand in. -/
theorem covers_typed (hstart : IsWord h.start) (hmarker : (markerOf? h front).isSome = true)
    (hcolumns : assertionIn? h (front ++ CodeUnit.ofBasic '^' :: r) = some columns) (n : ℕ) {x : Text}
    (hx : x.head? ≠ some (CodeUnit.ofBasic '^')) :
    ∃ columns', assertionIn? h
        (front ++ CodeUnit.ofBasic '^' :: (List.replicate n (CodeUnit.ofBasic '^') ++ x)) =
          some columns' ∧
      (columns'.IsArrow ↔ columns.IsArrow) ∧
      ∀ k, columns'.Covers k → columns.Covers k ∨
        ¬ columns.IsArrow ∧ front.length + 1 ≤ k ∧ k < front.length + 1 + n := by
  obtain ⟨marker, hmarker⟩ := Option.isSome_iff_exists.mp hmarker
  obtain ⟨u, hu⟩ : ∃ u, front.drop marker.stop = u := ⟨_, rfl⟩
  have hle := (markerOf_front hstart hmarker []).2
  have hassertion (y : Text) : assertionIn? h (front ++ CodeUnit.ofBasic '^' :: y) =
      (assertionMark? (u ++ CodeUnit.ofBasic '^' :: y)).map fun m =>
        if m.isArrow then ⟨marker.start, marker.start⟩
        else ⟨marker.stop + m.blanks, marker.stop + m.blanks + m.carets⟩ := by
    rw [assertionIn?, (markerOf_front hstart hmarker _).1, Option.bind_some, assertionOf?,
      List.drop_append_of_le_length hle, hu]
  rw [hassertion] at hcolumns ⊢
  rcases assertionMark_caret u with ⟨gap, m, hgap, hrun⟩ | hfar
  · have hlength : front.length = marker.stop + gap.length + m := by
      have := congrArg List.length (hu.trans hrun)
      rw [List.length_drop, List.length_append, List.length_replicate] at this
      omega
    rw [hrun, assertionMark_run hgap] at hcolumns ⊢
    rw [carets_replicate hx]
    obtain rfl := Option.some.inj hcolumns
    refine ⟨_, rfl, ?_⟩
    have hbefore : ¬ marker.stop + gap.length = marker.stop + gap.length + (m + 1 + carets r) := by
      omega
    have hafter : ¬ marker.stop + gap.length = marker.stop + gap.length + (m + 1 + n) := by omega
    simp only [Columns.Covers, Columns.IsArrow, Bool.false_eq_true, if_false, if_neg hbefore,
      if_neg hafter]
    refine ⟨iff_of_false hafter hbefore, fun k hk => ?_⟩
    omega
  · rw [hfar] at hcolumns ⊢
    exact ⟨columns, hcolumns, Iff.rfl, fun k => .inl⟩

/-- The same for a suggestion that is put in. -/
theorem covers_text (hstart : IsWord h.start) (hmarker : (markerOf? h front).isSome = true)
    (hcolumns : assertionIn? h (front ++ ("^" : Text) ++ r) = some columns) (c : Completed) :
    ∃ columns', assertionIn? h (front ++ c.text "^" ++ r) = some columns' ∧
      (columns'.IsArrow ↔ columns.IsArrow) ∧
      ∀ k, columns'.Covers k → columns.Covers k ∨ ¬ columns.IsArrow ∧
        (front ++ ("^" : Text)).length ≤ k ∧ k < (front ++ ("^" : Text)).length + c.length := by
  have hcaret : front ++ ("^" : Text) ++ r = front ++ CodeUnit.ofBasic '^' :: r :=
    List.append_assoc _ _ _
  have htext : front ++ c.text "^" ++ r = front ++ CodeUnit.ofBasic '^' ::
      (List.replicate c.length (CodeUnit.ofBasic '^') ++ (c.tail ++ r)) := by
    rw [text_caret]
    simp only [List.append_assoc, List.cons_append]
  have hhead : (c.tail ++ r).head? ≠ some (CodeUnit.ofBasic '^') := fun hhead =>
    absurd (Option.some.inj hhead) (by decide)
  have hlength : (front ++ ("^" : Text)).length = front.length + 1 := List.length_append
  rw [hcaret] at hcolumns
  rw [htext, hlength]
  exact covers_typed hstart hmarker hcolumns c.length hhead

/-- When the comment token has no caret, or stands in front, then it stands in front of a caret. -/
theorem Place.marker_isSome {above : List Text} (hp : Place t start fileName h above front)
    (htoken : CodeUnit.ofBasic '^' ∉ h.start ∨ (markerOf? h (Text.lastLine (t.take start))).isSome)
    (hcolumns : assertionIn? h (front ++ ("^" : Text) ++ r) = some columns) :
    (markerOf? h front).isSome = true := by
  rcases htoken with hcaret | hmarker
  · obtain ⟨line, path, hh⟩ := exists_heads (testHeader_iff.mp hp.header).2
    have hline : front ++ ("^" : Text) ++ r = front ++ CodeUnit.ofBasic '^' :: r :=
      List.append_assoc _ _ _
    rw [hline] at hcolumns
    exact marker_isSome_of_caret hh.start_isWord hcaret (marker_isSome_of_assertion hcolumns)
  · rwa [hp.take_eq, Text.lastLine_ofAbove above hp.break_notMem_front] at hmarker

/-! ### The suggestion -/

theorem scope_mem_stackList (columns : Columns) (scopes : List Text) (scope : Text) :
    scope ∈ columns.stackList scopes scope := by
  unfold Columns.stackList
  split
  · exact List.mem_singleton_self _
  · exact mem_scopesOf.mpr (.inl (List.mem_singleton_self _))

/-- The stacks of the asserted columns are among those that names are suggested for. -/
theorem mem_stackList_of_covers {cursor k : ℕ} {scope stack : Text} (hk : columns.Covers k)
    (hstack : scopes[k]? = some stack) (hscope : scopes[columns.onward cursor]? = some scope) :
    stack ∈ columns.stackList scopes scope := by
  by_cases harrow : columns.IsArrow
  · rw [Columns.Covers, if_pos harrow] at hk
    have honward : columns.onward cursor = columns.start := if_pos harrow
    rw [honward, ← hk, hstack] at hscope
    rw [Option.some.inj hscope]
    exact scope_mem_stackList columns scopes scope
  · rw [Columns.Covers, if_neg harrow] at hk
    rw [Columns.stackList, if_neg harrow]
    exact mem_scopesOf.mpr (.inr ⟨k, hk.1, hk.2, hstack⟩)

/-- The suggested names are shared by the stacks that the assertion is about, and a run is as long as it
can be. -/
theorem complete_spec {cursor lineLength : ℕ}
    (hc : columns.complete? (some cursor) lineLength scopes baseScope ending = some c) :
    (∀ k, columns.Covers k ∨ ¬ columns.IsArrow ∧ cursor ≤ k ∧ k < cursor + c.length →
      ∀ stack ∈ scopes[k]?, ∀ name ∈ c.names, HasName stack name) ∧
    (¬ columns.IsArrow → lineLength < cursor + c.length ∨ scopes[cursor + c.length]? = none ∨
      scopes[cursor + c.length]? ≠ scopes[cursor]?) := by
  obtain ⟨column, n, honward, hlength, -, scope, hscope, rfl⟩ := complete_iff.mp hc
  obtain rfl := Int.ofNat_inj.mp hlength
  rw [Columns.onward_eq] at honward
  obtain rfl := Int.ofNat_inj.mp (Option.some.inj honward)
  have honward (hrun : ¬ columns.IsArrow) : columns.onward cursor = cursor := if_neg hrun
  refine ⟨fun k hk stack hstack name hname => hasName_of_mem_suggestedNames hname ?_, fun hrun => ?_⟩
  · rcases hk with hk | ⟨hrun, hle, hlt⟩
    · exact mem_stackList_of_covers hk hstack hscope
    · simp only [if_neg hrun, honward hrun] at hlt
      have hsame := ((run_spec scopes scope cursor lineLength).1 (k - cursor) (by omega)).2
      rw [Nat.add_sub_cancel' hle, Option.mem_def.mp hstack] at hsame
      rw [Option.some.inj hsame]
      exact scope_mem_stackList columns scopes scope
  · rw [honward hrun] at hscope
    simp only [if_neg hrun, honward hrun]
    rcases Nat.lt_or_ge lineLength (cursor + runFrom scopes scope cursor lineLength) with hlt | hle
    · exact .inl hlt
    · exact .inr (.inr (hscope ▸ (run_spec scopes scope cursor lineLength).2 hle))

/-- **What suggested names are about.**  In a test whose comment token has no caret, or behind the comment
token of its line, what is suggested for a caret leaves an assertion: every column that the line then
asserts has all suggested names, as far as its scope is known, and the carets go on as far as they can:
behind them the tested line ends, or no scope is known, or another one stands than where they go on. -/
theorem suggest_covered (hstart : start ≤ t.length) (hheader : header? t = some h)
    (htoken : CodeUnit.ofBasic '^' ∉ h.start ∨ (markerOf? h (Text.lastLine (t.take start))).isSome)
    (hs : suggest? t ⟨start, stop⟩ scopes baseScope fileName "^" = some s) :
    ∃ c, completion? t ⟨start, stop⟩ scopes baseScope fileName "^" = some c ∧
      s = c.suggestion ⟨start, stop⟩ "^" ∧
      let after := typedOver t s.edit s.text
      let d := details after s.selection.stop fileName
      let first := start + 1 - d.line.start
      let next := first + c.length
      ∃ columns tested, d.assertion = some columns ∧
        tested? after s.selection.stop fileName = some tested ∧
        (∀ k, columns.Covers k → ∀ stack ∈ scopes[k]?, ∀ name ∈ c.names, HasName stack name) ∧
        (¬ columns.IsArrow → tested.line.stop - tested.line.start < next ∨
          scopeAt scopes next = none ∨ scopeAt scopes next ≠ scopeAt scopes first) := by
  obtain ⟨c, hc, rfl⟩ := suggest_iff.mp hs
  refine ⟨c, hc, rfl, ?_⟩
  have hbreak : CodeUnit.ofBasic '\n' ∉ ("^" : Text) := by decide
  obtain ⟨h', above, front, hp⟩ := exists_place hstart (by decide) hbreak hc
  obtain rfl := Option.some.inj (hheader.symm.trans (testHeader_iff.mp hp.header).2)
  have hword := headerOfLine_start (Option.ite_none_left_eq_some.mp hheader).2
  have hbehind : CodeUnit.ofBasic '\n' ∉ c.text "^" :=
    blank_notMem_text hc (by decide) (by decide) hbreak
  rw [hp.completion_eq hbreak] at hc
  obtain ⟨columns, hcolumns, hc⟩ := Option.bind_eq_some_iff.mp hc
  have hmarker := hp.marker_isSome htoken hcolumns
  obtain ⟨columns', hcolumns', harrow, hcovers⟩ := covers_text hword hmarker hcolumns c
  have hdetails := hp.details_typed hbehind stop
  obtain ⟨ds, htested⟩ := hp.tested_typed hbehind (marker_isSome_of_assertion hcolumns')
  rw [← selection_stop c rfl] at hdetails htested
  obtain ⟨hnames, hend⟩ := complete_spec hc
  intro after d first next
  have hfirst : first = (front ++ ("^" : Text)).length := by
    have hoffset := hp.offset_eq "^"
    have hstart' : d.line.start = (ofAbove above).length := congrArg (·.line.start) hdetails
    have hunit : ("^" : Text).length = 1 := rfl
    rw [List.length_append, hunit] at hoffset
    simp only [first, hstart']
    omega
  have hnext : next = ((front ++ ("^" : Text)).length + c.length : ℕ) := by
    simp only [next, hfirst, Int.natCast_add]
  refine ⟨columns', _, (congrArg Details.assertion hdetails).trans hcolumns', htested,
    fun k hk => hnames k (hcovers k hk), fun hrun => ?_⟩
  rw [hnext, hfirst, scopeAt_natCast, scopeAt_natCast, length_testedLine]
  exact (hend (harrow.not.mp hrun)).imp_left Int.ofNat_lt.mpr

/-- Carets that are put into a run are about the columns of the whole run. -/
theorem suggest_covered_run :
    let t : Text := "# SYNTAX TEST \"s\"\nabcdef\n# ^^"
    let scopes : List Text := ["a", "a", "a b.x", "a b.y", "a b d", "a b d", "a"]
    let s : Suggestion := ⟨⟨28, 28⟩, "^^^ b", ⟨31, 33⟩⟩
    suggest? t ⟨(28 : ℕ), (28 : ℕ)⟩ scopes (some "a") none "^" = some s ∧
      ∃ columns, (details (typedOver t s.edit s.text) s.selection.stop none).assertion = some columns ∧
        columns = ⟨2, 6⟩ ∧ ∀ k, columns.Covers k → ∀ stack ∈ scopes[k]?, HasName stack "b" := by
  intro t scopes s
  have hheader : header? t = some ⟨"#", none⟩ := by decide
  have hs : suggest? t ⟨(28 : ℕ), (28 : ℕ)⟩ scopes (some "a") none "^" = some s := by decide +kernel
  have hc : completion? t ⟨(28 : ℕ), (28 : ℕ)⟩ scopes (some "a") none "^" = some ⟨2, ["b"], []⟩ := by
    decide +kernel
  obtain ⟨c, hc', -, columns, -, hcolumns, -, hnames, -⟩ :=
    suggest_covered (by decide) hheader (.inl (by decide)) hs
  obtain rfl := Option.some.inj (hc'.symm.trans hc)
  refine ⟨hs, columns, hcolumns, Option.some.inj (hcolumns.symm.trans (by decide +kernel)), ?_⟩
  exact fun k hk stack hstack => hnames k hk stack hstack "b" (List.mem_singleton_self _)

/-- A caret that is typed as the comment token makes a run of what was an arrow, and the name of the
column in front is suggested for it. -/
theorem suggest_covered_token :
    let t : Text := "^ SYNTAX TEST \"s\"\nab\n <-"
    let s : Suggestion := ⟨⟨21, 21⟩, "^^ x", ⟨23, 25⟩⟩
    suggest? t ⟨(21 : ℕ), (21 : ℕ)⟩ ["x", "y"] none none "^" = some s ∧
      completion? t ⟨(21 : ℕ), (21 : ℕ)⟩ ["x", "y"] none none "^" = some ⟨1, ["x"], []⟩ ∧
      (details (typedOver t s.edit s.text) s.selection.stop none).assertion = some ⟨1, 2⟩ ∧
      ¬ HasName "y" "x" := by
  refine ⟨by decide +kernel, by decide +kernel, by decide +kernel, fun hname => ?_⟩
  exact absurd (stackMatches_iff.mpr hname) (by decide +kernel)

end SyntaxTest
end Scopewright
