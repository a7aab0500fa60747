import Scopewright.Proofs.SyntaxTest.Header
import Scopewright.Proofs.SyntaxTest.Lines
import Scopewright.Proofs.Text.Words

/-! # What an assertion line is made of

`Asserts` says how an assertion line is written.  The selector is looked for in just the lines that are
written like this, behind the marker (`selectorColumn_iff`), and they are the ones that count as
assertion lines (`isAssertion_behind`). -/

namespace Scopewright

namespace SyntaxTest

variable {h : Header} {line front written : Text}

/-! ### The form of an assertion line -/

/-- The marker of an assertion in front of what is written behind it: an arrow, or all carets up to
there. -/
def IsMark (mark written : Text) : Prop :=
  mark = "<-" ∨
    ∃ n, mark = List.replicate (n + 1) (CodeUnit.ofBasic '^') ∧
      written.head? ≠ some (CodeUnit.ofBasic '^')

/-- A line is an assertion line: in front of what is written there stand the comment token and the
marker, each behind white space or none. -/
structure Asserts (h : Header) (line front written : Text) : Prop where
  front_eq : ∃ indent gap mark : Text, (∀ c ∈ indent, c.isBlank = true) ∧
    (∀ c ∈ gap, c.isBlank = true) ∧ IsMark mark written ∧ front = indent ++ h.start ++ gap ++ mark
  line_eq : line = front ++ written

theorem IsMark.head_notBlank {mark : Text} (hmark : IsMark mark written) :
    ∀ c ∈ (mark ++ written).head?, c.isBlank = false := by
  intro c hc
  rcases hmark with rfl | ⟨n, rfl, -⟩
  · rw [← Option.some.inj hc]
    decide
  · rw [List.replicate_succ] at hc
    rw [← Option.some.inj hc]
    decide

/-! ### What is read -/

/-- The comment token is read behind the white space. -/
theorem markerOf_append {indent body : Text} (hindent : ∀ c ∈ indent, c.isBlank = true)
    (hbody : ∀ c ∈ body.head?, c.isBlank = false) :
    markerOf? h (indent ++ body) =
      if h.start.isPrefixOf body then some ⟨indent.length, indent.length + h.start.length⟩
      else none := by
  have hdrop := (Text.span_append hindent hbody).2
  have hblanks : (indent ++ body).length - body.length = indent.length := by
    rw [List.length_append, Nat.add_sub_cancel]
  simp only [markerOf?, hdrop, hblanks]

theorem markerOf_iff (hstart : IsWord h.start) {marker : Columns} :
    markerOf? h line = some marker ↔ ∃ indent rest : Text, (∀ c ∈ indent, c.isBlank = true) ∧
      line = indent ++ h.start ++ rest ∧
      marker = ⟨indent.length, indent.length + h.start.length⟩ := by
  constructor
  · intro hmarker
    obtain ⟨indent, body, rfl, hindent, hbody⟩ := Text.exists_blanks_append line
    rw [markerOf_append hindent hbody] at hmarker
    obtain ⟨hhead, hplace⟩ := Option.ite_none_right_eq_some.mp hmarker
    obtain ⟨rest, rfl⟩ := List.isPrefixOf_iff_prefix.mp hhead
    refine ⟨indent, rest, hindent, ?_, (Option.some.inj hplace).symm⟩
    rw [List.append_assoc]
  · rintro ⟨indent, rest, hindent, rfl, rfl⟩
    have hbody : ∀ c ∈ (h.start ++ rest).head?, c.isBlank = false := by
      intro c hc
      rw [List.head?_append_of_ne_nil _ hstart.1] at hc
      exact hstart.2 c (List.mem_of_mem_head? hc)
    rw [List.append_assoc, markerOf_append hindent hbody]
    exact if_pos (List.isPrefixOf_iff_prefix.mpr (List.prefix_append h.start rest))

theorem takeWhile_carets {n : ℕ} (hwritten : written.head? ≠ some (CodeUnit.ofBasic '^')) :
    (List.replicate n (CodeUnit.ofBasic '^') ++ written).takeWhile
      (· = CodeUnit.ofBasic '^') = List.replicate n (CodeUnit.ofBasic '^') := by
  refine (Text.span_append (fun c hc => ?_) fun c hc => ?_).1
  · exact decide_eq_true (List.eq_of_mem_replicate hc)
  · refine decide_eq_false ?_
    rintro rfl
    exact hwritten hc

/-- The marker is read behind the white space. -/
theorem assertionMark_append {gap body : Text} (hgap : ∀ c ∈ gap, c.isBlank = true)
    (hbody : ∀ c ∈ body.head?, c.isBlank = false) :
    assertionMark? (gap ++ body) =
      if ("<-" : Text).isPrefixOf body then some ⟨gap.length, true, 0⟩
      else if (body.takeWhile (· = CodeUnit.ofBasic '^')).length = 0 then none
      else some ⟨gap.length, false, (body.takeWhile (· = CodeUnit.ofBasic '^')).length⟩ := by
  have hdrop := (Text.span_append hgap hbody).2
  have hblanks : (gap ++ body).length - body.length = gap.length := by
    rw [List.length_append, Nat.add_sub_cancel]
  simp only [assertionMark?, hdrop, hblanks]

theorem isMark_carets {body : Text} {n : ℕ}
    (hn : (body.takeWhile (· = CodeUnit.ofBasic '^')).length = n + 1) :
    IsMark (body.takeWhile (· = CodeUnit.ofBasic '^'))
      (body.dropWhile (· = CodeUnit.ofBasic '^')) := by
  refine .inr ⟨n, List.eq_replicate_iff.mpr ⟨hn, fun c hc => ?_⟩, fun hhead => ?_⟩
  · simpa using List.mem_takeWhile_imp hc
  · exact of_decide_eq_false (Text.head_dropWhile _ _ _ hhead) rfl

/-- The units that the marker at the front of a text takes, with the white space before it. -/
theorem assertionMark_iff {t : Text} {n : ℕ} :
    (assertionMark? t).map AssertionMark.length = some n ↔
      ∃ gap mark written : Text, (∀ c ∈ gap, c.isBlank = true) ∧ IsMark mark written ∧
        t = gap ++ mark ++ written ∧ n = gap.length + mark.length := by
  constructor
  · intro hn
    obtain ⟨gap, body, rfl, hgap, hbody⟩ := Text.exists_blanks_append t
    rw [assertionMark_append hgap hbody, Option.map_eq_some_iff] at hn
    obtain ⟨m, hm, rfl⟩ := hn
    by_cases harrow : ("<-" : Text).isPrefixOf body = true
    · obtain ⟨written, rfl⟩ := List.isPrefixOf_iff_prefix.mp harrow
      rw [if_pos harrow] at hm
      refine ⟨gap, "<-", written, hgap, .inl rfl, (List.append_assoc _ _ _).symm, ?_⟩
      rw [← Option.some.inj hm]
      rfl
    · rw [if_neg harrow] at hm
      obtain ⟨hne, hm⟩ := Option.ite_none_left_eq_some.mp hm
      obtain ⟨n, hn⟩ := Nat.exists_eq_succ_of_ne_zero hne
      refine ⟨gap, _, _, hgap, isMark_carets hn, ?_, ?_⟩
      · rw [List.append_assoc, List.takeWhile_append_dropWhile]
      · rw [← Option.some.inj hm]
        rfl
  · rintro ⟨gap, mark, written, hgap, hmark, rfl, rfl⟩
    rw [List.append_assoc, assertionMark_append hgap hmark.head_notBlank]
    rcases hmark with rfl | ⟨n, rfl, hwritten⟩
    · rfl
    · have harrow : ¬ ("<-" : Text).isPrefixOf
          (List.replicate (n + 1) (CodeUnit.ofBasic '^') ++ written) = true := by
        intro hprefix
        obtain ⟨rest, hrest⟩ := List.isPrefixOf_iff_prefix.mp hprefix
        exact absurd (List.cons.inj hrest).1 (by decide)
      rw [if_neg harrow, takeWhile_carets hwritten, List.length_replicate]
      rfl

/-- **Assertion lines.**  The selector of an assertion is what is written behind the marker of an
assertion line. -/
theorem selectorColumn_iff (hstart : IsWord h.start) {column : ℕ} :
    selectorColumn? h line = some column ↔
      ∃ front written, Asserts h line front written ∧ column = front.length := by
  have hbind (marker : Columns) : (assertionMark? (line.drop marker.stop)).bind
      (fun mark => some (marker.stop + mark.length)) = some column ↔
        ∃ n, (assertionMark? (line.drop marker.stop)).map AssertionMark.length = some n ∧
          column = marker.stop + n := by
    cases assertionMark? (line.drop marker.stop) with
    | none => simp
    | some mark => simp [eq_comm]
  rw [selectorColumn?, Option.bind_eq_bind, Option.bind_eq_some_iff]
  constructor
  · rintro ⟨marker, hmarker, hcolumn⟩
    obtain ⟨n, hn, rfl⟩ := (hbind marker).mp hcolumn
    obtain ⟨indent, rest, hindent, rfl, rfl⟩ := (markerOf_iff hstart).mp hmarker
    rw [← List.length_append, List.drop_left] at hn
    obtain ⟨gap, mark, written, hgap, hmark, rfl, rfl⟩ := assertionMark_iff.mp hn
    refine ⟨indent ++ h.start ++ gap ++ mark, written,
      ⟨⟨indent, gap, mark, hindent, hgap, hmark, rfl⟩, ?_⟩, ?_⟩
    · simp only [List.append_assoc]
    · simp only [List.length_append, Nat.add_assoc]
  · rintro ⟨front, written, ⟨⟨indent, gap, mark, hindent, hgap, hmark, rfl⟩, rfl⟩, rfl⟩
    refine ⟨⟨indent.length, indent.length + h.start.length⟩,
      (markerOf_iff hstart).mpr ⟨indent, gap ++ mark ++ written, hindent, ?_, rfl⟩,
      (hbind _).mpr ⟨gap.length + mark.length, ?_, ?_⟩⟩
    · simp only [List.append_assoc]
    · refine assertionMark_iff.mpr ⟨gap, mark, written, hgap, hmark, ?_, rfl⟩
      rw [← List.length_append, List.append_assoc _ gap, List.append_assoc _ (gap ++ mark),
        List.drop_left]
    · simp only [List.length_append, Nat.add_assoc]

/-- The lines with a selector are those that count as assertion lines. -/
theorem isAssertion_behind {t before behind : Text} (hheader : header? t = some h)
    (ht : t = before ++ CodeUnit.ofBasic '\n' :: behind) :
    (details t (before.length + 1 : ℕ) none).isAssertion true =
      (selectorColumn? h (Text.lineOf behind)).isSome := by
  rw [details_behind hheader ht, Details.isAssertion, selectorColumn?]
  cases markerOf? h (Text.lineOf behind) with
  | none => rfl
  | some marker =>
      simp only [Option.bind_eq_bind, Option.bind_some, assertionOf?]
      cases assertionMark? ((Text.lineOf behind).drop marker.stop) <;> rfl

end SyntaxTest
end Scopewright
