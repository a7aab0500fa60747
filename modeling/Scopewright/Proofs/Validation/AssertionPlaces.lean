import Mathlib.Logic.Function.Iterate
import Scopewright.Proofs.SyntaxTest.Marker
import Scopewright.Proofs.Validation.Places
import Scopewright.Proofs.Validation.Returns

/-! # Where unknown scopes of a syntax test are told

A loop goes over the lines behind the first one (`LineLoop`): at an offset stands a line, and behind
its end the next one begins.  It inspects each of them once (`LineLoop.iterate_round`).  What it finds
in an assertion line are the unknown names of its selector, at their places
(`assertions_told`). -/

namespace Scopewright
namespace Validation

open Selector (Atom)
open SyntaxTest (Asserts Header IsWord header? lineAt selectorColumn? selectorColumn_iff)

variable {t : Text} {r : Registry} {h : Header}

/-! ### Selectors in comments -/

/-- The selector in what is written behind a marker: the text up to what closes the comment, if this
stands at the end, but for white space, and else all of it. -/
def Selects (closing : Option Text) (written selector : Text) : Prop :=
  (∃ word blanks, closing = some word ∧ (∀ c ∈ blanks, c.isBlank = true) ∧
    written = selector ++ word ++ blanks) ∨ ¬ Closes closing written ∧ selector = written

theorem dropClosing_append {word selector blanks : Text} (hword : IsWord word)
    (hblanks : ∀ c ∈ blanks, c.isBlank = true) :
    dropClosing (some word) (selector ++ word ++ blanks) = selector := by
  have htrim : (selector ++ word ++ blanks).trimEnd = selector ++ word := by
    refine Text.trimEnd_append (fun c hc => ?_) hblanks
    rw [List.getLast?_append_of_ne_nil _ hword.1] at hc
    exact hword.2 c (List.mem_of_getLast? hc)
  have hends : word.reverse.isPrefixOf (selector ++ word).reverse = true :=
    List.isPrefixOf_iff_prefix.mpr (List.reverse_prefix.mpr (List.suffix_append selector word))
  simp only [dropClosing, htrim, if_pos hends, Text.dropEnd]
  rw [List.length_append, Nat.add_sub_cancel, List.take_left]

theorem dropClosing_iff {closing : Option Text} (hwords : ∀ w ∈ closing, IsWord w)
    {written selector : Text} :
    dropClosing closing written = selector ↔ Selects closing written selector := by
  constructor
  · rintro rfl
    by_cases hcloses : Closes closing written
    · obtain ⟨word, rfl, before, hbefore⟩ := hcloses
      obtain ⟨blanks, hblanks, hwritten⟩ := Text.exists_blanks_trimEnd written
      rw [← hbefore] at hwritten
      rw [hwritten, dropClosing_append (hwords word rfl) hblanks]
      exact .inl ⟨word, blanks, rfl, hblanks, rfl⟩
    · exact .inr ⟨hcloses, dropClosing_of_not_closes hcloses⟩
  · rintro (⟨word, blanks, rfl, hblanks, rfl⟩ | ⟨hcloses, rfl⟩)
    · exact dropClosing_append (hwords word rfl) hblanks
    · exact dropClosing_of_not_closes hcloses

/-- The selector that a line asserts, with its column. -/
def asserted? (h : Header) (line : Text) : Option (ℕ × Text) :=
  (selectorColumn? h line).map fun column => (column, dropClosing h.stop (line.drop column))

theorem asserted_iff (hstart : IsWord h.start) (hstop : ∀ w ∈ h.stop, IsWord w)
    {line selector : Text} {column : ℕ} :
    asserted? h line = some (column, selector) ↔
      ∃ front written, Asserts h line front written ∧ column = front.length ∧
        Selects h.stop written selector := by
  rw [asserted?, Option.map_eq_some_iff]
  constructor
  · rintro ⟨_, hcolumn, heq⟩
    obtain ⟨rfl, hselector⟩ := Prod.mk.inj heq
    obtain ⟨front, written, hasserts, rfl⟩ := (selectorColumn_iff hstart).mp hcolumn
    rw [hasserts.line_eq, List.drop_left] at hselector
    exact ⟨front, written, hasserts, rfl, (dropClosing_iff hstop).mp hselector⟩
  · rintro ⟨front, written, hasserts, rfl, hselects⟩
    refine ⟨front.length, (selectorColumn_iff hstart).mpr ⟨front, written, hasserts, rfl⟩, ?_⟩
    rw [hasserts.line_eq, List.drop_left, (dropClosing_iff hstop).mpr hselects]

/-! ### Findings in a line -/

/-- The place of a line. -/
def lineSpan (l : ℕ × Text) : Span := Span.ofLength l.1 l.2.length

/-- The unknown names in the selector of a line, if it asserts one, at their places. -/
def lineFindings (h : Header) (r : Registry) (l : ℕ × Text) : List Finding :=
  match asserted? h l.2 with
  | some (column, selector) => placedFindings selector (l.1 + column) r
  | none => []

section line

variable {l : ℕ × Text} {column : ℕ} {selector : Text}

/-- The selector of a line stands at its column. -/
theorem asserted_isPrefix (hl : l ∈ laterLines t)
    (hline : asserted? h l.2 = some (column, selector)) :
    selector <+: t.drop (l.1 + column) := by
  obtain ⟨before, behind, rfl, rfl⟩ := exists_of_mem_laterLines hl
  obtain ⟨_, hcolumn, heq⟩ := Option.map_eq_some_iff.mp hline
  obtain ⟨rfl, rfl⟩ := Prod.mk.inj heq
  obtain ⟨more, hmore⟩ := Text.lineOf_isPrefix behind
  refine (dropClosing_isPrefix h.stop _).trans ⟨more, ?_⟩
  rw [← List.drop_drop, Text.drop_behind,
    ← List.drop_append_of_le_length (SyntaxTest.selectorColumn_le hcolumn), hmore]

/-- What is found in a line are the unknown names of its selector, at their places. -/
theorem assertionLineFindings_eq (hheader : header? t = some h) (hl : l ∈ laterLines t) :
    assertionLineFindings t h r l.1 = lineFindings h r l := by
  obtain ⟨before, behind, ht, rfl⟩ := exists_of_mem_laterLines hl
  rw [assertionLineFindings, assertion_behind hheader ht, lineFindings]
  cases hcolumn : selectorColumn? h (Text.lineOf behind) with
  | none => simp [asserted?, hcolumn]
  | some column =>
      have hasserted : asserted? h (Text.lineOf behind) =
          some (column, dropClosing h.stop ((Text.lineOf behind).drop column)) := by
        rw [asserted?, hcolumn]
        rfl
      -- between its names stand only separators, so the search finds each of them at its place
      have hfollows := follows_atoms (asserted_isPrefix hl hasserted)
      rw [hasserted]
      exact atomFindings_of_locate <| locate_of_follows hfollows
        (fun a ha => Selector.plain_of_mem_atoms ha) _

theorem InPlace.isPrefix {c start : ℕ} {as : List Atom} (h : InPlace t c start as) {a : Atom}
    (ha : a ∈ as) : a.name <+: t.drop (c + a.offset) := by
  induction as generalizing start with
  | nil => cases ha
  | cons b as ih =>
      obtain ⟨-, hb, has⟩ := h
      rcases List.mem_cons.mp ha with rfl | ha
      · exact hb
      · exact ih has ha

/-- The place of a name in a selector has the name in the text. -/
theorem between_placedFinding {c : ℕ} (hselector : selector <+: t.drop c) {a : Atom}
    (ha : a ∈ Selector.atoms selector) :
    t.between (placedFinding c a).span.start (placedFinding c a).span.stop = a.name := by
  have hname := (follows_atoms hselector).inPlace.isPrefix ha
  have hne := (Selector.plain_of_mem_atoms ha).2
  have hlength := hname.length_le
  rw [List.length_drop] at hlength
  have hpos := List.length_pos_iff.mpr hne
  have hplace : c + a.offset + a.name.length ≤ t.length := by omega
  exact (Text.between_drop hplace).trans (List.prefix_iff_eq_take.mp hname).symm

end line

/-! ### The loop over the lines -/

/-- A loop over the lines under way: the offset where it goes on, the lines that have been inspected,
and what has been found in them. -/
structure LineLoop where
  next : ℕ
  inspected : List Span
  findings : List Finding

/-- The loop still has to find these lines: there are none and the offset is none of a line, or they
begin at the offset. -/
def Awaits (t : Text) (next : ℕ) (lines : List (ℕ × Text)) : Prop :=
  lines = [] ∧ (next = 0 ∨ t.length < next) ∨
    ∃ before behind, t = before ++ CodeUnit.ofBasic '\n' :: behind ∧ next = before.length + 1 ∧
      lines = linesFrom next (Text.splitOn '\n' behind)

namespace LineLoop

/-- The loop begins behind the first line break; without one it has the offset zero. -/
def start (t : Text) : LineLoop where
  next := match Text.indexFrom? t '\n' 0 with
    | some k => k + 1
    | none => 0
  inspected := []
  findings := []

/-- A line is at the offset where the loop goes on. -/
def GoesOn (t : Text) (loop : LineLoop) : Prop := 0 < loop.next ∧ loop.next ≤ t.length

instance (t : Text) : DecidablePred (GoesOn t) := fun _ => inferInstanceAs (Decidable (_ ∧ _))

/-- Inspects the line at the offset and goes on behind its end. -/
def round (t : Text) (h : Header) (r : Registry) (loop : LineLoop) : LineLoop :=
  if loop.GoesOn t then
    ⟨(lineAt t loop.next).stop.toNat + 1, loop.inspected ++ [lineAt t loop.next],
      loop.findings ++ assertionLineFindings t h r loop.next⟩
  else loop

theorem awaits_start (t : Text) : Awaits t (start t).next (laterLines t) := by
  have hlength := Text.length_lineOf t
  have hindex : Text.indexFrom? t '\n' 0 = t.findIdx? (· = CodeUnit.ofBasic '\n') := by
    simp [Text.indexFrom?]
  unfold start
  simp only [hindex]
  cases hbreak : t.findIdx? (· = CodeUnit.ofBasic '\n') with
  | none =>
      have hnone : CodeUnit.ofBasic '\n' ∉ t := fun hmem =>
        of_decide_eq_false (List.findIdx?_eq_none_iff.mp hbreak _ hmem) rfl
      rw [laterLines, Text.splitOn_of_notMem hnone]
      exact .inl ⟨rfl, .inl rfl⟩
  | some k =>
      rw [hbreak, Option.getD_some] at hlength
      rcases Text.eq_lineOf_or_break t with hlast | ⟨behind, ht⟩
      · have hlt := Text.findIdx_lt hbreak
        rw [hlength, ← hlast] at hlt
        exact absurd hlt (Nat.lt_irrefl _)
      · refine .inr ⟨Text.lineOf t, behind, ht, congrArg (· + 1) hlength, ?_⟩
        have htail := linesFrom_tail (Text.break_notMem_lineOf t) 0 behind
        rwa [← ht, Nat.zero_add, ← hlength] at htail

end LineLoop

theorem Awaits.goesOn_iff {loop : LineLoop} {lines : List (ℕ × Text)}
    (hawaits : Awaits t loop.next lines) : loop.GoesOn t ↔ lines ≠ [] := by
  rcases hawaits with ⟨rfl, hnext⟩ | ⟨before, behind, rfl, hnext, rfl⟩
  · refine iff_of_false (fun hgoes => ?_) fun hne => hne rfl
    have := hgoes.1
    have := hgoes.2
    omega
  · rw [linesFrom_splitOn]
    refine iff_of_true ⟨by omega, ?_⟩ (List.cons_ne_nil _ _)
    rw [List.length_append, List.length_cons]
    omega

/-- At the offset is the first line that the loop has to find, and behind its end it has to find the
others. -/
theorem Awaits.lineAt {next : ℕ} {l : ℕ × Text} {lines : List (ℕ × Text)}
    (hawaits : Awaits t next (l :: lines)) :
    next = l.1 ∧ SyntaxTest.lineAt t next = lineSpan l ∧
      Awaits t ((SyntaxTest.lineAt t next).stop.toNat + 1) lines := by
  rcases hawaits with ⟨hnil, -⟩ | ⟨before, behind, rfl, rfl, hlines⟩
  · cases hnil
  · rw [linesFrom_splitOn] at hlines
    obtain ⟨rfl, rfl⟩ := List.cons.inj hlines
    have hline := SyntaxTest.lineAt_behind before behind
    refine ⟨rfl, hline, ?_⟩
    rw [hline]
    have hstop : ((before.length + 1 : ℕ) + (Text.lineOf behind).length : ℤ).toNat + 1 =
        before.length + 1 + (Text.lineOf behind).length + 1 := by omega
    simp only [hstop]
    rcases Text.eq_lineOf_or_break behind with hlast | ⟨behind', hbreak⟩
    · have hnone : CodeUnit.ofBasic '\n' ∉ behind := hlast ▸ Text.break_notMem_lineOf behind
      refine .inl ⟨?_, .inr ?_⟩
      · rw [Text.splitOn_of_notMem hnone]
        rfl
      · rw [← hlast, List.length_append, List.length_cons]
        omega
    · refine .inr ⟨before ++ CodeUnit.ofBasic '\n' :: Text.lineOf behind, behind', ?_, ?_, ?_⟩
      · rw [List.append_assoc, List.cons_append, ← hbreak]
      · rw [List.length_append, List.length_cons]
        omega
      · have htail := linesFrom_tail (Text.break_notMem_lineOf behind) (before.length + 1) behind'
        rw [← hbreak] at htail
        exact htail

/-- After some rounds as many lines have been inspected, and the loop goes on while there are more. -/
theorem LineLoop.iterate_round (h : Header) (r : Registry) {loop : LineLoop}
    {lines : List (ℕ × Text)} (hawaits : Awaits t loop.next lines) (k : ℕ) :
    ((round t h r)^[k] loop).inspected = loop.inspected ++ (lines.take k).map lineSpan ∧
      ((round t h r)^[k] loop).findings =
        loop.findings ++ (lines.take k).flatMap (fun l => assertionLineFindings t h r l.1) ∧
      (((round t h r)^[k] loop).GoesOn t ↔ k < lines.length) := by
  induction k generalizing loop lines with
  | zero =>
      rw [List.take_zero, Function.iterate_zero_apply, hawaits.goesOn_iff,
        ← List.length_pos_iff]
      exact ⟨(List.append_nil _).symm, (List.append_nil _).symm, Iff.rfl⟩
  | succ k ih =>
      rw [Function.iterate_succ_apply]
      cases lines with
      | nil =>
          -- with no line left the loop has ended, and a round changes nothing
          have hround : round t h r loop = loop := if_neg (hawaits.goesOn_iff.not.mpr (· rfl))
          obtain ⟨hinspected, hfindings, hgoes⟩ := ih hawaits
          rw [hround, hinspected, hfindings, hgoes]
          simp
      | cons l lines =>
          obtain ⟨hnext, hline, hrest⟩ := hawaits.lineAt
          have hround : round t h r loop = _ :=
            if_pos (hawaits.goesOn_iff.mpr (List.cons_ne_nil l lines))
          obtain ⟨hinspected, hfindings, hgoes⟩ := @ih (round t h r loop) lines (hround ▸ hrest)
          rw [hinspected, hfindings, hgoes, hround, hline, hnext]
          simp

/-! ### The whole test -/

/-- The unknown scopes that are told about a syntax test are those found in its lines. -/
theorem filter_unknownScope (hheader : header? t = some h) (hr : r.isEmpty = false) :
    (assertionFindings t r).filter (fun f => decide (f.code = .unknownScope)) =
      (laterLines t).flatMap (lineFindings h r) := by
  have hlines : (lineStarts 0 t).flatMap (assertionLineFindings t h r) =
      (laterLines t).flatMap (lineFindings h r) := by
    rw [lineStarts_eq, List.flatMap_map]
    exact List.flatMap_congr fun l hl => assertionLineFindings_eq hheader hl
  rw [assertionFindings_eq hheader hr, List.filter_append, List.filter_eq_nil_iff.mpr,
    List.nil_append, List.filter_eq_self.mpr, hlines]
  · intro f hf
    obtain ⟨_, _, hf⟩ := List.mem_flatMap.mp hf
    exact decide_eq_true (code_assertionLineFindings hf)
  · intro f hf hcode
    rw [code_headerFindings hf] at hcode
    cases of_decide_eq_true hcode

/-- **Unknown scopes of a syntax test.**  They are told line by line behind the first line: of each
assertion line, one for each name of its selector that is not known, with the place where the name
stands in the text, and one behind the other.  The loop over the lines inspects each of them once:
after `k` rounds the first `k`, and it goes on just as long as there are more. -/
theorem assertions_told (hheader : header? t = some h) (hr : r.isEmpty = false) :
    (assertionFindings t r).filter (fun f => decide (f.code = .unknownScope)) =
        (laterLines t).flatMap (lineFindings h r) ∧
      ((assertionFindings t r).map (·.span)).Pairwise (fun a b => a.stop ≤ b.start) ∧
      (∀ l ∈ laterLines t,
        (asserted? h l.2).isSome = (SyntaxTest.details t l.1 none).isAssertion true ∧
        ∀ column selector,
          (asserted? h l.2 = some (column, selector) ↔ ∃ front written,
            Asserts h l.2 front written ∧ column = front.length ∧
              Selects h.stop written selector) ∧
          (asserted? h l.2 = some (column, selector) → ∀ a ∈ Selector.atoms selector,
            t.between (placedFinding (l.1 + column) a).span.start
              (placedFinding (l.1 + column) a).span.stop = a.name)) ∧
      ∀ k, ((LineLoop.round t h r)^[k] (.start t)).inspected = ((laterLines t).take k).map lineSpan ∧
        ((LineLoop.round t h r)^[k] (.start t)).findings =
          ((laterLines t).take k).flatMap (lineFindings h r) ∧
        (((LineLoop.round t h r)^[k] (.start t)).GoesOn t ↔ k < (laterLines t).length) := by
  obtain ⟨front, path, hh⟩ := SyntaxTest.exists_heads hheader
  refine ⟨filter_unknownScope hheader hr, (assertionFindings_ordered t r).pairwise,
    fun l hl => ⟨?_, fun column selector => ⟨asserted_iff hh.start_isWord hh.stop_isWord,
      fun hline a ha => between_placedFinding (asserted_isPrefix hl hline) ha⟩⟩, fun k => ?_⟩
  · obtain ⟨before, behind, ht, rfl⟩ := exists_of_mem_laterLines hl
    rw [SyntaxTest.isAssertion_behind hheader ht, asserted?, Option.isSome_map]
  · obtain ⟨hinspected, hfindings, hgoes⟩ :=
      LineLoop.iterate_round h r (LineLoop.awaits_start t) k
    refine ⟨hinspected, hfindings.trans (List.flatMap_congr fun l hl => ?_), hgoes⟩
    exact assertionLineFindings_eq hheader (List.mem_of_mem_take hl)

/-- In comments that are closed two unknown names of three are told at their places. -/
theorem assertions_told_closed :
    let t : Text := "/* SYNTAX TEST \"b\" */\na\n/* ^ c, a - d */\n"
    let h : Header := ⟨"/*", some "*/"⟩
    let r := Registry.after [.replace "A" [⟨"a.sublime-syntax", "A", "scope: a"⟩]]
    header? t = some h ∧ r.isEmpty = false ∧
      (assertionFindings t r).filter (fun f => decide (f.code = .unknownScope)) =
        [⟨⟨29, 30⟩, .information, "Unknown scope 'c'", .unknownScope⟩,
          ⟨⟨36, 37⟩, .information, "Unknown scope 'd'", .unknownScope⟩] := by
  intro t h r
  have hheader : header? t = some h := by decide
  have hr : r.isEmpty = false := by decide +kernel
  exact ⟨hheader, hr, (assertions_told hheader hr).1.trans (by decide +kernel)⟩

end Validation
end Scopewright
