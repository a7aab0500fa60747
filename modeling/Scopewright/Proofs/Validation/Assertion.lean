import Scopewright.Proofs.Text.Words
import Scopewright.Proofs.Validation.Header
import Scopewright.Proofs.Validation.Unknown

/-! # What is told about assertions

The names of a selector are looked for one behind the other, and none of them is found behind its own
place (`locate_ordered`).  The lines behind the first one are told by their offsets (`laterLines`).  So
the findings in a syntax test stand in the order in which the document has them
(`assertionFindings_ordered`), sorting leaves them there, and the messages are the one about the header
and those about each line (`messages_validate`). -/

namespace Scopewright
namespace Validation

open SyntaxTest (Header header? selectorColumn? selectorColumn_le selectorOf?)

variable {t : Text} {start stop : ℕ}

/-! ### Spans in order -/

/-- Spans between two offsets, each behind the one before. -/
structure Ordered (start stop : ℕ) (spans : List Span) : Prop where
  le : start ≤ stop
  within : ∀ s ∈ spans, (start : ℤ) ≤ s.start ∧ s.start ≤ s.stop ∧ s.stop ≤ stop
  pairwise : spans.Pairwise fun a b => a.stop ≤ b.start

namespace Ordered

variable {start' stop' : ℕ} {spans spans' : List Span}

theorem nil (h : start ≤ stop) : Ordered start stop [] :=
  ⟨h, List.forall_mem_nil _, .nil⟩

theorem ofLength {k : ℕ} (h : start ≤ k) (length : ℕ) :
    Ordered start (k + length) [Span.ofLength k length] where
  le := by omega
  within := by
    intro s hs
    rw [List.mem_singleton.mp hs, Span.ofLength]
    simp only
    omega
  pairwise := List.pairwise_singleton _ _

theorem append (h : Ordered start stop spans) (h' : Ordered start' stop' spans')
    (hle : stop ≤ start') : Ordered start stop' (spans ++ spans') where
  le := (h.le.trans hle).trans h'.le
  within := by
    have hstart := h.le
    have hstop := h'.le
    intro s hs
    rcases List.mem_append.mp hs with hs | hs
    · have := h.within s hs
      omega
    · have := h'.within s hs
      omega
  pairwise := by
    refine List.pairwise_append.mpr ⟨h.pairwise, h'.pairwise, fun a ha b hb => ?_⟩
    have := h.within a ha
    have := h'.within b hb
    omega

theorem mono (h : Ordered start stop spans) (hstart : start' ≤ start) (hstop : stop ≤ stop') :
    Ordered start' stop' spans where
  le := (hstart.trans h.le).trans hstop
  within := by
    intro s hs
    have := h.within s hs
    omega
  pairwise := h.pairwise

theorem sublist (h : Ordered start stop spans) (hs : spans'.Sublist spans) :
    Ordered start stop spans' :=
  ⟨h.le, fun s hmem => h.within s (hs.subset hmem), h.pairwise.sublist hs⟩

/-- Spans that stand one behind the other are sorted. -/
theorem sorted (h : Ordered start stop spans) :
    spans.Pairwise fun a b => Span.le a b = true := by
  refine h.pairwise.imp_of_mem fun {a b} ha hb hab => ?_
  have := h.within a ha
  have := h.within b hb
  rw [Span.le, Bool.or_eq_true, Bool.and_eq_true, decide_eq_true_eq, decide_eq_true_eq,
    decide_eq_true_eq]
  omega

end Ordered

/-! ### Names found in order -/

/-- The names stand in a text one behind the other, between two offsets. -/
def InOrder (t : Text) (start stop : ℕ) : List Text → Prop
  | [] => start ≤ stop
  | name :: names =>
    ∃ k, start ≤ k ∧ name <+: t.drop k ∧ InOrder t (k + name.length) stop names

theorem InOrder.mono {start' : ℕ} {names : List Text} (hstart : start' ≤ start)
    (h : InOrder t start stop names) : InOrder t start' stop names := by
  cases names with
  | nil => exact hstart.trans h
  | cons name names =>
      obtain ⟨k, hk, hname, h⟩ := h
      exact ⟨k, hstart.trans hk, hname, h⟩

theorem InOrder.le {names : List Text} (h : InOrder t start stop names) : start ≤ stop := by
  induction names generalizing start with
  | nil => exact h
  | cons name names ih =>
      obtain ⟨k, hk, -, h⟩ := h
      exact (hk.trans (Nat.le_add_right k _)).trans (ih h)

theorem exists_findFrom {needle : Text} {k : ℕ} (hstart : start ≤ t.length) (hk : start ≤ k)
    (h : needle <+: t.drop k) :
    ∃ j, start ≤ j ∧ j ≤ k ∧ Text.findFrom? t needle start = some j := by
  have hdrop : (t.drop start).drop (k - start) = t.drop k := by
    rw [List.drop_drop, Nat.add_sub_cancel' hk]
  obtain ⟨j, hj, hfound⟩ := Text.exists_find (hdrop ▸ h)
  refine ⟨start + j, Nat.le_add_right start j, by omega, ?_⟩
  rw [Text.findFrom?, hfound, Nat.min_eq_left hstart]
  rfl

/-- The names that stand in order are found in order. -/
theorem locate_ordered {names : List Text} (hstop : stop ≤ t.length)
    (h : InOrder t start stop names) (fallback : Span) :
    Ordered start stop ((locate t fallback start names).map (·.2)) := by
  induction names generalizing start with
  | nil => exact Ordered.nil h
  | cons name names ih =>
      have hstart := h.le.trans hstop
      obtain ⟨k, hk, hname, h⟩ := h
      obtain ⟨j, hj, hjk, hfound⟩ := exists_findFrom hstart hk hname
      have hrest := ih (h.mono (Nat.add_le_add_right hjk name.length))
      have hfirst : Ordered start (j + name.length) [Span.ofLength j name.length] :=
        .ofLength hj name.length
      rw [locate, hfound]
      exact hfirst.append hrest (Nat.le_refl _)

theorem InOrder.atomBefore {name rest : Text} {k : ℕ} {names : List Text}
    (h : InOrder t (k + name.length) stop names) (hname : name ++ rest <+: t.drop k) (i : ℕ) :
    InOrder t k stop ((Selector.atomBefore name i).map (·.name) ++ names) := by
  unfold Selector.atomBefore
  split
  · exact h.mono (Nat.le_add_right k _)
  · exact ⟨k, Nat.le_refl k, (List.prefix_append name rest).trans hname, h⟩

/-- The names of what is left of a selector stand there in order. -/
theorem atomsFrom_inOrder {name r : Text} {k : ℕ} (h : name ++ r <+: t.drop k) (i : ℕ) :
    InOrder t k (k + (name ++ r).length) ((Selector.atomsFrom name i r).map (·.name)) := by
  induction r generalizing name k i with
  | nil =>
      have hnil : InOrder t (k + name.length) (k + (name ++ []).length) [] := by
        rw [List.append_nil]
        exact Nat.le_refl _
      rw [Selector.atomsFrom, ← List.append_nil ((Selector.atomBefore name i).map _)]
      exact hnil.atomBefore h i
  | cons c r ih =>
      rw [Selector.atomsFrom]
      split
      · have hrest : [] ++ r <+: t.drop (k + name.length + 1) := by
          obtain ⟨rest, hrest⟩ := h
          refine ⟨rest, ?_⟩
          rw [← List.drop_drop, ← List.drop_drop, ← hrest]
          simp
        have hstop : k + name.length + 1 + ([] ++ r).length = k + (name ++ c :: r).length := by
          simp only [List.length_append, List.length_cons, List.length_nil]
          omega
        rw [List.map_append]
        exact ((hstop ▸ ih hrest (i + 1)).mono (Nat.le_succ _)).atomBefore h i
      · have hname : name ++ [c] ++ r = name ++ c :: r := by
          rw [List.append_assoc, List.singleton_append]
        have := ih (hname ▸ h) (i + 1)
        rwa [hname] at this

/-! ### One selector -/

/-- What is told about the unknown scopes of a selector. -/
def unknownMessages (r : Registry) (selector : Text) : List Text :=
  ((Selector.names selector).filter fun name => !Scope.isKnown r name).map fun name =>
    "Unknown scope " ++ quoted name

variable {r : Registry}

theorem messages_atomFindings (selector : Text) (fallback : Span) :
    (atomFindings t selector start fallback r).map (·.message) = unknownMessages r selector := by
  have hlocated := map_fst_locate t fallback start (Selector.names selector)
  rw [unknownMessages, ← hlocated, List.filter_map, List.map_map]
  exact List.map_map

theorem atomFindings_ordered {selector : Text} (hstart : start + selector.length ≤ t.length)
    (h : selector <+: t.drop start) (fallback : Span) :
    Ordered start (start + selector.length)
      ((atomFindings t selector start fallback r).map (·.span)) := by
  have hnames : InOrder t start (start + selector.length) (Selector.names selector) :=
    @atomsFrom_inOrder t [] selector start h 0
  refine (locate_ordered hstart hnames fallback).sublist ?_
  rw [atomFindings, List.map_map]
  exact List.filter_sublist.map _

/-! ### Lines by their offsets -/

/-- Lines with the offsets where they begin, the first one at `offset`. -/
def linesFrom (offset : ℕ) : List Text → List (ℕ × Text)
  | [] => []
  | line :: lines => (offset, line) :: linesFrom (offset + line.length + 1) lines

/-- The lines of a text behind the first one. -/
def laterLines (t : Text) : List (ℕ × Text) := (linesFrom 0 (Text.splitOn '\n' t)).tail

theorem map_snd_linesFrom (offset : ℕ) (lines : List Text) :
    (linesFrom offset lines).map (·.2) = lines := by
  induction lines generalizing offset with
  | nil => rfl
  | cons line lines ih => rw [linesFrom, List.map_cons, ih]

theorem linesFrom_splitOn (offset : ℕ) (behind : Text) :
    linesFrom offset (Text.splitOn '\n' behind) =
      (offset, Text.lineOf behind) :: (linesFrom offset (Text.splitOn '\n' behind)).tail := by
  rw [Text.head_splitOn, linesFrom]
  rfl

/-- Behind the first line of a text the next one begins. -/
theorem linesFrom_tail {line : Text} (hline : CodeUnit.ofBasic '\n' ∉ line) (offset : ℕ)
    (behind : Text) :
    (linesFrom offset (Text.splitOn '\n' (line ++ CodeUnit.ofBasic '\n' :: behind))).tail =
      linesFrom (offset + line.length + 1) (Text.splitOn '\n' behind) := by
  rw [Text.splitOn_append hline, linesFrom]
  rfl

/-- The lines behind the first one begin behind the line breaks. -/
theorem linesFrom_tail_cons (offset : ℕ) (c : CodeUnit) (rest : Text) :
    (linesFrom offset (Text.splitOn '\n' (c :: rest))).tail =
      if c = CodeUnit.ofBasic '\n' then
        (offset + 1, Text.lineOf rest) :: (linesFrom (offset + 1) (Text.splitOn '\n' rest)).tail
      else (linesFrom (offset + 1) (Text.splitOn '\n' rest)).tail := by
  split
  · rename_i hc
    rw [← linesFrom_splitOn, hc]
    exact @linesFrom_tail [] nofun offset rest
  · rename_i hc
    rw [Text.splitOn, if_neg hc, Text.head_splitOn rest]
    simp only [linesFrom, List.tail_cons, List.length_cons]
    rw [Nat.add_right_comm offset _ 1, ← Nat.add_assoc]

/-- The offsets behind the line breaks are those of the lines there. -/
theorem lineStarts_eq (offset : ℕ) (behind : Text) :
    lineStarts offset behind =
      (linesFrom offset (Text.splitOn '\n' behind)).tail.map (·.1) := by
  induction behind generalizing offset with
  | nil => rfl
  | cons c rest ih =>
      rw [lineStarts, linesFrom_tail_cons, ih]
      split <;> rfl

theorem mem_linesFrom {before rest : Text} {l : ℕ × Text} (ht : t = before ++ rest)
    (hl : l ∈ (linesFrom before.length (Text.splitOn '\n' rest)).tail) :
    ∃ before' behind, t = before' ++ CodeUnit.ofBasic '\n' :: behind ∧
      l = (before'.length + 1, Text.lineOf behind) := by
  induction rest generalizing before with
  | nil => cases hl
  | cons c rest ih =>
      have hnext : t = before ++ [c] ++ rest := by
        rw [ht, List.append_assoc]
        rfl
      have hlength : before.length + 1 = (before ++ [c]).length := by
        rw [List.length_append, List.length_singleton]
      rw [linesFrom_tail_cons, hlength] at hl
      split at hl
      · rename_i hc
        rcases List.mem_cons.mp hl with rfl | hl
        · exact ⟨before, rest, hc ▸ ht, by rw [hlength]⟩
        · exact ih hnext hl
      · exact ih hnext hl

/-- A line behind the first one stands behind a line break. -/
theorem exists_of_mem_laterLines {l : ℕ × Text} (hl : l ∈ laterLines t) :
    ∃ before behind, t = before ++ CodeUnit.ofBasic '\n' :: behind ∧
      l = (before.length + 1, Text.lineOf behind) :=
  @mem_linesFrom t [] t l rfl hl

/-! ### Findings in the lines -/

theorem dropClosing_isPrefix (closing : Option Text) (selector : Text) :
    dropClosing closing selector <+: selector := by
  unfold dropClosing
  split
  · exact List.prefix_refl selector
  · have htrimmed : selector.trimEnd <+: selector := by
      obtain ⟨blanks, -, hselector⟩ := Text.exists_blanks_trimEnd selector
      exact ⟨blanks, hselector.symm⟩
    simp only
    split
    · exact (List.take_prefix _ _).trans htrimmed
    · exact List.prefix_refl selector

/-- What is told about one line. -/
def lineMessages (h : Header) (r : Registry) (line : Text) : List Text :=
  match selectorOf? h line with
  | some selector => unknownMessages r (dropClosing h.stop selector)
  | none => []

variable {h : Header} {before behind : Text}

theorem assertion_behind (hheader : header? t = some h)
    (ht : t = before ++ CodeUnit.ofBasic '\n' :: behind) :
    assertion? t h (before.length + 1) =
      (selectorColumn? h (Text.lineOf behind)).map fun column =>
        (dropClosing h.stop ((Text.lineOf behind).drop column), before.length + 1 + column,
          ⟨(before.length + 1 + column : ℕ),
            (before.length + 1 : ℕ) + (Text.lineOf behind).length⟩) := by
  have hdetails := SyntaxTest.details_behind hheader ht
  have htext : SyntaxTest.lineText t _ = Text.lineOf behind :=
    ht ▸ SyntaxTest.lineText_behind before behind
  simp only [assertion?, hdetails, htext, selectorColumn?]
  cases SyntaxTest.markerOf? h (Text.lineOf behind) with
  | none => rfl
  | some marker =>
      cases hmark : SyntaxTest.assertionMark? ((Text.lineOf behind).drop marker.stop) with
      | none => simp [hmark]
      | some mark => simp [hmark]

theorem messages_line (hheader : header? t = some h)
    (ht : t = before ++ CodeUnit.ofBasic '\n' :: behind) :
    (assertionLineFindings t h r (before.length + 1)).map (·.message) =
      lineMessages h r (Text.lineOf behind) := by
  rw [assertionLineFindings, assertion_behind hheader ht, lineMessages, selectorOf?]
  cases selectorColumn? h (Text.lineOf behind) with
  | none => rfl
  | some column => exact messages_atomFindings _ _

theorem line_ordered (hheader : header? t = some h)
    (ht : t = before ++ CodeUnit.ofBasic '\n' :: behind) :
    Ordered (before.length + 1) (before.length + 1 + (Text.lineOf behind).length)
      ((assertionLineFindings t h r (before.length + 1)).map (·.span)) := by
  rw [assertionLineFindings, assertion_behind hheader ht]
  cases hcolumn : selectorColumn? h (Text.lineOf behind) with
  | none => exact .nil (Nat.le_add_right _ _)
  | some column =>
      have hcolumn := selectorColumn_le hcolumn
      obtain ⟨more, hmore⟩ := Text.lineOf_isPrefix behind
      have hselector := dropClosing_isPrefix h.stop ((Text.lineOf behind).drop column)
      have hlength := hselector.length_le
      rw [List.length_drop] at hlength
      have hstop : before.length + 1 + (Text.lineOf behind).length ≤ t.length := by
        have := (Text.lineOf_isPrefix behind).length_le
        rw [ht, List.length_append, List.length_cons]
        omega
      have hdrop : t.drop (before.length + 1 + column) = behind.drop column := by
        rw [← List.drop_drop, ht, Text.drop_behind]
      have hplace : (Text.lineOf behind).drop column <+: t.drop (before.length + 1 + column) := by
        refine ⟨more, ?_⟩
        rw [← List.drop_append_of_le_length hcolumn, hmore, hdrop]
      have hordered := atomFindings_ordered (r := r) (by omega) (hselector.trans hplace)
      exact (hordered _).mono (Nat.le_add_right _ column) (by omega)

/-- What is told about the lines behind the first one. -/
theorem messages_lines (hheader : header? t = some h) :
    ((lineStarts 0 t).flatMap (assertionLineFindings t h r)).map (·.message) =
      (Text.splitOn '\n' t).tail.flatMap (lineMessages h r) := by
  have hlines : (Text.splitOn '\n' t).tail = (laterLines t).map (·.2) := by
    rw [laterLines, List.map_tail, map_snd_linesFrom]
  rw [lineStarts_eq, hlines, List.flatMap_map, List.flatMap_map, List.map_flatMap]
  refine List.flatMap_congr fun l hl => ?_
  obtain ⟨before, behind, ht, rfl⟩ := exists_of_mem_laterLines hl
  exact messages_line hheader ht

theorem lines_ordered (hheader : header? t = some h) (ht : t = before ++ behind) :
    Ordered (before.length + (Text.lineOf behind).length) t.length
      (((lineStarts before.length behind).flatMap (assertionLineFindings t h r)).map (·.span)) := by
  induction behind generalizing before with
  | nil => exact .nil (by rw [ht]; simp [Text.lineOf])
  | cons c rest ih =>
      have hbehind : t = before ++ [c] ++ rest := by
        rw [ht, List.append_assoc]
        rfl
      have hrest := ih hbehind
      rw [List.length_append, List.length_singleton] at hrest
      rw [lineStarts]
      by_cases hc : c = CodeUnit.ofBasic '\n'
      · have hline := line_ordered (r := r) hheader (hc ▸ ht)
        rw [if_pos hc, List.flatMap_cons, List.map_append]
        refine (hline.append hrest (Nat.le_refl _)).mono ?_ (Nat.le_refl _)
        rw [Text.lineOf, List.takeWhile_cons_of_neg (by simpa using hc)]
        exact Nat.le_succ _
      · have hlength : (Text.lineOf (c :: rest)).length = (Text.lineOf rest).length + 1 := by
          rw [Text.lineOf, List.takeWhile_cons_of_pos (by simpa using hc)]
          rfl
        rw [if_neg hc]
        exact hrest.mono (by omega) (Nat.le_refl _)

/-! ### The header -/

/-- What is told about the syntax that a line names. -/
def syntaxMessages (r : Registry) (line : Text) : List Text :=
  match quotedText? 0 line with
  | some (_, path) =>
    if r.snapshot.hasSyntax path then [] else ["Unknown syntax " ++ quoted path]
  | none => []

theorem messages_headerFindings (hheader : header? t = some h) :
    (headerFindings t r).map (·.message) = syntaxMessages r (SyntaxTest.firstLine t) := by
  obtain ⟨k, q, hfirst, hwhole, -⟩ := exists_firstQuoted_header hheader
  rw [headerFindings, quotedText_zero_iff.mpr hwhole, syntaxMessages,
    quotedText_zero_iff.mpr hfirst]
  simp only
  split <;> rfl

theorem headerFindings_ordered (hheader : header? t = some h) :
    Ordered 0 (Text.lineOf t).length ((headerFindings t r).map (·.span)) := by
  obtain ⟨k, q, -, hwhole, hstop⟩ := exists_firstQuoted_header hheader
  rw [headerFindings, quotedText_zero_iff.mpr hwhole]
  simp only
  split
  · exact .nil (Nat.zero_le _)
  · exact (Ordered.ofLength (Nat.zero_le k) q.length).mono (Nat.le_refl 0) hstop

/-! ### The whole test -/

/-- What is told about a syntax test. -/
def testMessages (r : Registry) (t : Text) : List Text :=
  match header? t with
  | none => []
  | some h =>
    if r.isEmpty then []
    else syntaxMessages r (SyntaxTest.firstLine t) ++
      (Text.splitOn '\n' t).tail.flatMap (lineMessages h r)

theorem messages_assertionFindings (t : Text) (r : Registry) :
    (assertionFindings t r).map (·.message) = testMessages r t := by
  unfold assertionFindings testMessages
  cases hheader : header? t with
  | none => rfl
  | some h =>
      cases r.isEmpty with
      | true => rfl
      | false =>
          simp only [Bool.false_eq_true, if_false]
          rw [List.map_append, messages_headerFindings hheader, messages_lines hheader]

/-- The findings in a syntax test stand in the order of their places. -/
theorem assertionFindings_ordered (t : Text) (r : Registry) :
    Ordered 0 t.length ((assertionFindings t r).map (·.span)) := by
  unfold assertionFindings
  cases hheader : header? t with
  | none => exact .nil (Nat.zero_le _)
  | some h =>
      cases r.isEmpty with
      | true => exact .nil (Nat.zero_le _)
      | false =>
          have hlines := lines_ordered (r := r) hheader (List.nil_append t).symm
          rw [List.length_nil, Nat.zero_add] at hlines
          simp only [Bool.false_eq_true, if_false]
          rw [List.map_append]
          exact (headerFindings_ordered hheader).append hlines (Nat.le_refl _)

/-- The messages about a syntax test, in the order in which they are told. -/
theorem messages_validate (t : Text) (r : Registry) (checks : Checks) :
    (validate t .syntaxTest r checks).map (·.message) =
      if checks.unknownScopes then testMessages r t else [] := by
  have hsorted : (assertionFindings t r).Pairwise fun a b => Finding.le a b = true :=
    List.pairwise_map.mp (assertionFindings_ordered t r).sorted
  simp only [validate, if_true, when']
  cases checks.unknownScopes with
  | true =>
      simp only [if_true]
      rw [List.mergeSort_of_pairwise hsorted, messages_assertionFindings]
  | false => simp

end Validation
end Scopewright
