import Scopewright.Cursor.SyntaxTest
import Scopewright.Proofs.SyntaxTest.Completed

/-! # What is put in for a suggestion

The selection is reckoned in columns, and a character of several units is put in as often as there are
columns.  So the text that is meant stands behind the selection by the units that are left out, and it
is selected just when the character is one unit (`selected_iff`).

What is written behind the marker of an assertion is what a cursor at its end stands on
(`resolve_written`).  Behind a run of carets that is the suggested selector; behind an arrow the dash
stands once more, and the selector begins with it (`resolve_suggestion`). -/

namespace Scopewright
namespace SyntaxTest

open Text (lineOf)
open Cursor.SyntaxTest (assertionText? resolve single)

variable {h : Header} {t front indent gap x w ending character : Text} {above : List Text}
  {start stop : ℕ} {columns : Columns} {scopes : List Text} {baseScope fileName : Option Text}
  {s : Suggestion} {c : Completed}

/-! ### What is selected -/

/-- What stands between two places behind a part of a text. -/
theorem between_append {front rest : Text} {k n : ℕ} (h : k + n ≤ rest.length) :
    (front ++ rest).between ((front.length + k : ℕ) : ℤ) (((front.length + k : ℕ) : ℤ) + n) =
      (rest.drop k).take n := by
  rw [Text.between_drop (by rw [List.length_append]; omega), List.drop_append,
    List.drop_of_length_le (Nat.le_add_right _ k), Nat.add_sub_cancel_left, List.nil_append]

/-- What stands `k` units behind the character that is typed, when it is typed once and repeated. -/
theorem between_suggestion (hstart : start ≤ t.length) (stop : ℕ) (c : Completed) {k : ℕ}
    (hk : k ≤ c.length * character.length) :
    (typedOver t ⟨start, stop⟩ (c.text character)).between ((start + character.length + k : ℕ) : ℤ)
        (((start + character.length + k : ℕ) : ℤ) + c.tail.length) =
      ((List.replicate c.length character).flatten.drop k ++ c.tail).take c.tail.length := by
  have hlength := length_repeated c.length character
  have hfront : (t.take start ++ character).length = start + character.length := by
    rw [List.length_append, List.length_take_of_le hstart]
  have hafter : typedOver t ⟨start, stop⟩ (c.text character) = t.take start ++ character ++
      ((List.replicate c.length character).flatten ++ (c.tail ++ t.drop stop)) := by
    rw [typedOver_eq, Completed.text]
    simp only [List.append_assoc]
  rw [hafter, ← hfront,
    between_append (by simp only [List.length_append, hlength]; omega),
    List.drop_append_of_le_length (hlength ▸ hk), ← List.append_assoc,
    List.take_append_of_le_length (by simp only [List.length_append]; omega)]

/-- A character of one unit leaves no repetitions over. -/
theorem repeated_drop_of_unit {n : ℕ} (hunit : character.length = 1) :
    (List.replicate n character).flatten.drop n = [] := by
  refine List.drop_of_length_le ?_
  rw [length_repeated, hunit, Nat.mul_one]

/-- What comes behind the marker does not begin as a longer character without a space goes on. -/
theorem tail_not_prefix {n : ℕ} (hn : n < n * character.length)
    (hspace : CodeUnit.ofBasic ' ' ∉ character) :
    ¬ c.tail <+: (List.replicate n character).flatten.drop n ++ c.tail := by
  intro hprefix
  obtain ⟨d, rest, hdrop⟩ : ∃ d rest, (List.replicate n character).flatten.drop n = d :: rest := by
    refine List.exists_cons_of_ne_nil fun hnil => ?_
    have hle := List.drop_eq_nil_iff.mp hnil
    rw [length_repeated] at hle
    exact Nat.not_le_of_lt hn hle
  have htail : c.tail = CodeUnit.ofBasic ' ' :: (Text.join " " c.names ++ c.ending) := rfl
  rw [hdrop, htail, List.cons_append, List.cons_prefix_cons] at hprefix
  have hmem : d ∈ character :=
    mem_of_mem_repeated (List.mem_of_mem_drop (hdrop ▸ List.mem_cons_self))
  rw [← hprefix.1] at hmem
  exact hspace hmem

/-- **What is selected.**  Behind the marker stand a space, the suggested names and what closes the
comment, further back than the selection by what the repetitions have more than one unit each.  The
selection has them when that is nothing, and otherwise only if they begin as the repetitions go on;
so never when the character has no space. -/
theorem selected_iff (hstart : start ≤ t.length) (hcharacter : character ≠ [])
    (hs : suggest? t ⟨start, stop⟩ scopes baseScope fileName character = some s) :
    ∃ c, completion? t ⟨start, stop⟩ scopes baseScope fileName character = some c ∧
      s = c.suggestion ⟨start, stop⟩ character ∧
      let after := typedOver t s.edit s.text
      let missed := (character.length - 1) * c.length
      let repeated := (List.replicate c.length character).flatten
      after.between (s.selection.start + missed) (s.selection.stop + missed) = c.tail ∧
      (after.between s.selection.start s.selection.stop = c.tail ↔
        c.tail <+: repeated.drop c.length ++ c.tail) ∧
      (character.length = 1 ∨ CodeUnit.ofBasic ' ' ∉ character →
        (after.between s.selection.start s.selection.stop = c.tail ↔ character.length = 1)) := by
  obtain ⟨c, hc, rfl⟩ := suggest_iff.mp hs
  refine ⟨c, hc, rfl, ?_⟩
  intro after missed repeated
  obtain ⟨-, -, hpos, -, -⟩ := of_completion hc
  have hunits := List.length_pos_iff.mpr hcharacter
  have hlength := length_repeated c.length character
  have hle : c.length ≤ c.length * character.length := Nat.le_mul_of_pos_right _ hunits
  have hmissed : c.length + missed = c.length * character.length := by
    rw [show missed = (character.length - 1) * c.length from rfl, Nat.sub_mul, Nat.one_mul,
      Nat.mul_comm]
    omega
  have hbehind := between_suggestion hstart stop c
    (Nat.le_refl (c.length * character.length))
  have hselected : after.between (start + character.length + c.length)
      (start + character.length + c.length + c.tail.length) =
        (repeated.drop c.length ++ c.tail).take c.tail.length := by
    have := between_suggestion hstart stop c hle
    push_cast at this
    exact this
  have hiff : after.between (start + character.length + c.length)
      (start + character.length + c.length + c.tail.length) = c.tail ↔
        c.tail <+: repeated.drop c.length ++ c.tail := by
    rw [hselected, List.prefix_iff_eq_take, eq_comm]
  refine ⟨?_, hiff, fun hunit => hiff.trans ⟨fun hprefix => ?_, fun hone => ?_⟩⟩
  · have hplace : (start : ℤ) + character.length + c.length + missed =
        (start + character.length + c.length * character.length : ℕ) := by omega
    rw [List.drop_of_length_le (Nat.le_of_eq hlength), List.nil_append, List.take_length,
      ← hplace] at hbehind
    refine Eq.trans (congrArg _ ?_) hbehind
    exact Int.add_right_comm _ _ _
  · refine hunit.elim id fun hspace => Decidable.by_contra fun hne => ?_
    exact tail_not_prefix ((Nat.lt_mul_iff_one_lt_right hpos).mpr (by omega)) hspace hprefix
  · rw [repeated_drop_of_unit hone]
    exact List.prefix_refl _

/-- Behind carets the name and the end of the comment are selected. -/
theorem selected_caret :
    let t : Text := "/* SYNTAX TEST \"s\" */\nabcd\n/*"
    let scopes : List Text := ["a b", "a b", "a c", "a c", "a c"]
    ∃ s, suggest? t ⟨(29 : ℕ), (29 : ℕ)⟩ scopes (some "a") none "^" = some s ∧ s.text = "^^^ c */" ∧
      (typedOver t s.edit s.text).between s.selection.start s.selection.stop = " c */" := by
  intro t scopes
  have hs : suggest? t ⟨(29 : ℕ), (29 : ℕ)⟩ scopes (some "a") none "^" =
      some ⟨⟨29, 29⟩, "^^^ c */", ⟨32, 37⟩⟩ := by decide +kernel
  have hc : completion? t ⟨(29 : ℕ), (29 : ℕ)⟩ scopes (some "a") none "^" =
      some ⟨2, ["c"], " */"⟩ := by decide +kernel
  obtain ⟨c, hc', -, -, -, hiff⟩ := selected_iff (by decide) (by decide) hs
  obtain rfl := Option.some.inj (hc'.symm.trans hc)
  exact ⟨_, hs, rfl, (hiff (.inl rfl)).mpr rfl⟩

/-- When an arrow is typed as one character, what is selected begins one unit too early. -/
theorem selected_arrow :
    let t : Text := "# SYNTAX TEST \"s\"\nab\n#"
    let s : Suggestion := ⟨⟨22, 22⟩, "<-<- x", ⟨25, 27⟩⟩
    let c : Completed := ⟨1, ["x"], []⟩
    suggest? t ⟨(22 : ℕ), (22 : ℕ)⟩ ["x"] none none "<-" = some s ∧
      completion? t ⟨(22 : ℕ), (22 : ℕ)⟩ ["x"] none none "<-" = some c ∧ c.tail = " x" ∧
      (typedOver t s.edit s.text).between s.selection.start s.selection.stop = "- " := by
  decide +kernel

/-! ### Reading -/

/-- A character that is typed behind `front` goes on with an assertion: a caret with its run, or as the
first one, and a dash with an arrow. -/
inductive GoesOn (h : Header) : Text → Text → Prop
  | caret {indent gap : Text} (hindent : ∀ c ∈ indent, c.isBlank = true)
      (hgap : ∀ c ∈ gap, c.isBlank = true) (n : ℕ) :
      GoesOn h (indent ++ h.start ++ gap ++ List.replicate n (CodeUnit.ofBasic '^')) "^"
  | dash {indent gap : Text} (hindent : ∀ c ∈ indent, c.isBlank = true)
      (hgap : ∀ c ∈ gap, c.isBlank = true) :
      GoesOn h (indent ++ h.start ++ gap ++ "<") "-"

/-- A character that goes on with an assertion is one unit and no line break. -/
theorem GoesOn.unit (hgoes : GoesOn h front character) :
    character.length = 1 ∧ CodeUnit.ofBasic '\n' ∉ character := by
  cases hgoes with
  | caret => exact ⟨rfl, by decide⟩
  | dash => exact ⟨rfl, by decide⟩

/-- Behind the first line the selector is all that is looked for. -/
theorem resolve_assertion {offset : ℤ} {text : Text} (hlater : (details t offset none).line.start ≠ 0)
    (htext : assertionText? t (details t offset none) offset = some text) :
    resolve t offset = single "assertion" text offset none := by
  rw [resolve]
  simp only [if_neg hlater, htext]

/-- What is written behind the front of a line, up to the cursor. -/
theorem between_written {head : Text} (hp : Place t start fileName h above front)
    (hline : front ++ x = head ++ w) (stop : ℕ) {offset : ℤ}
    (hoffset : offset = ((Text.ofAbove above ++ head).length : ℕ)) :
    offset ≤ start + x.length ∧
      (typedOver t ⟨start, stop⟩ x).between offset (start + x.length) = w := by
  have hend : (start : ℤ) + x.length = offset + w.length := by
    rw [hp.offset_eq, hline, ← List.append_assoc, List.length_append, hoffset]
    rfl
  have hbegin : offset = ((Text.ofAbove above ++ head).length + 0 : ℕ) := hoffset
  refine ⟨by omega, ?_⟩
  rw [hp.typedOver_eq, hline, hend, hbegin, ← List.append_assoc, List.append_assoc _ w,
    between_append (by rw [List.length_append]; omega), List.drop_zero, List.take_left]

/-- The cursor behind what is written stands on the selector, without white space in front. -/
theorem resolve_written {head : Text} (hp : Place t start none h above front)
    (hstart : IsWord h.start) (hx : CodeUnit.ofBasic '\n' ∉ x) (hline : front ++ x = head ++ w)
    (stop : ℕ)
    (hasserts : Asserts h (front ++ x ++ lineOf (t.drop stop)) head (w ++ lineOf (t.drop stop))) :
    resolve (typedOver t ⟨start, stop⟩ x) (start + x.length) =
      single "assertion" (Text.trimStart w) (start + x.length) none := by
  have hcolumn := (selectorColumn_iff hstart).mpr ⟨head, _, hasserts, rfl⟩
  obtain ⟨marker, hmarker, hcolumn⟩ := Option.bind_eq_some_iff.mp hcolumn
  obtain ⟨mark, hmark, hcolumn⟩ := Option.bind_eq_some_iff.mp hcolumn
  have hcolumn : marker.stop + mark.length = head.length := Option.some.inj hcolumn
  obtain ⟨columns, hcolumns⟩ : ∃ columns,
      assertionIn? h (front ++ x ++ lineOf (t.drop stop)) = some columns := by
    rw [assertionIn?, hmarker, Option.bind_some, assertionOf?, hmark]
    exact ⟨_, rfl⟩
  have hdetails := hp.details_typed hx stop
  refine resolve_assertion ?_ (hdetails ▸ ?_)
  · obtain ⟨line, above', rfl⟩ := List.exists_cons_of_ne_nil hp.above_ne_nil
    rw [hdetails, lineDetails, Text.length_ofAbove]
    exact Int.natCast_ne_zero.mpr (Nat.succ_ne_zero _)
  · obtain ⟨hle, hwritten⟩ := @between_written _ _ _ _ w above start none head hp hline stop
      ((Text.ofAbove above).length + marker.stop + mark.length)
      (by rw [List.length_append]; omega)
    simp only [assertionText?, lineDetails, hp.typedOver_eq, lineText_place, hmarker, hcolumns,
      hmark, Option.bind_eq_bind, Option.bind_some, if_neg (Int.not_lt.mpr hle)]
    rw [← hp.typedOver_eq, hwritten]
    rfl

/-- An arrow is about the column of the comment token. -/
theorem assertionIn_arrow (hstart : IsWord h.start) (hindent : ∀ c ∈ indent, c.isBlank = true)
    (hgap : ∀ c ∈ gap, c.isBlank = true) (w : Text) :
    assertionIn? h (indent ++ h.start ++ gap ++ "<-" ++ w) = some ⟨indent.length, indent.length⟩ := by
  have hmarker : markerOf? h (indent ++ h.start ++ gap ++ "<-" ++ w) =
      some ⟨indent.length, indent.length + h.start.length⟩ :=
    (markerOf_iff hstart).mpr ⟨indent, gap ++ "<-" ++ w, hindent, by simp only [List.append_assoc], rfl⟩
  have hbody : ∀ c ∈ ("<-" ++ w : Text).head?, c.isBlank = false := by
    intro c hc
    rw [← Option.some.inj hc]
    decide
  rw [assertionIn?, hmarker, Option.bind_some, assertionOf?, ← List.length_append,
    List.append_assoc, List.append_assoc, List.drop_left, assertionMark_append hgap hbody]
  rfl

theorem length_of_isArrow {cursor : Option ℤ} {lineLength : ℤ} (harrow : columns.IsArrow)
    (hc : columns.complete? cursor lineLength scopes baseScope ending = some c) : c.length = 1 := by
  obtain ⟨column, n, -, -, -, scope, -, rfl⟩ := complete_iff.mp hc
  exact if_pos harrow

/-! ### Trimming -/

/-- What is suggested begins with a name, or there is none. -/
theorem trimStart_eq_iff {names : List Text} (hnames : ∀ name ∈ names, IsWord name)
    (hending : ending = [] ∨ ∃ stop, ending = " " ++ stop) :
    Text.trimStart (Text.join " " names ++ ending) = Text.join " " names ++ ending ↔
      names ≠ [] ∨ ending = [] := by
  cases names with
  | nil =>
      refine Iff.trans ?_ (or_iff_right fun hne => hne rfl).symm
      rcases hending with rfl | ⟨stop, rfl⟩
      · exact iff_of_true rfl rfl
      · refine iff_of_false (fun htrim => ?_) (List.cons_ne_nil _ _)
        have hlength := congrArg List.length htrim
        have hle := (List.dropWhile_suffix (l := stop) CodeUnit.isBlank).length_le
        have hdrop : Text.trimStart (Text.join " " [] ++ (" " ++ stop)) =
            stop.dropWhile CodeUnit.isBlank := rfl
        have hspace : (Text.join " " [] ++ (" " ++ stop)).length = stop.length + 1 := rfl
        rw [hdrop, hspace] at hlength
        omega
  | cons name names =>
      refine iff_of_true ?_ (.inl (List.cons_ne_nil _ _))
      obtain ⟨hne, hword⟩ := hnames name List.mem_cons_self
      obtain ⟨d, rest, rfl⟩ := List.exists_cons_of_ne_nil hne
      have hjoin : ∃ more, Text.join " " ((d :: rest) :: names) ++ ending = d :: more := by
        cases names with
        | nil => exact ⟨_, congrArg (· ++ ending) List.intercalate_singleton⟩
        | cons next names => exact ⟨_, congrArg (· ++ ending) (Text.join_cons_cons _ _ _)⟩
      obtain ⟨more, hmore⟩ := hjoin
      rw [hmore, Text.trimStart, List.dropWhile_cons_of_neg]
      rw [hword d List.mem_cons_self]
      exact Bool.false_ne_true

/-- A dash that goes on with an assertion completes an arrow. -/
theorem GoesOn.length_eq_one (hgoes : GoesOn h front character)
    (hp : Place t start fileName h above front) (hdash : character = "-")
    (hc : completion? t ⟨start, stop⟩ scopes baseScope fileName character = some c) :
    c.length = 1 := by
  cases hgoes with
  | caret => exact absurd hdash (by decide)
  | @dash indent gap hindent hgap =>
      obtain ⟨path, line, hh⟩ := exists_heads (testHeader_iff.mp hp.header).2
      rw [hp.completion_eq (by decide)] at hc
      obtain ⟨columns, hcolumns, hc⟩ := Option.bind_eq_some_iff.mp hc
      have harrow := assertionIn_arrow hh.start_isWord hindent hgap (lineOf (t.drop stop))
      have hline : indent ++ h.start ++ gap ++ "<" ++ "-" ++ lineOf (t.drop stop) =
          indent ++ h.start ++ gap ++ "<-" ++ lineOf (t.drop stop) := by
        simp only [List.append_assoc]
        rfl
      rw [hline, harrow] at hcolumns
      exact length_of_isArrow (Option.some.inj hcolumns ▸ rfl) hc

/-- Where a character goes on with an assertion, what is put in ends with the tail of the suggestion;
behind an arrow the repeated dash is part of the selector. -/
theorem GoesOn.asserts (hgoes : GoesOn h front character) (hc : character = "-" → c.length = 1)
    (rest : Text) :
    ∃ head written, front ++ c.text character = head ++ written ∧
      Asserts h (front ++ c.text character ++ rest) head (written ++ rest) ∧
      (character = "^" ∧ written = c.tail ∨ character = "-" ∧ written = "-" ++ c.tail) := by
  cases hgoes with
  | @caret indent gap hindent hgap n =>
      have hline : indent ++ h.start ++ gap ++ List.replicate n (CodeUnit.ofBasic '^') ++ c.text "^" =
          indent ++ h.start ++ gap ++ List.replicate (n + c.length + 1) (CodeUnit.ofBasic '^') ++
            c.tail := by
        rw [text_caret, Nat.add_assoc, List.replicate_add, List.replicate_succ]
        simp only [List.append_assoc, List.cons_append]
      have hmark : IsMark (List.replicate (n + c.length + 1) (CodeUnit.ofBasic '^'))
          (c.tail ++ rest) :=
        .inr ⟨_, rfl, fun hhead => absurd (Option.some.inj hhead) (by decide)⟩
      refine ⟨_, _, hline, ⟨⟨indent, gap, _, hindent, hgap, hmark, rfl⟩, ?_⟩, .inl ⟨rfl, rfl⟩⟩
      rw [hline, List.append_assoc]
  | @dash indent gap hindent hgap =>
      have hline : indent ++ h.start ++ gap ++ "<" ++ c.text "-" =
          indent ++ h.start ++ gap ++ "<-" ++ ("-" ++ c.tail) := by
        rw [Completed.text, hc rfl]
        simp only [List.append_assoc]
        rfl
      refine ⟨_, _, hline, ⟨⟨indent, gap, "<-", hindent, hgap, .inl rfl, rfl⟩, ?_⟩, .inr ⟨rfl, rfl⟩⟩
      rw [hline, List.append_assoc]

/-- **What a suggestion is read as.**  When a character goes on with the assertion of its line, the
cursor at the end of what is suggested stands on the selector of the assertion.  For a caret that is
the suggested names with what closes the comment; for an arrow a dash stands in front of them, as the
character is put in once more. -/
theorem resolve_suggestion (hstart : start ≤ t.length) (hheader : header? t = some h)
    (hgoes : GoesOn h (Text.lastLine (t.take start)) character)
    (hs : suggest? t ⟨start, start⟩ scopes baseScope fileName character = some s) :
    ∃ c, completion? t ⟨start, start⟩ scopes baseScope fileName character = some c ∧
      s = c.suggestion ⟨start, start⟩ character ∧
      let suggested := Text.join " " c.names ++ c.ending
      let text := if character = "^" then Text.trimStart suggested else "-" ++ c.tail
      resolve (typedOver t s.edit s.text) s.selection.stop =
          single "assertion" text s.selection.stop none ∧
        (text = suggested ↔ character = "^" ∧ (c.names ≠ [] ∨ c.ending = [])) := by
  obtain ⟨c, hc, rfl⟩ := suggest_iff.mp hs
  refine ⟨c, hc, rfl, ?_⟩
  intro suggested text
  obtain ⟨hunit, hbreak⟩ := hgoes.unit
  have hne : character ≠ [] := List.ne_nil_of_length_eq_add_one hunit
  obtain ⟨h', above, front, hp⟩ := exists_place hstart hne hbreak hc
  obtain rfl := Option.some.inj (hheader.symm.trans (testHeader_iff.mp hp.header).2)
  rw [hp.take_eq, Text.lastLine_ofAbove above hp.break_notMem_front] at hgoes
  have hword := headerOfLine_start (Option.ite_none_left_eq_some.mp hheader).2
  -- the cursor is read without a file name, which the header makes up for
  have hread : Place t start none h above front :=
    { hp with header := testHeader_iff.mpr ⟨by rw [isTest, hheader]; rfl, hheader⟩ }
  have hbehind := blank_notMem_text hc (by decide) (by decide) hbreak
  obtain ⟨_, -, -, hnames, hending⟩ := of_completion hc
  obtain ⟨head, written, hline, hasserts, hwritten⟩ := 
    hgoes.asserts (hgoes.length_eq_one hp · hc) (lineOf (t.drop start))
  have hresolve := resolve_written hread hword hbehind hline start hasserts
  rw [← selection_stop c hunit] at hresolve
  rcases hwritten with ⟨rfl, rfl⟩ | ⟨rfl, rfl⟩
  · refine ⟨hresolve, (trimStart_eq_iff hnames ?_).trans (and_iff_right rfl).symm⟩
    exact hending.imp_right (Exists.imp fun stop hstop => hstop.2)
  · refine ⟨hresolve, iff_of_false (fun htext => ?_) fun hcaret => absurd hcaret.1 (by decide)⟩
    have hlonger : text.length = suggested.length + 2 := rfl
    rw [htext] at hlonger
    omega

/-- Behind carets the selector is read back, with the end of the comment. -/
theorem resolve_suggestion_caret :
    let t : Text := "/* SYNTAX TEST \"s\" */\nabcd\n/*"
    let scopes : List Text := ["a b", "a b", "a c", "a c", "a c"]
    let s : Suggestion := ⟨⟨29, 29⟩, "^^^ c */", ⟨32, 37⟩⟩
    suggest? t ⟨(29 : ℕ), (29 : ℕ)⟩ scopes (some "a") none "^" = some s ∧
      resolve (typedOver t s.edit s.text) s.selection.stop =
        single "assertion" "c */" s.selection.stop none := by
  intro t scopes s
  have hheader : header? t = some ⟨"/*", some "*/"⟩ := by decide
  have hs : suggest? t ⟨(29 : ℕ), (29 : ℕ)⟩ scopes (some "a") none "^" = some s := by decide +kernel
  have hc : completion? t ⟨(29 : ℕ), (29 : ℕ)⟩ scopes (some "a") none "^" =
      some ⟨2, ["c"], " */"⟩ := by decide +kernel
  have hgoes : GoesOn ⟨"/*", some "*/"⟩ (Text.lastLine (t.take 29)) "^" :=
    GoesOn.caret (List.forall_mem_nil _) (List.forall_mem_nil _) 0
  obtain ⟨c, hc', -, hresolve, -⟩ := resolve_suggestion (by decide) hheader hgoes hs
  obtain rfl := Option.some.inj (hc'.symm.trans hc)
  exact ⟨hs, hresolve⟩

/-- Behind an arrow the dash is read as the beginning of the selector, which excludes what is
suggested. -/
theorem resolve_suggestion_dash :
    let t : Text := "# SYNTAX TEST \"s\"\nab\n#<"
    let s : Suggestion := ⟨⟨23, 23⟩, "-- x", ⟨25, 27⟩⟩
    suggest? t ⟨(23 : ℕ), (23 : ℕ)⟩ ["x"] none none "-" = some s ∧
      completion? t ⟨(23 : ℕ), (23 : ℕ)⟩ ["x"] none none "-" = some ⟨1, ["x"], []⟩ ∧
      (resolve (typedOver t s.edit s.text) s.selection.stop).path = [.key "assertion"] ∧
      (resolve (typedOver t s.edit s.text) s.selection.stop).token.text = "- x" := by
  decide +kernel

end SyntaxTest
end Scopewright
