import Scopewright.Proofs.SyntaxTest.Walk
import Scopewright.SyntaxTest.Request

/-! # How assertions go on

A run of carets goes on over the columns of the tested line with the scope of the first one, and ends
at the first other one (`run_spec`).  The names that are suggested are words of that scope
(`isWord_of_mem_suggestedNames`), and each stack that is asserted has them
(`hasName_of_mem_suggestedNames`).

A suggestion is made only behind the first line of a test, and depends on its own line, on the length of
the tested line and on what stands behind the selection (`exists_place`, `Place.completion_eq`). -/

namespace Scopewright
namespace SyntaxTest

open Text (ofAbove lineOf)

variable {h : Header} {t typed : Text} {scopes : List Text} {baseScope fileName : Option Text}
  {c : Completed} {s : Suggestion} {scope ending character : Text} {columns : Columns} {start stop : ℕ}

/-! ### Runs of scopes -/

theorem runLength_spec (scope : Text) (l : List Text) :
    (∀ k < runLength scope l, l[k]? = some scope) ∧ l[runLength scope l]? ≠ some scope := by
  induction l with
  | nil => exact ⟨fun k hk => absurd hk (Nat.not_lt_zero k), nofun⟩
  | cons s l ih =>
      by_cases hs : s = scope
      · have hlength : runLength scope (s :: l) = runLength scope l + 1 := by
          rw [runLength, List.takeWhile_cons_of_pos (by simpa using hs), List.length_cons, runLength]
        rw [hlength]
        refine ⟨fun k hk => ?_, ih.2⟩
        cases k with
        | zero => exact congrArg some hs
        | succ k => exact ih.1 k (Nat.lt_of_succ_lt_succ hk)
      · have hlength : runLength scope (s :: l) = 0 := by
          rw [runLength, List.takeWhile_cons_of_neg (by simpa using hs), List.length_nil]
        rw [hlength]
        exact ⟨fun k hk => absurd hk (Nat.not_lt_zero k), fun heq => hs (Option.some.inj heq)⟩

/-- How far a scope goes on from a column, up to the end of a line and one column behind it. -/
def runFrom (scopes : List Text) (scope : Text) (column lineLength : ℕ) : ℕ :=
  runLength scope ((scopes.take (lineLength + 1)).drop column)

theorem getElem_drop_take (scopes : List Text) {column lineLength k : ℕ}
    (hk : column + k ≤ lineLength) :
    ((scopes.take (lineLength + 1)).drop column)[k]? = scopes[column + k]? := by
  rw [List.getElem?_drop, List.getElem?_take_of_lt (Nat.lt_succ_of_le hk)]

theorem getElem_drop_take_of_lt (scopes : List Text) {column lineLength k : ℕ}
    (hk : lineLength < column + k) :
    ((scopes.take (lineLength + 1)).drop column)[k]? = none := by
  rw [List.getElem?_drop, List.getElem?_take_eq_none hk]

/-- A run has one scope, does not leave the line, and ends in front of another scope. -/
theorem run_spec (scopes : List Text) (scope : Text) (column lineLength : ℕ) :
    (∀ k < runFrom scopes scope column lineLength,
      column + k ≤ lineLength ∧ scopes[column + k]? = some scope) ∧
      (column + runFrom scopes scope column lineLength ≤ lineLength →
        scopes[column + runFrom scopes scope column lineLength]? ≠ some scope) := by
  obtain ⟨hrun, hend⟩ := runLength_spec scope ((scopes.take (lineLength + 1)).drop column)
  refine ⟨fun k hk => ?_, fun hle => ?_⟩
  · have hscope := hrun k hk
    rcases Nat.lt_or_ge lineLength (column + k) with hlt | hle
    · rw [getElem_drop_take_of_lt scopes hlt] at hscope
      cases hscope
    · rw [getElem_drop_take scopes hle] at hscope
      exact ⟨hle, hscope⟩
  · rwa [← getElem_drop_take scopes hle]

/-- The column of the scope itself belongs to its run. -/
theorem run_pos {column lineLength : ℕ} (hcolumn : column ≤ lineLength)
    (hscope : scopes[column]? = some scope) : 0 < runFrom scopes scope column lineLength := by
  refine Nat.pos_of_ne_zero fun hzero => ?_
  have hend := (run_spec scopes scope column lineLength).2
  rw [hzero] at hend
  exact hend hcolumn hscope

/-! ### Names -/

/-- One of the scopes on a stack is the name or goes on behind it with a dot. -/
def HasName (stack name : Text) : Prop :=
  ∃ scope ∈ stack.words, scope = name ∨ name ++ ("." : Text) <+: scope

theorem stackMatches_iff {stack name : Text} : stackMatches stack name = true ↔ HasName stack name := by
  simp only [stackMatches, HasName, List.any_eq_true, Bool.or_eq_true, decide_eq_true_eq,
    List.isPrefixOf_iff_prefix]

theorem mem_sharedNames_of_mem {stackList : List Text} {name : Text}
    (hname : name ∈ suggestedNames stackList baseScope) : name ∈ sharedNames stackList := by
  unfold suggestedNames at hname
  split at hname
  · cases hname
  · rename_i first names hshared
    rw [hshared]
    split at hname
    · exact List.mem_cons_of_mem first hname
    · exact hname

theorem isWord_of_mem_suggestedNames {stackList : List Text} {name : Text}
    (hname : name ∈ suggestedNames stackList baseScope) : IsWord name := by
  have hshared := mem_sharedNames_of_mem hname
  unfold sharedNames at hshared
  split at hshared
  · cases hshared
  · exact Text.of_mem_words (List.mem_filter.mp hshared).1

theorem hasName_of_mem_suggestedNames {stackList : List Text} {name stack : Text}
    (hname : name ∈ suggestedNames stackList baseScope) (hstack : stack ∈ stackList) :
    HasName stack name := by
  have hshared := mem_sharedNames_of_mem hname
  unfold sharedNames at hshared
  split at hshared
  · cases hshared
  · exact stackMatches_iff.mp (List.all_eq_true.mp (List.mem_filter.mp hshared).2 stack hstack)

theorem mem_foldl_new {α : Type} [BEq α] [LawfulBEq α] {a : α} (l before : List α) :
    a ∈ l.foldl (fun seen s => if seen.contains s then seen else seen ++ [s]) before ↔
      a ∈ before ∨ a ∈ l := by
  induction l generalizing before with
  | nil => simp
  | cons s l ih =>
      rw [List.foldl_cons, ih]
      split
      · rename_i hs
        have hmem := List.contains_iff_mem.mp hs
        constructor
        · rintro (ha | ha)
          · exact .inl ha
          · exact .inr (List.mem_cons_of_mem s ha)
        · rintro (ha | ha)
          · exact .inl ha
          · rcases List.mem_cons.mp ha with rfl | ha
            · exact .inl hmem
            · exact .inr ha
      · simp [or_assoc]

theorem mem_scopesOf {before : List Text} {s : Text} :
    s ∈ scopesOf scopes columns before ↔
      s ∈ before ∨ ∃ k, columns.start ≤ k ∧ k < columns.stop ∧ scopes[k]? = some s := by
  refine (mem_foldl_new _ before).trans (or_congr_right (List.mem_iff_getElem?.trans ⟨?_, ?_⟩))
  · rintro ⟨k, hk⟩
    rw [List.getElem?_drop] at hk
    obtain ⟨hlt, -⟩ := List.getElem?_eq_some_iff.mp hk
    rw [List.length_take] at hlt
    rw [List.getElem?_take_of_lt (by omega)] at hk
    exact ⟨columns.start + k, Nat.le_add_right _ k, by omega, hk⟩
  · rintro ⟨k, hstart, hstop, hk⟩
    refine ⟨k - columns.start, ?_⟩
    rw [List.getElem?_drop, Nat.add_sub_cancel' hstart, List.getElem?_take_of_lt hstop, hk]

/-! ### Completing -/

theorem scopeAt_natCast (scopes : List Text) (k : ℕ) : scopeAt scopes k = scopes[k]? := by
  rw [scopeAt, if_neg (Int.not_lt.mpr (Int.natCast_nonneg k)), Int.toNat_natCast]

/-- The column that an assertion goes on from. -/
def Columns.onward (columns : Columns) (cursor : ℕ) : ℕ :=
  if columns.IsArrow then columns.start else cursor

theorem Columns.onward_eq (columns : Columns) (cursor : ℕ) :
    columns.onward? (some cursor) = some (columns.onward cursor : ℤ) := by
  unfold Columns.onward? Columns.onward
  split
  · rename_i harrow
    rw [← harrow]
  · rfl

/-- An assertion can be completed when it goes on from a column with a scope that is in the tested line
or right behind it. -/
theorem complete_iff {cursor : Option ℤ} {lineLength : ℤ} :
    columns.complete? cursor lineLength scopes baseScope ending = some c ↔
      ∃ column n : ℕ, columns.onward? cursor = some (column : ℤ) ∧ lineLength = n ∧ column ≤ n ∧
        ∃ scope, scopes[column]? = some scope ∧
          c = ⟨if columns.IsArrow then 1 else runFrom scopes scope column n,
            suggestedNames (columns.stackList scopes scope) baseScope, ending⟩ := by
  constructor
  · intro hc
    obtain ⟨k, hk, hc⟩ := Option.bind_eq_some_iff.mp hc
    obtain ⟨hle, hc⟩ := Option.ite_none_left_eq_some.mp hc
    obtain ⟨scope, hscope, hc⟩ := Option.bind_eq_some_iff.mp hc
    have hpos : 0 ≤ k := by
      refine Int.not_lt.mp fun hneg => ?_
      rw [scopeAt, if_pos hneg] at hscope
      cases hscope
    obtain ⟨column, rfl⟩ := Int.eq_ofNat_of_zero_le hpos
    obtain ⟨n, rfl⟩ := Int.eq_ofNat_of_zero_le (Int.le_trans hpos (Int.not_lt.mp hle))
    rw [scopeAt_natCast] at hscope
    exact ⟨column, n, hk, rfl, by omega, scope, hscope, (Option.some.inj hc).symm⟩
  · rintro ⟨column, n, hk, rfl, hle, scope, hscope, rfl⟩
    have hle : ¬ (n : ℤ) < column := by omega
    rw [← scopeAt_natCast] at hscope
    simp only [Columns.complete?, hk, Option.bind_eq_bind, Option.bind_some, if_neg hle, hscope]
    rfl

theorem of_complete {cursor : Option ℤ} {lineLength : ℤ}
    (hc : columns.complete? cursor lineLength scopes baseScope ending = some c) :
    0 < c.length ∧ (∀ name ∈ c.names, IsWord name) ∧ c.ending = ending := by
  obtain ⟨column, n, -, -, hle, scope, hscope, rfl⟩ := complete_iff.mp hc
  refine ⟨?_, fun name => isWord_of_mem_suggestedNames, rfl⟩
  simp only
  split
  · exact Nat.zero_lt_one
  · exact run_pos hle hscope

/-! ### Suggestions -/

theorem head_climb {first : Bool} {offset : ℤ} {d : Details}
    (hd : (climb t fileName first offset).assertions.head? = some d) :
    d = details t offset fileName := by
  rw [climb] at hd
  simp only at hd
  split at hd
  · cases hd
  · split at hd
    · split at hd
      · exact (Option.some.inj hd).symm
      · exact (Option.some.inj hd).symm
    · cases hd

/-- What an assertion goes on with is told from the columns of its line. -/
theorem completed_some {offset : ℤ} {isWhole : Bool}
    (hc : completed? h typed offset isWhole scopes baseScope fileName = some c) :
    ∃ tested columns, tested? typed offset fileName = some tested ∧
      (details typed offset fileName).assertion = some columns ∧
      columns.complete?
        (if isWhole then some (offset - (details typed offset fileName).line.start) else none)
        (tested.line.stop - tested.line.start) scopes baseScope
        (h.ending (isWhole && decide (offset = (details typed offset fileName).line.stop))) =
        some c := by
  obtain ⟨tested, htested, hc⟩ := Option.bind_eq_some_iff.mp hc
  obtain ⟨current, hcurrent, hc⟩ := Option.bind_eq_some_iff.mp hc
  obtain ⟨-, hc⟩ := Option.ite_none_left_eq_some.mp hc
  obtain ⟨columns, hcolumns, hc⟩ := Option.bind_eq_some_iff.mp hc
  have hclimb := (Option.ite_none_right_eq_some.mp htested).2
  rw [← Option.some.inj hclimb] at hcurrent
  obtain rfl := head_climb hcurrent
  exact ⟨tested, columns, htested, hcolumns, hc⟩

theorem completion_iff {selection : Span} {character : Text} :
    completion? t selection scopes baseScope fileName character = some c ↔
      ∃ h, testHeader? fileName t = some h ∧
        completed? h (typedOver t selection character) (selection.start + character.length) true scopes
          baseScope fileName = some c := by
  unfold completion? testHeader?
  cases isTest fileName t with
  | false => simp
  | true =>
      cases header? t with
      | none => simp
      | some h => simp

/-- An assertion goes on at least once, and behind it come words. -/
theorem of_completion {selection : Span} {character : Text}
    (hc : completion? t selection scopes baseScope fileName character = some c) :
    ∃ h, testHeader? fileName t = some h ∧ 0 < c.length ∧ (∀ name ∈ c.names, IsWord name) ∧
      (c.ending = [] ∨ ∃ stop ∈ h.stop, c.ending = " " ++ stop) := by
  obtain ⟨h, hheader, hc⟩ := completion_iff.mp hc
  obtain ⟨tested, columns, -, -, hc⟩ := completed_some hc
  obtain ⟨hlength, hnames, hending⟩ := of_complete hc
  refine ⟨h, hheader, hlength, hnames, ?_⟩
  rw [hending]
  unfold Header.ending
  split
  · rename_i stop hstop
    split
    · exact .inr ⟨stop, hstop, rfl⟩
    · exact .inl rfl
  · exact .inl rfl

/-- A unit of no name stands between names only as a space. -/
theorem notMem_join {d : CodeUnit} (hd : d ≠ CodeUnit.ofBasic ' ') :
    ∀ names : List Text, (∀ name ∈ names, d ∉ name) → d ∉ Text.join " " names
  | [], _ => nofun
  | [name], hnames => by
      have hjoin : Text.join " " [name] = name := List.intercalate_singleton
      rw [hjoin]
      exact hnames name (List.mem_singleton_self name)
  | name :: next :: names, hnames => by
      obtain ⟨hname, hnames⟩ := List.forall_mem_cons.mp hnames
      have hjoin : Text.join " " (name :: next :: names) =
          name ++ CodeUnit.ofBasic ' ' :: Text.join " " (next :: names) := Text.join_cons_cons _ _ _
      rw [hjoin]
      intro hmem
      rcases List.mem_append.mp hmem with hmem | hmem
      · exact hname hmem
      · rcases List.mem_cons.mp hmem with hmem | hmem
        · exact hd hmem
        · exact notMem_join hd (next :: names) hnames hmem

/-- What comes behind the marker is on one line: it has no white space but spaces. -/
theorem blank_notMem_tail {selection : Span} {character : Text}
    (hc : completion? t selection scopes baseScope fileName character = some c) {d : CodeUnit}
    (hblank : d.isBlank = true) (hd : d ≠ CodeUnit.ofBasic ' ') : d ∉ c.tail := by
  obtain ⟨h, hheader, -, hnames, hending⟩ := of_completion hc
  have hword {w : Text} (hw : IsWord w) : d ∉ w := fun hmem => by
    rw [hw.2 d hmem] at hblank
    cases hblank
  have hspace : d ∉ (" " : Text) := fun hmem => hd (List.mem_singleton.mp hmem)
  intro hmem
  rcases List.mem_append.mp hmem with hmem | hmem
  · rcases List.mem_append.mp hmem with hmem | hmem
    · exact hspace hmem
    · exact notMem_join hd c.names (fun name hname => hword (hnames name hname)) hmem
  · rcases hending with hending | ⟨stop, hstop, hending⟩
    · rw [hending] at hmem
      cases hmem
    · obtain ⟨front, path, hh⟩ := exists_heads (testHeader_iff.mp hheader).2
      rw [hending] at hmem
      exact (List.mem_append.mp hmem).elim hspace (hword (hh.stop_isWord stop hstop))

theorem mem_of_mem_repeated {n : ℕ} {d : CodeUnit}
    (hd : d ∈ (List.replicate n character).flatten) : d ∈ character := by
  obtain ⟨l, hl, hd⟩ := List.mem_flatten.mp hd
  rwa [List.eq_of_mem_replicate hl] at hd

/-- The same for all that is put in. -/
theorem blank_notMem_text {selection : Span} {character : Text}
    (hc : completion? t selection scopes baseScope fileName character = some c) {d : CodeUnit}
    (hblank : d.isBlank = true) (hd : d ≠ CodeUnit.ofBasic ' ') (hcharacter : d ∉ character) :
    d ∉ c.text character := by
  intro hmem
  rcases List.mem_append.mp hmem with hmem | hmem
  · rcases List.mem_append.mp hmem with hmem | hmem
    · exact hcharacter hmem
    · exact hcharacter (mem_of_mem_repeated hmem)
  · exact blank_notMem_tail hc hblank hd hmem

/-! ### What is put in -/

theorem suggest_iff {selection : Span} :
    suggest? t selection scopes baseScope fileName character = some s ↔
      ∃ c, completion? t selection scopes baseScope fileName character = some c ∧
        s = c.suggestion selection character := by
  rw [suggest?, Option.map_eq_some_iff]
  exact exists_congr fun c => and_congr_right fun _ => eq_comm

/-- The units that the repetitions of a character have. -/
theorem length_repeated (n : ℕ) (character : Text) :
    (List.replicate n character).flatten.length = n * character.length := by
  rw [List.length_flatten, List.map_replicate, List.sum_replicate_nat]

/-- The carets that are put in. -/
theorem text_caret (c : Completed) :
    c.text "^" = CodeUnit.ofBasic '^' :: (List.replicate c.length (CodeUnit.ofBasic '^') ++ c.tail) := by
  have hcaret : ("^" : Text) = [CodeUnit.ofBasic '^'] := rfl
  rw [Completed.text, hcaret, List.flatten_replicate_singleton]
  rfl

theorem selection_stop (c : Completed) (hcharacter : character.length = 1) :
    (c.suggestion ⟨start, stop⟩ character).selection.stop =
      start + (c.text character).length := by
  simp only [Completed.suggestion, Completed.text, List.length_append, length_repeated, hcharacter]
  omega

/-! ### Places behind the first line -/

/-- A place behind the first line of a test: its header, the lines above, the nearest first, and the
part of its own line in front of it. -/
structure Place (t : Text) (start : ℕ) (fileName : Option Text) (h : Header) (above : List Text)
    (front : Text) : Prop where
  header : testHeader? fileName t = some h
  above_ne_nil : above ≠ []
  take_eq : t.take start = ofAbove above ++ front
  length_eq : (ofAbove above ++ front).length = start
  break_notMem_above : ∀ line ∈ above, CodeUnit.ofBasic '\n' ∉ line
  break_notMem_front : CodeUnit.ofBasic '\n' ∉ front

variable {start stop : ℕ} {above : List Text} {front x : Text}

theorem typedOver_eq (t : Text) (start stop : ℕ) (x : Text) :
    typedOver t ⟨start, stop⟩ x = t.take start ++ x ++ t.drop stop := by
  rw [typedOver, Text.upTo_natCast, Text.from_natCast]

/-- What is typed behind the first line leaves the header. -/
theorem testHeader_typed (hbreak : CodeUnit.ofBasic '\n' ∈ t.take start) (stop : ℕ) (x : Text) :
    testHeader? fileName (typedOver t ⟨start, stop⟩ x) = testHeader? fileName t := by
  refine testHeader_congr ?_
  rw [typedOver_eq, List.append_assoc, Text.lineOf_append_of_mem hbreak,
    ← Text.lineOf_append_of_mem hbreak (t.drop start), List.take_append_drop]

namespace Place

theorem typedOver_eq (hp : Place t start fileName h above front) (stop : ℕ) (x : Text) :
    typedOver t ⟨start, stop⟩ x = ofAbove above ++ (front ++ x) ++ t.drop stop := by
  rw [SyntaxTest.typedOver_eq, hp.take_eq, List.append_assoc (ofAbove above)]

theorem break_mem_take (hp : Place t start fileName h above front) :
    CodeUnit.ofBasic '\n' ∈ t.take start := by
  obtain ⟨line, above', rfl⟩ := List.exists_cons_of_ne_nil hp.above_ne_nil
  rw [hp.take_eq, Text.ofAbove_cons_append]
  exact List.mem_append_right _ List.mem_cons_self

theorem offset_eq (hp : Place t start fileName h above front) (x : Text) :
    (start : ℤ) + x.length = ((ofAbove above ++ (front ++ x)).length : ℕ) := by
  have := hp.length_eq
  simp only [List.length_append] at this ⊢
  omega

theorem break_notMem (hp : Place t start fileName h above front) (hx : CodeUnit.ofBasic '\n' ∉ x) :
    CodeUnit.ofBasic '\n' ∉ front ++ x := fun hmem =>
  (List.mem_append.mp hmem).elim hp.break_notMem_front hx

/-- A place stays one, with what has been put in in front of it. -/
theorem stays (hp : Place t start fileName h above front) (hx : CodeUnit.ofBasic '\n' ∉ x)
    (stop : ℕ) :
    Place (typedOver t ⟨start, stop⟩ x) (start + x.length) fileName h above (front ++ x) where
  header := (testHeader_typed hp.break_mem_take stop x).trans hp.header
  above_ne_nil := hp.above_ne_nil
  take_eq := by
    have hoffset := hp.offset_eq x
    rw [hp.typedOver_eq]
    exact List.take_left' (by omega)
  length_eq := by
    have hoffset := hp.offset_eq x
    omega
  break_notMem_above := hp.break_notMem_above
  break_notMem_front := hp.break_notMem hx

theorem drop_typed (hp : Place t start fileName h above front) (stop : ℕ) (x : Text) :
    (typedOver t ⟨start, stop⟩ x).drop (start + x.length) = t.drop stop := by
  have hoffset := hp.offset_eq x
  rw [hp.typedOver_eq]
  exact List.drop_left' (by omega)

/-- What the line at a place says. -/
theorem details_eq (hp : Place t start fileName h above front) :
    details t start fileName =
      lineDetails h (ofAbove above).length (front ++ lineOf (t.drop start)) :=
  details_split hp.header hp.take_eq hp.break_notMem_front

/-- One of the lines above asserts nothing, as the header is above. -/
theorem exists_tested (hp : Place t start fileName h above front) :
    ∃ line ∈ above, assertionIn? h line = none := by
  obtain ⟨line, above', rfl⟩ := List.exists_cons_of_ne_nil hp.above_ne_nil
  have hheader := (testHeader_iff.mp hp.header).2
  rw [← Text.ofAbove_append_drop hp.take_eq] at hheader
  exact exists_not_asserting hheader hp.break_notMem_above

/-- The walk from a place passes the line there, if it has a comment token, and ends above it. -/
theorem tested_eq (hp : Place t start fileName h above front)
    (hmarker : (markerOf? h (front ++ lineOf (t.drop start))).isSome = true) :
    ∃ ds, tested? t start fileName =
      some ⟨lineDetails h (ofAbove above).length (front ++ lineOf (t.drop start)) :: ds,
        testedSpan h above⟩ := by
  obtain ⟨run, target, upper, rfl, hrun, htarget⟩ := exists_run hp.exists_tested
  rw [tested_eq_walked (testHeader_iff.mp hp.header).1 start ⟨0, 0⟩,
    walked_place hp.header hp.take_eq hp.break_notMem_front hp.break_notMem_above hrun htarget
      hmarker, testedSpan_run hrun htarget]
  exact ⟨_, rfl⟩

/-- What the line says when something is written over a selection that begins at the place. -/
theorem details_typed (hp : Place t start fileName h above front)
    (hx : CodeUnit.ofBasic '\n' ∉ x) (stop : ℕ) :
    details (typedOver t ⟨start, stop⟩ x) (start + x.length) fileName =
      lineDetails h (ofAbove above).length (front ++ x ++ lineOf (t.drop stop)) := by
  have hdetails := (hp.stays hx stop).details_eq
  rwa [hp.drop_typed, Int.natCast_add] at hdetails

theorem tested_typed (hp : Place t start fileName h above front)
    (hx : CodeUnit.ofBasic '\n' ∉ x) {stop : ℕ}
    (hmarker : (markerOf? h (front ++ x ++ lineOf (t.drop stop))).isSome = true) :
    ∃ ds, tested? (typedOver t ⟨start, stop⟩ x) (start + x.length) fileName =
      some ⟨lineDetails h (ofAbove above).length (front ++ x ++ lineOf (t.drop stop)) :: ds,
        testedSpan h above⟩ := by
  rw [← hp.drop_typed stop x] at hmarker ⊢
  obtain ⟨ds, htested⟩ := (hp.stays hx stop).tested_eq hmarker
  rw [Int.natCast_add] at htested
  exact ⟨ds, htested⟩

/-- How the assertion in the line goes on. -/
theorem completion_eq (hp : Place t start fileName h above front)
    (hx : CodeUnit.ofBasic '\n' ∉ x) (stop : ℕ) :
    completion? t ⟨start, stop⟩ scopes baseScope fileName x =
      (assertionIn? h (front ++ x ++ lineOf (t.drop stop))).bind fun columns =>
        columns.complete? (some ((front ++ x).length : ℕ)) (testedLine h above).length scopes
          baseScope (h.ending (lineOf (t.drop stop)).isEmpty) := by
  have hdetails := hp.details_typed hx stop
  obtain ⟨htest, hheader⟩ := testHeader_iff.mp hp.header
  have hcompletion : completion? t ⟨start, stop⟩ scopes baseScope fileName x =
      completed? h (typedOver t ⟨start, stop⟩ x) (start + x.length) true scopes baseScope fileName := by
    rw [completion?, htest, hheader]
    rfl
  have hcursor : (start : ℤ) + x.length - (ofAbove above).length = ((front ++ x).length : ℕ) := by
    rw [hp.offset_eq, List.length_append]
    omega
  have hend : decide ((start : ℤ) + x.length =
      (ofAbove above).length + (front ++ x ++ lineOf (t.drop stop)).length) =
      (lineOf (t.drop stop)).isEmpty := by
    rw [hp.offset_eq, Bool.eq_iff_iff, decide_eq_true_eq, List.isEmpty_iff_length_eq_zero]
    simp only [List.length_append]
    omega
  rw [hcompletion]
  cases hassertion : assertionIn? h (front ++ x ++ lineOf (t.drop stop)) with
  | none =>
      refine Option.eq_none_iff_forall_ne_some.mpr fun c hc => ?_
      obtain ⟨-, columns, -, hcolumns, -⟩ := completed_some hc
      rw [hdetails, lineDetails, hassertion] at hcolumns
      cases hcolumns
  | some columns =>
      have hmarker := marker_isSome_of_assertion hassertion
      obtain ⟨ds, htested⟩ := hp.tested_typed hx hmarker
      obtain ⟨marker, hmarker⟩ := Option.isSome_iff_exists.mp hmarker
      simp only [completed?, htested, lineDetails, hmarker, hassertion, hcursor, hend,
        length_testedLine, Option.bind_eq_bind, Option.bind_some, List.head?_cons, Option.isNone_some,
        Bool.false_eq_true, if_false, if_true, Bool.true_and]

end Place

/-- The places behind the first line of a test. -/
theorem exists_place_iff (hstart : start ≤ t.length) :
    (∃ above front, Place t start fileName h above front) ↔
      testHeader? fileName t = some h ∧ CodeUnit.ofBasic '\n' ∈ t.take start := by
  constructor
  · rintro ⟨above, front, hp⟩
    exact ⟨hp.header, hp.break_mem_take⟩
  · rintro ⟨hheader, hbreak⟩
    obtain ⟨above, front, htake, hfront, habove⟩ := Text.exists_ofAbove (t.take start)
    refine ⟨above, front, hheader, ?_, htake, ?_, habove, hfront⟩
    · rintro rfl
      rw [htake] at hbreak
      exact hfront hbreak
    · rw [← htake, List.length_take_of_le hstart]

/-- What is typed elsewhere makes no assertion. -/
theorem assertion_of_no_place (hstart : start ≤ t.length) (hne : x ≠ [])
    (hx : CodeUnit.ofBasic '\n' ∉ x) (hno : ¬ ∃ h above front, Place t start fileName h above front)
    (stop : ℕ) :
    (details (typedOver t ⟨start, stop⟩ x) (start + x.length) fileName).assertion = none := by
  by_cases hbreak : CodeUnit.ofBasic '\n' ∈ t.take start
  · cases hheader : testHeader? fileName t with
    | some h => exact absurd ⟨h, (exists_place_iff hstart).mpr ⟨hheader, hbreak⟩⟩ hno
    | none => exact (details_of_header_none ((testHeader_typed hbreak stop x).trans hheader) _).2
  · have hfront : CodeUnit.ofBasic '\n' ∉ t.take start ++ x := fun hmem =>
      (List.mem_append.mp hmem).elim hbreak hx
    have hoffset : (start : ℤ) + x.length = ((t.take start ++ x).length : ℕ) := by
      rw [List.length_append, List.length_take_of_le hstart, Int.natCast_add]
    rw [typedOver_eq, hoffset]
    exact details_firstLine hfront (List.append_ne_nil_of_right_ne_nil _ hne)

/-- A suggestion is made behind the first line only. -/
theorem exists_place (hstart : start ≤ t.length) (hne : x ≠ []) (hx : CodeUnit.ofBasic '\n' ∉ x)
    (hc : completion? t ⟨start, stop⟩ scopes baseScope fileName x = some c) :
    ∃ h above front, Place t start fileName h above front := by
  obtain ⟨h, -, hc⟩ := completion_iff.mp hc
  obtain ⟨-, columns, -, hcolumns, -⟩ := completed_some hc
  by_contra hno
  rw [assertion_of_no_place hstart hne hx hno] at hcolumns
  cases hcolumns

end SyntaxTest
end Scopewright
