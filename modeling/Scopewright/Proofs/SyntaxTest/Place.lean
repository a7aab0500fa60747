import Scopewright.Proofs.SyntaxTest.Marker

/-! # Places in a syntax test

A place in a text has lines above it and a part of its own line in front of it
(`Text.exists_ofAbove`).  The line there is told from that part and what follows up to the next line
break (`lineAt_place`, `lineText_place`), and so is what the line says as an assertion line
(`details_place`).  For any text and offset `lineAt` gives the one line that holds the place there
(`IsLine`), but for the front of a text that begins with a line break (`isLine_lineAt_iff`).

The first line of a test asserts nothing (`assertionIn_firstLine`), so above a line behind it there is
always one that asserts nothing (`exists_not_asserting`). -/

namespace Scopewright

namespace Text

/-- Lines above a place, the nearest first, each with its line break. -/
def ofAbove : List Text → Text
  | [] => []
  | line :: above => ofAbove above ++ line ++ [CodeUnit.ofBasic '\n']

/-- The line that a text ends with. -/
def lastLine (t : Text) : Text := (t.reverse.takeWhile (· ≠ CodeUnit.ofBasic '\n')).reverse

theorem exists_ofAbove (t : Text) :
    ∃ above front, t = ofAbove above ++ front ∧ CodeUnit.ofBasic '\n' ∉ front ∧
      ∀ line ∈ above, CodeUnit.ofBasic '\n' ∉ line := by
  induction t using List.reverseRecOn with
  | nil => exact ⟨[], [], rfl, nofun, nofun⟩
  | append_singleton t c ih =>
      obtain ⟨above, front, rfl, hfront, habove⟩ := ih
      by_cases hc : c = CodeUnit.ofBasic '\n'
      · refine ⟨front :: above, [], ?_, nofun, List.forall_mem_cons.mpr ⟨hfront, habove⟩⟩
        rw [hc, ofAbove, List.append_nil]
      · refine ⟨above, front ++ [c], List.append_assoc _ _ _, fun hmem => ?_, habove⟩
        rcases List.mem_append.mp hmem with hmem | hmem
        · exact hfront hmem
        · exact hc (List.mem_singleton.mp hmem).symm

theorem lastLine_ofAbove (above : List Text) {front : Text} (hfront : CodeUnit.ofBasic '\n' ∉ front) :
    lastLine (ofAbove above ++ front) = front := by
  have htake : (ofAbove above ++ front).reverse.takeWhile (· ≠ CodeUnit.ofBasic '\n') =
      front.reverse := by
    rw [List.reverse_append]
    refine (span_append (fun c hc => decide_eq_true ?_) fun c hc => ?_).1
    · rintro rfl
      exact hfront (List.mem_reverse.mp hc)
    · cases above with
      | nil => cases hc
      | cons line above =>
          rw [ofAbove, List.reverse_concat] at hc
          rw [← Option.some.inj hc]
          exact decide_eq_false fun hne => hne rfl
  rw [lastLine, htake, List.reverse_reverse]

theorem ofAbove_cons_append (line : Text) (above : List Text) (rest : Text) :
    ofAbove (line :: above) ++ rest = ofAbove above ++ line ++ CodeUnit.ofBasic '\n' :: rest :=
  List.append_assoc _ _ _

theorem lineOf_break (rest : Text) : lineOf (CodeUnit.ofBasic '\n' :: rest) = [] :=
  List.takeWhile_cons_of_neg (by simp)

/-- Behind a line break nothing changes the first line. -/
theorem lineOf_append_of_mem {front : Text} (hfront : CodeUnit.ofBasic '\n' ∈ front) (rest : Text) :
    lineOf (front ++ rest) = lineOf front := by
  rw [lineOf, lineOf, List.takeWhile_append, if_neg]
  intro hall
  have hself := (List.takeWhile_prefix _).eq_of_length hall
  rw [← hself] at hfront
  exact break_notMem_lineOf _ hfront

theorem lineOf_append {front : Text} (hfront : CodeUnit.ofBasic '\n' ∉ front) (rest : Text) :
    lineOf (front ++ rest) = front ++ lineOf rest := by
  refine List.takeWhile_append_of_pos fun c hc => decide_eq_true ?_
  rintro rfl
  exact hfront hc

theorem upTo_natCast (t : Text) (n : ℕ) : t.upTo (n : ℤ) = t.take n :=
  List.take_eq_take_min.symm

theorem from_natCast (t : Text) (n : ℕ) : t.from (n : ℤ) = t.drop n := by
  rw [«from», clamp, Int.toNat_natCast]
  rcases Nat.le_total n t.length with h | h
  · rw [Nat.min_eq_left h]
  · rw [Nat.min_eq_right h, List.drop_length, List.drop_eq_nil_of_le h]

theorem clamp_clamp (t : Text) (offset : ℤ) : t.clamp (t.clamp offset : ℕ) = t.clamp offset := by
  unfold clamp
  omega

theorem clamp_append_length (s t : Text) : clamp (s ++ t) (s.length : ℕ) = s.length := by
  rw [clamp, Int.toNat_natCast, List.length_append, Nat.min_eq_left (Nat.le_add_right _ _)]

theorem length_ofAbove (line : Text) (above : List Text) :
    (ofAbove (line :: above)).length = (ofAbove above ++ line).length + 1 := List.length_append

/-- The last line break is the one behind the nearest line. -/
theorem lastIndex_ofAbove (line : Text) (above : List Text) {front : Text}
    (hfront : CodeUnit.ofBasic '\n' ∉ front) :
    lastIndex? (ofAbove (line :: above) ++ front) '\n' = some (ofAbove above ++ line).length := by
  have hnone : front.reverse.findIdx? (· = CodeUnit.ofBasic '\n') = none := by
    refine List.findIdx?_eq_none_iff.mpr fun c hc => decide_eq_false ?_
    rintro rfl
    exact hfront (List.mem_reverse.mp hc)
  rw [lastIndex?, List.reverse_append, List.findIdx?_append, hnone, Option.none_or,
    List.length_append, length_ofAbove, ofAbove, List.reverse_concat, List.findIdx?_cons,
    decide_eq_true rfl, if_pos rfl, Option.map_some, Option.map_some, List.length_reverse]
  exact congrArg some (by omega)

theorem lastIndex_of_notMem {t : Text} (ht : CodeUnit.ofBasic '\n' ∉ t) :
    lastIndex? t '\n' = none := by
  refine Option.map_eq_none_iff.mpr (List.findIdx?_eq_none_iff.mpr fun c hc => decide_eq_false ?_)
  rintro rfl
  exact ht (List.mem_reverse.mp hc)

/-- The line at a place ends in front of the next line break. -/
theorem indexFrom_append (s t : Text) :
    (indexFrom? (s ++ t) '\n' s.length).getD (s ++ t).length = s.length + (lineOf t).length := by
  rw [indexFrom?, List.drop_left, ← length_lineOf, List.length_append]
  cases t.findIdx? (· = CodeUnit.ofBasic '\n') <;> rfl

end Text

namespace SyntaxTest

open Text (ofAbove lineOf)

variable {above : List Text} {front rest : Text}

/-! ### The line at a place -/

/-- The line at a place that is not the front of the text. -/
theorem lineAt_place (hfront : CodeUnit.ofBasic '\n' ∉ front)
    (hplace : 0 < (ofAbove above ++ front).length) :
    lineAt (ofAbove above ++ front ++ rest) ((ofAbove above ++ front).length : ℕ) =
      ⟨(ofAbove above).length, (ofAbove above).length + (front ++ lineOf rest).length⟩ := by
  have hstop := Text.indexFrom_append (ofAbove above ++ front) rest
  simp only [lineAt, Text.clamp_append_length]
  rw [Nat.max_eq_left hplace, List.take_left, hstop]
  cases above with
  | nil =>
      rw [ofAbove, List.nil_append, Text.lastIndex_of_notMem hfront]
      simp
  | cons line above =>
      rw [Text.lastIndex_ofAbove line above hfront]
      simp only [List.length_append, Text.length_ofAbove, Int.natCast_add, Int.add_assoc]
      rfl

theorem lineText_place :
    lineText (ofAbove above ++ front ++ rest)
      ⟨(ofAbove above).length, (ofAbove above).length + (front ++ lineOf rest).length⟩ =
      front ++ lineOf rest := by
  have hline : front ++ lineOf rest <+: front ++ rest :=
    (List.prefix_append_right_inj front).mpr (Text.lineOf_isPrefix rest)
  have hle := hline.length_le
  rw [lineText, List.append_assoc,
    Text.between_drop (by simp only [List.length_append] at hle ⊢; omega), List.drop_left]
  exact (List.prefix_iff_eq_take.mp hline).symm

/-! ### The line at any offset -/

/-- An offset behind the text is at the line that the text ends with. -/
theorem lineAt_clamp (t : Text) (offset : ℤ) : lineAt t offset = lineAt t (t.clamp offset : ℕ) := by
  unfold lineAt
  rw [Text.clamp_clamp]

variable {t : Text} {n : ℕ}

theorem lineAt_zero (hhead : t.head? ≠ some (CodeUnit.ofBasic '\n')) :
    lineAt t 0 = ⟨0, (lineOf t).length⟩ := by
  have hfirst : CodeUnit.ofBasic '\n' ∉ t.take 1 := by
    cases t with
    | nil => exact List.not_mem_nil
    | cons c t =>
        intro hmem
        rw [List.mem_singleton.mp hmem] at hhead
        exact hhead rfl
  have hclamp : t.clamp 0 = 0 := Nat.zero_min _
  have hstop := Text.indexFrom_append [] t
  rw [List.nil_append, List.length_nil, Nat.zero_add] at hstop
  simp only [lineAt, hclamp]
  rw [Nat.max_eq_right (Nat.zero_le 1), Text.lastIndex_of_notMem hfirst, hstop]

/-- The line at any offset, but for the front of a text that begins with a line break. -/
theorem lineAt_split (hhead : t.head? = some (CodeUnit.ofBasic '\n') → 0 < n)
    (htake : t.take n = ofAbove above ++ front) (hfront : CodeUnit.ofBasic '\n' ∉ front) :
    lineAt t n =
      ⟨(ofAbove above).length, (ofAbove above).length + (front ++ lineOf (t.drop n)).length⟩ := by
  have hplace : (ofAbove above ++ front).length = t.clamp n := by
    rw [← htake, List.length_take]
    rfl
  have ht : ofAbove above ++ front ++ t.drop n = t := by
    rw [← htake, List.take_append_drop]
  rcases Nat.eq_zero_or_pos (ofAbove above ++ front).length with hzero | hpos
  · obtain ⟨habove, rfl⟩ := List.append_eq_nil_iff.mp (List.length_eq_zero_iff.mp hzero)
    rw [habove] at ht ⊢
    have hdrop : t.drop n = t := ht
    have hno : t.head? ≠ some (CodeUnit.ofBasic '\n') := by
      intro hbreak
      obtain ⟨rest, rfl⟩ := List.head?_eq_some_iff.mp hbreak
      have hlength := congrArg List.length hdrop
      have hn := hhead hbreak
      rw [List.length_drop, List.length_cons] at hlength
      omega
    rw [lineAt_clamp, ← hplace, hzero, hdrop]
    refine (lineAt_zero hno).trans ?_
    simp
  · have hline := @lineAt_place above front (t.drop n) hfront hpos
    rwa [ht, hplace, ← lineAt_clamp] at hline

/-- The line of a text that holds a place.  It begins at the front or behind a line break, has no line
break in it, and ends at the next one or where the text ends. -/
structure IsLine (t : Text) (place : ℕ) (line : Span) : Prop where
  start_le : line.start ≤ place
  le_stop : place ≤ line.stop
  noBreak : ∀ k : ℕ, line.start ≤ k → k < line.stop → t[k]? ≠ some (CodeUnit.ofBasic '\n')
  front : line.start = 0 ∨ ∃ k : ℕ, line.start = k + 1 ∧ t[k]? = some (CodeUnit.ofBasic '\n')
  back : line.stop = t.length ∨ ∃ k : ℕ, line.stop = k ∧ t[k]? = some (CodeUnit.ofBasic '\n')

namespace IsLine

variable {line line' : Span}

/-- Of two lines that hold a place neither begins further down: the line break in front of it would
stand in the other one. -/
theorem start_le_start (hline : IsLine t n line) (hline' : IsLine t n line') :
    line'.start ≤ line.start := by
  rcases hline'.front with hfront | ⟨k, hk, hbreak⟩
  · rcases hline.front with hfront' | ⟨k, hk, -⟩ <;> omega
  · by_contra hlt
    have := hline'.start_le
    have := hline.le_stop
    exact hline.noBreak k (by omega) (by omega) hbreak

theorem stop_le_stop (hline : IsLine t n line) (hline' : IsLine t n line') :
    line.stop ≤ line'.stop := by
  rcases hline'.back with hback | ⟨k, hk, hbreak⟩
  · rcases hline.back with hback' | ⟨k, hk, hbreak⟩
    · omega
    · have := (List.getElem?_eq_some_iff.mp hbreak).1
      omega
  · by_contra hlt
    have := hline.start_le
    have := hline'.le_stop
    exact hline.noBreak k (by omega) (by omega) hbreak

theorem unique (hline : IsLine t n line) (hline' : IsLine t n line') : line = line' := by
  have hstart := Int.le_antisymm (start_le_start hline' hline) (start_le_start hline hline')
  have hstop := Int.le_antisymm (stop_le_stop hline hline') (stop_le_stop hline' hline)
  cases line
  cases line'
  exact congrArg₂ Span.mk hstart hstop

/-- A part of a text without line breaks is a line between two line breaks, the front and the end of
the text counted as such. -/
theorem of_append {before body behind : Text}
    (hbefore : ∀ c ∈ before.getLast?, c = CodeUnit.ofBasic '\n')
    (hbody : CodeUnit.ofBasic '\n' ∉ body)
    (hbehind : ∀ c ∈ behind.head?, c = CodeUnit.ofBasic '\n')
    (hstart : before.length ≤ n) (hstop : n ≤ before.length + body.length) :
    IsLine (before ++ body ++ behind) n ⟨before.length, before.length + body.length⟩ where
  start_le := Int.ofNat_le.mpr hstart
  le_stop := Int.ofNat_le.mpr hstop
  noBreak k hk hk' hbreak := by
    simp only at hk hk'
    rw [List.append_assoc, List.getElem?_append_right (by omega),
      List.getElem?_append_left (by omega)] at hbreak
    exact hbody (List.mem_of_getElem? hbreak)
  front := by
    rcases List.eq_nil_or_concat before with rfl | ⟨before, c, rfl⟩
    · exact .inl rfl
    · obtain rfl := hbefore c (by rw [List.concat_eq_append, List.getLast?_concat]; rfl)
      exact .inr ⟨before.length, by simp, by simp⟩
  back := by
    cases behind with
    | nil => exact .inl (by simp)
    | cons c behind =>
        obtain rfl := hbehind c rfl
        refine .inr ⟨before.length + body.length, rfl, ?_⟩
        rw [← List.length_append, List.getElem?_append_right (Nat.le_refl _), Nat.sub_self]
        rfl

end IsLine

theorem getLast_ofAbove {c : CodeUnit} (hc : c ∈ (ofAbove above).getLast?) :
    c = CodeUnit.ofBasic '\n' := by
  cases above with
  | nil => cases hc
  | cons line above =>
      rw [ofAbove, List.getLast?_concat] at hc
      exact (Option.some.inj hc).symm

/-- The lines above a place, what stands in front of it in its own line, and what follows there. -/
theorem isLine_split (hn : n ≤ t.length) (htake : t.take n = ofAbove above ++ front)
    (hfront : CodeUnit.ofBasic '\n' ∉ front) :
    IsLine t n
      ⟨(ofAbove above).length, (ofAbove above).length + (front ++ lineOf (t.drop n)).length⟩ := by
  obtain ⟨behind, hdrop, hbehind⟩ : ∃ behind, t.drop n = lineOf (t.drop n) ++ behind ∧
      ∀ c ∈ behind.head?, c = CodeUnit.ofBasic '\n' := by
    rcases Text.eq_lineOf_or_break (t.drop n) with hend | ⟨behind, hbreak⟩
    · exact ⟨[], by rw [List.append_nil]; exact hend, nofun⟩
    · exact ⟨_, hbreak, fun c hc => (Option.some.inj hc).symm⟩
  have hlength := congrArg List.length htake
  rw [List.length_take, Nat.min_eq_left hn, List.length_append] at hlength
  have ht : t = ofAbove above ++ (front ++ lineOf (t.drop n)) ++ behind := by
    rw [List.append_assoc, List.append_assoc, ← hdrop, ← List.append_assoc, ← htake,
      List.take_append_drop]
  have hline := @IsLine.of_append n (ofAbove above) (front ++ lineOf (t.drop n)) behind
    (fun c => getLast_ofAbove) (fun hmem => ?_) hbehind (by omega)
    (by rw [List.length_append]; omega)
  · rwa [← ht] at hline
  · rcases List.mem_append.mp hmem with hmem | hmem
    · exact hfront hmem
    · exact Text.break_notMem_lineOf _ hmem

/-- At the front of a text that begins with a line break what is given begins behind it. -/
theorem lineAt_frontBreak (rest : Text) : lineAt (CodeUnit.ofBasic '\n' :: rest) 0 = ⟨1, 0⟩ := by
  have hclamp : Text.clamp (CodeUnit.ofBasic '\n' :: rest) 0 = 0 := Nat.zero_min _
  have hstop := Text.indexFrom_append [] (CodeUnit.ofBasic '\n' :: rest)
  rw [List.nil_append, List.length_nil, Nat.zero_add, Text.lineOf_break] at hstop
  simp only [lineAt, hclamp]
  rw [hstop]
  rfl

/-- The line there is empty. -/
theorem isLine_frontBreak (rest : Text) : IsLine (CodeUnit.ofBasic '\n' :: rest) 0 ⟨0, 0⟩ :=
  @IsLine.of_append 0 [] [] _ nofun List.not_mem_nil (fun _ hc => (Option.some.inj hc).symm)
    (Nat.le_refl 0) (Nat.le_refl 0)

/-- **The line at an offset.**  Every place of a text is held by just one line, and for the place that
an offset is brought to `lineAt` gives it, unless the offset is at the front of a text that begins with
a line break.  The line is empty there, and what is given begins behind the line break. -/
theorem isLine_lineAt_iff (t : Text) (offset : ℤ) :
    (∃! line, IsLine t (t.clamp offset) line) ∧
      (IsLine t (t.clamp offset) (lineAt t offset) ↔
        ¬(offset ≤ 0 ∧ t.head? = some (CodeUnit.ofBasic '\n'))) ∧
      (offset ≤ 0 → t.head? = some (CodeUnit.ofBasic '\n') →
        IsLine t (t.clamp offset) ⟨0, 0⟩ ∧ lineAt t offset = ⟨1, 0⟩) := by
  have hle : t.clamp offset ≤ t.length := Nat.min_le_right _ _
  obtain ⟨above, front, htake, hfront, -⟩ := Text.exists_ofAbove (t.take (t.clamp offset))
  have hline := isLine_split hle htake hfront
  have hexcept : offset ≤ 0 → t.head? = some (CodeUnit.ofBasic '\n') →
      IsLine t (t.clamp offset) ⟨0, 0⟩ ∧ lineAt t offset = ⟨1, 0⟩ := by
    intro hoffset hhead
    obtain ⟨rest, rfl⟩ := List.head?_eq_some_iff.mp hhead
    have hclamp : Text.clamp (CodeUnit.ofBasic '\n' :: rest) offset = 0 := by
      rw [Text.clamp, Int.toNat_of_nonpos hoffset, Nat.zero_min]
    rw [lineAt_clamp, hclamp]
    exact ⟨isLine_frontBreak rest, lineAt_frontBreak rest⟩
  refine ⟨⟨_, hline, fun line hline' => IsLine.unique hline' hline⟩, ⟨?_, fun hno => ?_⟩, hexcept⟩
  · rintro hgiven ⟨hoffset, hhead⟩
    obtain ⟨htrue, hlineAt⟩ := hexcept hoffset hhead
    have hsame := IsLine.unique hgiven htrue
    rw [hlineAt] at hsame
    cases hsame
  · have hpos : t.head? = some (CodeUnit.ofBasic '\n') → 0 < t.clamp offset := by
      intro hhead
      have hoffset : 0 < offset := Int.not_le.mp fun hle => hno ⟨hle, hhead⟩
      obtain ⟨rest, rfl⟩ := List.head?_eq_some_iff.mp hhead
      rw [Text.clamp, List.length_cons]
      omega
    rw [lineAt_clamp, lineAt_split hpos htake hfront]
    exact hline

/-- In a text of one line break what is given at the front begins behind the offset, and ends in front
of where it begins. -/
theorem lineAt_break :
    lineAt [CodeUnit.ofBasic '\n'] 0 = ⟨1, 0⟩ ∧
      ¬IsLine [CodeUnit.ofBasic '\n'] (Text.clamp [CodeUnit.ofBasic '\n'] 0)
        (lineAt [CodeUnit.ofBasic '\n'] 0) :=
  ⟨by decide, fun hline => absurd hline.start_le (by decide)⟩

/-! ### Headers -/

/-- The header of a text that is a syntax test. -/
def testHeader? (fileName : Option Text) (t : Text) : Option Header :=
  if isTest fileName t then header? t else none

variable {fileName : Option Text} {h : Header}

theorem testHeader_iff :
    testHeader? fileName t = some h ↔ isTest fileName t = true ∧ header? t = some h :=
  Option.ite_none_right_eq_some

/-- A header is told from the first line. -/
theorem testHeader_congr {t' : Text} (hline : lineOf t = lineOf t') :
    testHeader? fileName t = testHeader? fileName t' := by
  have hheader : header? t = header? t' := by
    rw [header?, header?, firstLine, firstLine, ← lineOf, ← lineOf, hline]
  have htest : isTest fileName t = isTest fileName t' := by
    cases fileName with
    | some name => rfl
    | none => rw [isTest, isTest, hheader]
  rw [testHeader?, testHeader?, hheader, htest]

/-! ### What a line says -/

/-- The columns that a line asserts. -/
def assertionIn? (h : Header) (line : Text) : Option Columns :=
  (markerOf? h line).bind (assertionOf? · line)

/-- What a line says at an offset. -/
def lineDetails (h : Header) (start : ℕ) (line : Text) : Details :=
  ⟨markerOf? h line, assertionIn? h line, ⟨start, start + line.length⟩⟩

theorem details_place (hheader : testHeader? fileName (ofAbove above ++ front ++ rest) = some h)
    (hfront : CodeUnit.ofBasic '\n' ∉ front) (hplace : 0 < (ofAbove above ++ front).length) :
    details (ofAbove above ++ front ++ rest) ((ofAbove above ++ front).length : ℕ) fileName =
      lineDetails h (ofAbove above).length (front ++ lineOf rest) := by
  unfold testHeader? at hheader
  rw [details, lineAt_place hfront hplace, detailsOf, hheader]
  simp only [lineText_place]
  rfl

/-- Without a header no line says anything. -/
theorem details_of_header_none (hheader : testHeader? fileName t = none) (offset : ℤ) :
    (details t offset fileName).marker = none ∧ (details t offset fileName).assertion = none := by
  unfold testHeader? at hheader
  rw [details, detailsOf, hheader]
  exact ⟨rfl, rfl⟩

theorem marker_isSome_of_assertion {line : Text} {columns : Columns}
    (hassertion : assertionIn? h line = some columns) : (markerOf? h line).isSome = true := by
  obtain ⟨marker, hmarker, -⟩ := Option.bind_eq_some_iff.mp hassertion
  rw [hmarker]
  rfl

/-- The first line of a test asserts nothing. -/
theorem assertionIn_firstLine (hheader : header? t = some h) : assertionIn? h (lineOf t) = none := by
  obtain ⟨line, path, hh⟩ := exists_heads hheader
  obtain ⟨gap, gap', hgap, hgap', rfl⟩ := hh.front_eq
  obtain ⟨blanks, -, hline⟩ := hh.line_eq
  obtain ⟨rest, hrest⟩ : ∃ rest, lineOf t = h.start ++ (gap ++ (headerMark ++ rest)) := by
    have hprefix : firstLine t <+: lineOf t := by
      rw [firstLine, ← lineOf]
      split
      · exact List.dropLast_prefix _
      · exact List.prefix_refl _
    obtain ⟨back, hback⟩ := hprefix
    rw [hline] at hback
    refine ⟨gap' ++ [CodeUnit.ofBasic '"'] ++ path ++
      CodeUnit.ofBasic '"' :: (blanks ++ h.stop.getD []) ++ back, hback.symm.trans ?_⟩
    simp only [List.append_assoc]
  have hstart : ∀ c ∈ (h.start ++ (gap ++ (headerMark ++ rest))).head?, c.isBlank = false := by
    intro c hc
    rw [List.head?_append_of_ne_nil _ hh.start_isWord.1] at hc
    exact hh.start_isWord.2 c (List.mem_of_mem_head? hc)
  have hmarker : markerOf? h (h.start ++ (gap ++ (headerMark ++ rest))) =
      some ⟨0, h.start.length⟩ := by
    have := @markerOf_append h [] _ (List.forall_mem_nil _) hstart
    rw [List.nil_append, if_pos (List.isPrefixOf_iff_prefix.mpr (List.prefix_append _ _)),
      List.length_nil, Nat.zero_add] at this
    exact this
  have hmark : assertionMark? (gap ++ (headerMark ++ rest)) = none := by
    refine (assertionMark_append hgap.2 fun c hc => ?_).trans rfl
    rw [← Option.some.inj hc]
    decide
  rw [hrest, assertionIn?, hmarker, Option.bind_some, assertionOf?, List.drop_left, hmark]
  rfl

/-- Nothing is asserted in the first line, whatever the text. -/
theorem details_firstLine (hfront : CodeUnit.ofBasic '\n' ∉ front) (hne : front ≠ []) :
    (details (front ++ rest) (front.length : ℕ) fileName).assertion = none := by
  cases hheader : testHeader? fileName (front ++ rest) with
  | none => exact (details_of_header_none hheader _).2
  | some h =>
      have hdetails := @details_place [] front rest fileName h hheader hfront
        (List.length_pos_iff.mpr hne)
      rw [ofAbove, List.nil_append] at hdetails
      have hfirst := assertionIn_firstLine (testHeader_iff.mp hheader).2
      rw [Text.lineOf_append hfront] at hfirst
      rw [hdetails]
      exact hfirst

/-! ### The lines above -/

/-- Behind the first line there is something in front of a place. -/
theorem place_pos (line : Text) (above : List Text) (front : Text) :
    0 < (ofAbove (line :: above) ++ front).length := by
  rw [List.length_append, Text.length_ofAbove]
  omega

/-- The first line of a test, when a line break follows. -/
theorem assertionIn_topLine {line : Text} (hheader : header? (ofAbove [line] ++ rest) = some h)
    (hline : CodeUnit.ofBasic '\n' ∉ line) : line ≠ [] ∧ assertionIn? h line = none := by
  have hfirst : lineOf (ofAbove [line] ++ rest) = line := by
    rw [Text.ofAbove_cons_append, ofAbove, List.nil_append, Text.lineOf_append hline,
      Text.lineOf_break, List.append_nil]
  have hassertion := assertionIn_firstLine hheader
  rw [hfirst] at hassertion
  refine ⟨?_, hassertion⟩
  rintro rfl
  rw [header?, firstLine, ← lineOf, hfirst] at hheader
  cases hheader

/-- Some line from the header on down asserts nothing. -/
theorem exists_not_asserting {line rest : Text}
    (hheader : header? (ofAbove (line :: above) ++ rest) = some h)
    (habove : ∀ l ∈ line :: above, CodeUnit.ofBasic '\n' ∉ l) :
    ∃ l ∈ line :: above, assertionIn? h l = none := by
  induction above generalizing line rest with
  | nil =>
      have hline := (List.forall_mem_cons.mp habove).1
      exact ⟨line, List.mem_cons_self, (assertionIn_topLine hheader hline).2⟩
  | cons next above ih =>
      rw [Text.ofAbove_cons_append, List.append_assoc] at hheader
      obtain ⟨l, hl, hnone⟩ := ih hheader (List.forall_mem_cons.mp habove).2
      exact ⟨l, List.mem_cons_of_mem line hl, hnone⟩

/-- What a line above says, seen from its end. -/
theorem details_line {line : Text}
    (hheader : testHeader? fileName (ofAbove (line :: above) ++ rest) = some h)
    (hline : CodeUnit.ofBasic '\n' ∉ line) :
    details (ofAbove (line :: above) ++ rest) ((ofAbove above ++ line).length : ℕ) fileName =
      lineDetails h (ofAbove above).length line := by
  have hplace : 0 < (ofAbove above ++ line).length := by
    cases above with
    | nil => exact List.length_pos_iff.mpr (assertionIn_topLine (testHeader_iff.mp hheader).2 hline).1
    | cons next above => exact place_pos next above line
  rw [Text.ofAbove_cons_append] at hheader ⊢
  rw [details_place hheader hline hplace, Text.lineOf_break, List.append_nil]

end SyntaxTest
end Scopewright
