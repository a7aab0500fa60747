import Scopewright.Proofs.SyntaxTest.Place

/-! # The walk up to the tested line

The walk inspects the line at an offset and, while lines are passed, the line above it (`Walks`).
In a test the line at an offset does not begin behind it, so each round goes on further up, and the
walk always ends (`walks_iff`).

The lines above a place are those that the text is split into in front of it
(`Text.splitOn_ofAbove`).  From the line of the cursor the walk passes just the run of assertion
lines above it, and ends at the first line that asserts nothing, which is the header at the latest
(`tested_lines`). -/

namespace Scopewright

namespace Text

theorem splitOn_ofAbove {above : List Text} (habove : ∀ line ∈ above, CodeUnit.ofBasic '\n' ∉ line)
    (rest : Text) :
    splitOn '\n' (ofAbove above ++ rest) = above.reverse ++ splitOn '\n' rest := by
  induction above generalizing rest with
  | nil => rfl
  | cons line above ih =>
      obtain ⟨hline, habove⟩ := List.forall_mem_cons.mp habove
      rw [ofAbove_cons_append, List.append_assoc, ih habove, splitOn_append hline,
        List.reverse_cons, List.append_assoc]
      rfl

theorem ofAbove_append_drop {t front : Text} {above : List Text} {n : ℕ}
    (htake : t.take n = ofAbove above ++ front) : ofAbove above ++ (front ++ t.drop n) = t := by
  rw [← List.append_assoc, ← htake, List.take_append_drop]

end Text

namespace SyntaxTest

open Text (ofAbove lineOf)

variable {h : Header} {t : Text} {fileName : Option Text} {above run : List Text}
  {front line target rest : Text} {n : ℕ} {offset : ℤ}

/-! ### The line at any offset -/

/-- A text with a header does not begin with a line break. -/
theorem header_head (hheader : header? t = some h) : t.head? ≠ some (CodeUnit.ofBasic '\n') := by
  intro hhead
  obtain ⟨rest, rfl⟩ := List.head?_eq_some_iff.mp hhead
  rw [header?, firstLine, ← lineOf, Text.lineOf_break] at hheader
  cases hheader

/-- What the line at any offset of a test says. -/
theorem details_split (hheader : testHeader? fileName t = some h)
    (htake : t.take n = ofAbove above ++ front) (hfront : CodeUnit.ofBasic '\n' ∉ front) :
    details t n fileName = lineDetails h (ofAbove above).length (front ++ lineOf (t.drop n)) := by
  have hhead := header_head (testHeader_iff.mp hheader).2
  have ht : ofAbove above ++ front ++ t.drop n = t := by
    rw [← htake, List.take_append_drop]
  have htext := @lineText_place above front (t.drop n)
  unfold testHeader? at hheader
  rw [ht] at htext
  rw [details, lineAt_split (fun hbreak => absurd hbreak hhead) htake hfront, detailsOf, hheader]
  simp only [htext]
  rfl

/-- A line does not begin behind the offset that it is at. -/
theorem details_start_le (hheader : testHeader? fileName t = some h) (n : ℕ) :
    (details t n fileName).line.start ≤ n := by
  obtain ⟨above, front, htake, hfront, -⟩ := Text.exists_ofAbove (t.take n)
  rw [details_split hheader htake hfront]
  have hlength := congrArg List.length htake
  rw [List.length_take, List.length_append] at hlength
  simp only [lineDetails]
  omega

/-- A line with a comment token and no line break in front of the offset is the first one. -/
theorem line_start_of_notMem (hno : CodeUnit.ofBasic '\n' ∉ t.take n)
    (hmarker : (details t n fileName).marker.isSome = true) :
    (details t n fileName).line.start = 0 := by
  cases hheader : testHeader? fileName t with
  | none =>
      rw [(details_of_header_none hheader n).1] at hmarker
      cases hmarker
  | some h => rw [@details_split h t fileName [] (t.take n) n hheader rfl hno]; rfl

/-! ### The loop -/

/-- The line is passed: it asserts something, or it is the first one and has a comment token. -/
def Details.passes (d : Details) (first : Bool) : Bool :=
  d.assertion.isSome || (first && d.marker.isSome)

/-- The walk ends with a result.  At an offset in front of the text it ends with the line that has
been inspected last; otherwise it inspects the line at the offset, and goes on with the one above
while lines are passed. -/
inductive Walks (t : Text) (fileName : Option Text) : Bool → ℤ → Span → Tested → Prop
  | front {first offset last} (hoffset : offset < 0) : Walks t fileName first offset last ⟨[], last⟩
  | stop {first offset last} (hoffset : 0 ≤ offset)
      (hstop : (details t offset fileName).passes first = false) :
      Walks t fileName first offset last ⟨[], (details t offset fileName).line⟩
  | pass {first offset last r} (hoffset : 0 ≤ offset)
      (hpass : (details t offset fileName).passes first = true)
      (habove : Walks t fileName false ((details t offset fileName).line.start - 1)
        (details t offset fileName).line r) :
      Walks t fileName first offset last ⟨details t offset fileName :: r.assertions, r.line⟩

/-- What the walk ends with. -/
def walked (t : Text) (fileName : Option Text) (first : Bool) (offset : ℤ) (last : Span) : Tested :=
  if offset < 0 then ⟨[], last⟩ else climb t fileName first offset

/-- Each round goes on further up. -/
theorem start_le_of_passes {first : Bool} (hoffset : 0 ≤ offset)
    (hpass : (details t offset fileName).passes first = true) :
    (details t offset fileName).line.start ≤ offset := by
  obtain ⟨n, rfl⟩ := Int.eq_ofNat_of_zero_le hoffset
  cases hheader : testHeader? fileName t with
  | some h => exact details_start_le hheader n
  | none =>
      obtain ⟨hmarker, hassertion⟩ := details_of_header_none hheader n
      rw [Details.passes, hmarker, hassertion] at hpass
      cases first <;> cases hpass

theorem walked_stop {first : Bool} (hoffset : 0 ≤ offset)
    (hstop : (details t offset fileName).passes first = false) (last : Span) :
    walked t fileName first offset last = ⟨[], (details t offset fileName).line⟩ := by
  unfold Details.passes at hstop
  rw [walked, if_neg (Int.not_lt.mpr hoffset), climb, if_neg (Int.not_lt.mpr hoffset), hstop,
    if_neg Bool.false_ne_true]

theorem walked_pass {first : Bool} (hoffset : 0 ≤ offset)
    (hpass : (details t offset fileName).passes first = true) (last : Span) :
    walked t fileName first offset last =
      ⟨details t offset fileName ::
          (walked t fileName false ((details t offset fileName).line.start - 1)
            (details t offset fileName).line).assertions,
        (walked t fileName false ((details t offset fileName).line.start - 1)
          (details t offset fileName).line).line⟩ := by
  have hstart := start_le_of_passes hoffset hpass
  unfold Details.passes at hpass
  have hclimb : climb t fileName first offset = _ := climb.eq_1 t fileName first offset
  simp only [if_neg (Int.not_lt.mpr hoffset), if_pos hpass] at hclimb
  rw [walked, if_neg (Int.not_lt.mpr hoffset), hclimb, walked]
  rcases Int.lt_or_le ((details t offset fileName).line.start - 1) 0 with hneg | hnext
  · rw [dif_neg fun hcond => Int.not_lt.mpr hcond.1 hneg, if_pos hneg]
  · rw [dif_pos ⟨hnext, by omega⟩, if_neg (Int.not_lt.mpr hnext)]

/-- **The walk ends**, and with one result only. -/
theorem walks_iff {first : Bool} {last : Span} {r : Tested} :
    Walks t fileName first offset last r ↔ r = walked t fileName first offset last := by
  constructor
  · intro hwalks
    induction hwalks with
    | front hoffset => rw [walked, if_pos hoffset]
    | stop hoffset hstop => rw [walked_stop hoffset hstop]
    | pass hoffset hpass _ ih => rw [walked_pass hoffset hpass, ← ih]
  · rintro rfl
    -- a line that is passed begins no further down than the offset, and the next one is above it
    induction hk : offset.toNat using Nat.strong_induction_on generalizing first offset last with
    | _ k ih =>
        rcases Int.lt_or_le offset 0 with hneg | hoffset
        · rw [walked, if_pos hneg]
          exact .front hneg
        · cases hpass : (details t offset fileName).passes first with
          | false =>
              rw [walked_stop hoffset hpass]
              exact .stop hoffset hpass
          | true =>
              have hstart := start_le_of_passes hoffset hpass
              rw [walked_pass hoffset hpass]
              refine .pass hoffset hpass ?_
              rcases Int.lt_or_le ((details t offset fileName).line.start - 1) 0 with hneg | hnext
              · rw [walked, if_pos hneg]
                exact .front hneg
              · exact ih _ (by omega) rfl

/-! ### The run of assertion lines -/

/-- Where a line stands below others. -/
def spanBelow (above : List Text) (line : Text) : Span :=
  ⟨(ofAbove above).length, (ofAbove above).length + line.length⟩

/-- What lines say that stand below others, the nearest first. -/
def detailsUp (h : Header) (above : List Text) : List Text → List Details
  | [] => []
  | line :: lines =>
    lineDetails h (ofAbove (lines ++ above)).length line :: detailsUp h above lines

/-- The end of the nearest line. -/
theorem length_ofAbove_sub (line : Text) (above : List Text) :
    ((ofAbove (line :: above)).length : ℤ) - 1 = ((ofAbove above ++ line).length : ℕ) := by
  rw [Text.length_ofAbove]
  omega

/-- From the end of the nearest line the walk passes the lines that assert something. -/
theorem walked_run
    (hheader : testHeader? fileName (ofAbove (run ++ target :: above) ++ rest) = some h)
    (habove : ∀ l ∈ run ++ target :: above, CodeUnit.ofBasic '\n' ∉ l)
    (hrun : ∀ l ∈ run, (assertionIn? h l).isSome = true) (htarget : assertionIn? h target = none)
    (last : Span) :
    walked (ofAbove (run ++ target :: above) ++ rest) fileName false
        ((ofAbove (run ++ target :: above)).length - 1) last =
      ⟨detailsUp h (target :: above) run, spanBelow above target⟩ := by
  -- the line that is passed counts as part of what stands behind the lines above it
  induction run generalizing rest last with
  | nil =>
      have hdetails := details_line hheader (habove target List.mem_cons_self)
      rw [List.nil_append, length_ofAbove_sub,
        walked_stop (Int.natCast_nonneg _) (by
          rw [hdetails, Details.passes, lineDetails, htarget]; rfl), hdetails]
      rfl
  | cons l run ih =>
      rw [List.cons_append] at hheader habove
      obtain ⟨hl, habove⟩ := List.forall_mem_cons.mp habove
      obtain ⟨hassertion, hrun⟩ := List.forall_mem_cons.mp hrun
      have hdetails := details_line hheader hl
      rw [List.cons_append, length_ofAbove_sub,
        walked_pass (Int.natCast_nonneg _) (by
          rw [hdetails, Details.passes, lineDetails, hassertion, Bool.true_or]), hdetails]
      rw [Text.ofAbove_cons_append, List.append_assoc] at hheader ⊢
      simp only [lineDetails]
      rw [ih hheader habove hrun]
      rfl

/-- Lines one of which asserts nothing are a run of assertion lines, the nearest such line, and
others above it. -/
theorem exists_run {lines : List Text} (hlines : ∃ l ∈ lines, assertionIn? h l = none) :
    ∃ run target above, lines = run ++ target :: above ∧
      (∀ l ∈ run, (assertionIn? h l).isSome = true) ∧ assertionIn? h target = none := by
  obtain ⟨l, hl, hnone⟩ := hlines
  have hsome : (lines.find? fun l => (assertionIn? h l).isNone).isSome = true :=
    List.find?_isSome.mpr ⟨l, hl, by rw [hnone]; rfl⟩
  obtain ⟨target, htarget⟩ := Option.isSome_iff_exists.mp hsome
  obtain ⟨hnone, run, above, rfl, hrun⟩ := List.find?_eq_some_iff_append.mp htarget
  refine ⟨run, target, above, rfl, fun l hl => ?_, Option.isNone_iff_eq_none.mp hnone⟩
  simpa using hrun l hl

/-- From a line with a comment token the walk passes that line and the assertion lines above it. -/
theorem walked_place (hheader : testHeader? fileName t = some h)
    (htake : t.take n = ofAbove (run ++ target :: above) ++ front)
    (hfront : CodeUnit.ofBasic '\n' ∉ front)
    (habove : ∀ l ∈ run ++ target :: above, CodeUnit.ofBasic '\n' ∉ l)
    (hrun : ∀ l ∈ run, (assertionIn? h l).isSome = true) (htarget : assertionIn? h target = none)
    (hmarker : (markerOf? h (front ++ lineOf (t.drop n))).isSome = true) (last : Span) :
    walked t fileName true n last =
      ⟨detailsUp h (target :: above) ((front ++ lineOf (t.drop n)) :: run),
        spanBelow above target⟩ := by
  have hdetails := details_split hheader htake hfront
  have hsplit := Text.ofAbove_append_drop htake
  rw [← hsplit] at hheader
  have hwalked := walked_run hheader habove hrun htarget
  rw [hsplit] at hwalked
  rw [walked_pass (Int.natCast_nonneg n) (by
    rw [hdetails, Details.passes, lineDetails, hmarker, Bool.true_and, Bool.or_true]), hdetails]
  simp only [lineDetails]
  rw [hwalked]
  rfl

theorem tested_eq_walked (htest : isTest fileName t = true) (n : ℕ) (last : Span) :
    tested? t n fileName = some (walked t fileName true n last) := by
  rw [tested?, if_pos htest, walked, if_neg (Int.not_lt.mpr (Int.natCast_nonneg n))]

/-! ### The tested line -/

/-- The line that the walk up from these lines, the nearest first, ends at. -/
def testedSpan (h : Header) : List Text → Span
  | [] => ⟨0, 0⟩
  | line :: above =>
    if (assertionIn? h line).isSome then testedSpan h above
    else ⟨(ofAbove above).length, (ofAbove above).length + line.length⟩

/-- The text of that line. -/
def testedLine (h : Header) : List Text → Text
  | [] => []
  | line :: above => if (assertionIn? h line).isSome then testedLine h above else line

theorem length_testedLine (h : Header) (above : List Text) :
    (testedSpan h above).stop - (testedSpan h above).start = (testedLine h above).length := by
  induction above with
  | nil => rfl
  | cons line above ih =>
      rw [testedSpan, testedLine]
      split
      · exact ih
      · simp only
        omega

theorem testedSpan_run (hrun : ∀ l ∈ run, (assertionIn? h l).isSome = true)
    (htarget : assertionIn? h target = none) :
    testedSpan h (run ++ target :: above) = spanBelow above target := by
  induction run with
  | nil => rw [List.nil_append, testedSpan, htarget]; rfl
  | cons l run ih =>
      obtain ⟨hl, hrun⟩ := List.forall_mem_cons.mp hrun
      rw [List.cons_append, testedSpan, if_pos hl, ih hrun]

/-- The lines of a text around an offset behind the first line. -/
theorem exists_lines {first behind : Text} (ht : t = first ++ CodeUnit.ofBasic '\n' :: behind)
    (hoffset : first.length + 1 ≤ n) :
    ∃ above front below, t.take n = ofAbove above ++ front ∧ CodeUnit.ofBasic '\n' ∉ front ∧
      above ≠ [] ∧ (∀ l ∈ above, CodeUnit.ofBasic '\n' ∉ l) ∧
      Text.splitOn '\n' t = above.reverse ++ (front ++ lineOf (t.drop n)) :: below ∧
      (ofAbove above).length ≤ n ∧
      (n ≤ (ofAbove above).length + (front ++ lineOf (t.drop n)).length ∨ below = []) := by
  obtain ⟨above, front, htake, hfront, habove⟩ := Text.exists_ofAbove (t.take n)
  have hsplit := Text.ofAbove_append_drop htake
  have hlength := congrArg List.length htake
  rw [List.length_take, List.length_append] at hlength
  refine ⟨above, front, (Text.splitOn '\n' (front ++ t.drop n)).tail, htake, hfront, ?_, habove, ?_,
    by omega, ?_⟩
  · rintro rfl
    have hbreak : first ++ [CodeUnit.ofBasic '\n'] <+: t.take n := by
      refine List.prefix_take_iff.mpr ⟨⟨behind, ?_⟩, by rw [List.length_append]; exact hoffset⟩
      rw [ht, List.append_assoc]
      rfl
    rw [htake] at hbreak
    exact hfront (hbreak.subset (List.mem_append_right _ (List.mem_singleton_self _)))
  · nth_rewrite 1 [← hsplit]
    rw [Text.splitOn_ofAbove habove, Text.head_splitOn, Text.lineOf_append hfront]
    rfl
  · rw [List.length_append]
    rcases Nat.le_total n t.length with hle | hle
    · exact .inl (by omega)
    · refine .inr ?_
      rw [List.drop_eq_nil_of_le hle, List.append_nil, Text.splitOn_of_notMem hfront]
      rfl

/-- **The tested line.**  From an offset behind the first line of a test the walk ends.  If the line
there has no comment token, no assertion is found and that line; otherwise that line is found and
the run of assertion lines right above it, the nearest first, and the first line above them, which
asserts nothing. -/
theorem tested_lines {first behind : Text} (hheader : header? t = some h)
    (hname : ∀ name ∈ fileName, Dialect.isTestFileName name = true)
    (ht : t = first ++ CodeUnit.ofBasic '\n' :: behind)
    (hoffset : (first.length : ℤ) + 1 ≤ offset) :
    ∃ above line below r, Text.splitOn '\n' t = above.reverse ++ line :: below ∧
      (ofAbove above).length ≤ offset ∧
      (offset ≤ (ofAbove above).length + line.length ∨ below = []) ∧
      Walks t fileName true offset (details t offset fileName).line r ∧
      tested? t offset fileName = some r ∧
      (markerOf? h line = none → r = ⟨[], spanBelow above line⟩) ∧
      ((markerOf? h line).isSome → ∃ run target upper, above = run ++ target :: upper ∧
        (∀ l ∈ run, (assertionIn? h l).isSome) ∧ assertionIn? h target = none ∧
        r = ⟨detailsUp h (target :: upper) (line :: run), spanBelow upper target⟩) := by
  obtain ⟨n, rfl⟩ := Int.eq_ofNat_of_zero_le (show 0 ≤ offset by omega)
  have htest : isTest fileName t = true := by
    cases fileName with
    | some name => exact hname name rfl
    | none => rw [isTest, hheader]; rfl
  have hheader' : testHeader? fileName t = some h := testHeader_iff.mpr ⟨htest, hheader⟩
  obtain ⟨above, front, below, htake, hfront, hne, habove, hlines, hstart, hstop⟩ :=
    @exists_lines t n first behind ht (by omega)
  have hdetails := details_split hheader' htake hfront
  refine ⟨above, front ++ lineOf (t.drop n), below, _, hlines, by omega, ?_, walks_iff.mpr rfl,
    tested_eq_walked htest n _, fun hmarker => ?_, fun hmarker => ?_⟩
  · exact hstop.imp_left fun hle => by omega
  · have hassertion : assertionIn? h (front ++ lineOf (t.drop n)) = none := by
      rw [assertionIn?, hmarker]
      rfl
    rw [walked_stop (Int.natCast_nonneg n) (by
      rw [hdetails, Details.passes, lineDetails, hmarker, hassertion]; rfl), hdetails]
    rfl
  · obtain ⟨nearest, above', rfl⟩ := List.exists_cons_of_ne_nil hne
    rw [← Text.ofAbove_append_drop htake] at hheader
    obtain ⟨run, target, upper, hrun, hasserting, htarget⟩ :=
      exists_run (exists_not_asserting hheader habove)
    rw [hrun] at htake habove
    exact ⟨run, target, upper, hrun, hasserting, htarget,
      walked_place hheader' htake hfront habove hasserting htarget hmarker _⟩

/-- Two assertion lines stand between the line that is typed and the tested one. -/
theorem tested_lines_run :
    let t : Text := "# SYNTAX TEST \"s\"\nab\n# ^\n#<-\n#"
    let r : Tested := ⟨[⟨some ⟨0, 1⟩, none, ⟨29, 30⟩⟩, ⟨some ⟨0, 1⟩, some ⟨0, 0⟩, ⟨25, 28⟩⟩,
      ⟨some ⟨0, 1⟩, some ⟨2, 3⟩, ⟨21, 24⟩⟩], ⟨18, 20⟩⟩
    header? t = some ⟨"#", none⟩ ∧ t = "# SYNTAX TEST \"s\"" ++ CodeUnit.ofBasic '\n' :: t.drop 18 ∧
      tested? t 30 none = some r ∧ Walks t none true 30 (details t 30 none).line r := by
  intro t r
  have hheader : header? t = some ⟨"#", none⟩ := by decide
  have ht : t = "# SYNTAX TEST \"s\"" ++ CodeUnit.ofBasic '\n' :: t.drop 18 := by decide
  obtain ⟨-, -, -, r', -, -, -, hwalks, htested, -, -⟩ :=
    @tested_lines _ t none 30 _ _ hheader nofun ht (by decide)
  have hsame : (tested? t 30 none).map (fun r => (r.assertions, r.line)) =
      some (r.assertions, r.line) := by decide +kernel
  rw [htested] at hsame
  obtain ⟨hassertions, hline⟩ := Prod.mk.inj (Option.some.inj hsame)
  obtain rfl : r' = r := by
    cases r'
    exact congrArg₂ Tested.mk hassertions hline
  exact ⟨hheader, ht, htested, hwalks⟩

end SyntaxTest
end Scopewright
