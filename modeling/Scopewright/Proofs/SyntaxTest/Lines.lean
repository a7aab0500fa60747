import Mathlib.Data.Int.Notation
import Scopewright.Proofs.Text.Find
import Scopewright.Proofs.Text.Split
import Scopewright.SyntaxTest.Line

/-! # The lines of a syntax test

Behind a line break stands the line up to the next one (`lineAt_behind`), so what a line says as an
assertion line is told from its own text (`details_behind`).  The selector of an assertion is what
stands behind its marker (`selectorColumn?`, `selectorOf?`), in the line (`selectorColumn_le`). -/

namespace Scopewright

namespace Text

/-- The line that a text begins with. -/
def lineOf (t : Text) : Text := t.takeWhile (· ≠ CodeUnit.ofBasic '\n')

theorem length_lineOf (t : Text) :
    (t.findIdx? (· = CodeUnit.ofBasic '\n')).getD t.length = (lineOf t).length := by
  induction t with
  | nil => rfl
  | cons c r ih =>
      rw [List.findIdx?_cons, lineOf]
      by_cases hc : c = CodeUnit.ofBasic '\n'
      · rw [List.takeWhile_cons_of_neg (by simpa using hc), decide_eq_true hc]
        rfl
      · rw [List.takeWhile_cons_of_pos (by simpa using hc), decide_eq_false hc,
          if_neg Bool.false_ne_true, List.length_cons, List.length_cons, ← lineOf, ← ih]
        cases r.findIdx? (· = CodeUnit.ofBasic '\n') <;> rfl

theorem lineOf_isPrefix (t : Text) : lineOf t <+: t := List.takeWhile_prefix _

/-- A text is its first line, or goes on with a line break. -/
theorem eq_lineOf_or_break (t : Text) :
    t = lineOf t ∨ ∃ behind, t = lineOf t ++ CodeUnit.ofBasic '\n' :: behind := by
  obtain ⟨rest, hrest⟩ := lineOf_isPrefix t
  cases rest with
  | nil => exact .inl (hrest.symm.trans (List.append_nil _))
  | cons c behind =>
      have hbreak := List.takeWhile_append_dropWhile
        (p := fun c => decide (c ≠ CodeUnit.ofBasic '\n')) (l := t)
      have hdrop := List.append_cancel_left (hrest.trans hbreak.symm)
      have hc := head_dropWhile _ t c (by rw [← hdrop]; rfl)
      obtain rfl : c = CodeUnit.ofBasic '\n' := by simpa using hc
      exact .inr ⟨behind, hrest.symm⟩

theorem break_notMem_lineOf (t : Text) : CodeUnit.ofBasic '\n' ∉ lineOf t := by
  intro h
  simpa using List.mem_takeWhile_imp h

theorem head_splitOn (t : Text) :
    splitOn '\n' t = lineOf t :: (splitOn '\n' t).tail := by
  induction t with
  | nil => rfl
  | cons c r ih =>
      rw [splitOn, lineOf]
      by_cases hc : c = CodeUnit.ofBasic '\n'
      · rw [if_pos hc, List.takeWhile_cons_of_neg (by simpa using hc)]
        rfl
      · rw [if_neg hc, List.takeWhile_cons_of_pos (by simpa using hc), ih]
        rfl

theorem between_drop {t : Text} {a n : ℕ} (h : a + n ≤ t.length) :
    t.between (a : ℤ) ((a : ℤ) + n) = (t.drop a).take n := by
  have ha : t.clamp (a : ℤ) = a := by
    unfold clamp
    omega
  have hb : t.clamp ((a : ℤ) + n) = a + n := by
    unfold clamp
    omega
  rw [between, ha, hb, Nat.min_eq_left (Nat.le_add_right a n),
    Nat.max_eq_right (Nat.le_add_right a n), Nat.add_sub_cancel_left]

theorem drop_behind (before behind : Text) :
    (before ++ CodeUnit.ofBasic '\n' :: behind).drop (before.length + 1) = behind := by
  rw [List.drop_append, List.drop_of_length_le (Nat.le_succ _), Nat.add_sub_cancel_left]
  rfl

end Text

namespace SyntaxTest

/-- The line that stands behind a line break. -/
theorem lineAt_behind (before behind : Text) :
    lineAt (before ++ CodeUnit.ofBasic '\n' :: behind) (before.length + 1 : ℕ) =
      ⟨(before.length + 1 : ℕ), (before.length + 1 : ℕ) + (Text.lineOf behind).length⟩ := by
  have hclamp : Text.clamp (before ++ CodeUnit.ofBasic '\n' :: behind) (before.length + 1 : ℕ) =
      before.length + 1 := by
    rw [Text.clamp, List.length_append, List.length_cons]
    omega
  have htake : (before ++ CodeUnit.ofBasic '\n' :: behind).take (before.length + 1) =
      before ++ [CodeUnit.ofBasic '\n'] := by
    rw [List.take_append, List.take_of_length_le (by omega), Nat.add_sub_cancel_left]
    rfl
  have hstart : Text.lastIndex? (before ++ [CodeUnit.ofBasic '\n']) '\n' = some before.length := by
    rw [Text.lastIndex?, List.reverse_concat, List.findIdx?_cons]
    simp
  have hstop : ((Text.indexFrom? (before ++ CodeUnit.ofBasic '\n' :: behind) '\n'
      (before.length + 1)).getD (before ++ CodeUnit.ofBasic '\n' :: behind).length) =
      before.length + 1 + (Text.lineOf behind).length := by
    rw [Text.indexFrom?, Text.drop_behind, ← Text.length_lineOf]
    cases behind.findIdx? (· = CodeUnit.ofBasic '\n') with
    | none =>
        simp only [Option.map_none, Option.getD_none, List.length_append, List.length_cons]
        omega
    | some k => rfl
  simp only [lineAt, hclamp]
  rw [Nat.max_eq_left (Nat.le_add_left 1 _), htake, hstart, hstop]
  simp

theorem lineText_behind (before behind : Text) :
    lineText (before ++ CodeUnit.ofBasic '\n' :: behind)
      ⟨(before.length + 1 : ℕ), (before.length + 1 : ℕ) + (Text.lineOf behind).length⟩ =
      Text.lineOf behind := by
  have hle := (Text.lineOf_isPrefix behind).length_le
  rw [lineText, Text.between_drop (by rw [List.length_append, List.length_cons]; omega),
    Text.drop_behind]
  exact (List.prefix_iff_eq_take.mp (Text.lineOf_isPrefix behind)).symm

/-- What a line behind a line break says depends on its own text. -/
theorem details_behind {t before behind : Text} {h : Header} (hheader : header? t = some h)
    (ht : t = before ++ CodeUnit.ofBasic '\n' :: behind) :
    details t (before.length + 1 : ℕ) none =
      ⟨markerOf? h (Text.lineOf behind),
        (markerOf? h (Text.lineOf behind)).bind (assertionOf? · (Text.lineOf behind)),
        ⟨(before.length + 1 : ℕ), (before.length + 1 : ℕ) + (Text.lineOf behind).length⟩⟩ := by
  have hline : lineAt t (before.length + 1 : ℕ) = _ := ht ▸ lineAt_behind before behind
  have htext : lineText t _ = Text.lineOf behind := ht ▸ lineText_behind before behind
  rw [details, hline, detailsOf, isTest, hheader]
  simp only [Option.isSome_some, if_true, htext]

/-! ### Selectors -/

/-- The column of a line in which the selector of its assertion begins. -/
def selectorColumn? (h : Header) (line : Text) : Option Nat := do
  let marker ← markerOf? h line
  let mark ← assertionMark? (line.drop marker.stop)
  return marker.stop + mark.length

/-- The selector of the assertion in a line, with what closes the comment. -/
def selectorOf? (h : Header) (line : Text) : Option Text :=
  (selectorColumn? h line).map (line.drop ·)

variable {h : Header} {line : Text}

theorem markerOf_stop_le {marker : Columns} (hmarker : markerOf? h line = some marker) :
    marker.stop ≤ line.length := by
  unfold markerOf? at hmarker
  obtain ⟨hhead, hmarker⟩ := Option.ite_none_right_eq_some.mp hmarker
  have hbody := (List.isPrefixOf_iff_prefix.mp hhead).length_le
  have hle := (List.dropWhile_suffix (l := line) CodeUnit.isBlank).length_le
  rw [← Option.some.inj hmarker]
  simp only
  omega

theorem assertionMark_length_le {m : AssertionMark} (hm : assertionMark? line = some m) :
    m.length ≤ line.length := by
  have hle := (List.dropWhile_suffix (l := line) CodeUnit.isBlank).length_le
  unfold assertionMark? at hm
  simp only at hm
  split at hm
  · rename_i harrow
    have hbody : 2 ≤ (line.dropWhile CodeUnit.isBlank).length :=
      (List.isPrefixOf_iff_prefix.mp harrow).length_le
    rw [← Option.some.inj hm, AssertionMark.length, if_pos rfl]
    simp only
    omega
  · have hcarets := (List.takeWhile_prefix (l := line.dropWhile CodeUnit.isBlank)
      fun c => decide (c = CodeUnit.ofBasic '^')).length_le
    obtain ⟨-, hm⟩ := Option.ite_none_left_eq_some.mp hm
    rw [← Option.some.inj hm, AssertionMark.length, if_neg Bool.false_ne_true]
    simp only
    omega

theorem selectorColumn_le {column : ℕ} (hcolumn : selectorColumn? h line = some column) :
    column ≤ line.length := by
  obtain ⟨marker, hmarker, hcolumn⟩ := Option.bind_eq_some_iff.mp hcolumn
  obtain ⟨mark, hmark, hcolumn⟩ := Option.bind_eq_some_iff.mp hcolumn
  have hstop := markerOf_stop_le hmarker
  have hlength := assertionMark_length_le hmark
  rw [List.length_drop] at hlength
  rw [← Option.some.inj hcolumn]
  omega

end SyntaxTest
end Scopewright
