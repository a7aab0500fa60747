import Mathlib.Data.List.TakeWhile
import Scopewright.Proofs.Text.Split
import Scopewright.Text.Class

/-! # Carriage returns in front of line breaks

Line breaks may be written with a carriage return in front (`Text.withReturns`), and then every line
but the last one ends with it (`Text.splitOn_withReturns`).  A place in the text moves by the number
of line breaks before it (`Text.take_withReturns`, `Text.drop_withReturns`), and so does a span
(`Text.returnedSpan`).  White space at the front or the end of a line swallows the carriage return. -/

namespace Scopewright
namespace Text

/-- The line with a carriage return at its end. -/
def addReturn (line : Text) : Text := line ++ [CodeUnit.ofBasic '\r']

/-- The text with a carriage return in front of each line break. -/
def withReturns (t : Text) : Text := t.replaceUnit '\n' "\r\n"

/-- The lines of a text with a carriage return at the end of each but the last. -/
def returned (lines : List Text) : List Text :=
  lines.dropLast.map addReturn ++ lines.getLast?.toList

/-- The number of line breaks before an offset. -/
def breaksBefore (t : Text) (offset : ℕ) : ℕ := (t.take offset).count (CodeUnit.ofBasic '\n')

/-- The same span in the text with carriage returns. -/
def returnedSpan (t : Text) (span : Span) : Span :=
  ⟨span.start + t.breaksBefore span.start.toNat, span.stop + t.breaksBefore span.stop.toNat⟩

/-! ### Lines -/

theorem addReturn_cons (c : CodeUnit) (t : Text) : addReturn (c :: t) = c :: addReturn t := rfl

theorem length_addReturn (t : Text) : (addReturn t).length = t.length + 1 := List.length_append

/-- A part of the line leaves the carriage return behind it. -/
theorem drop_addReturn {t : Text} {n : ℕ} (h : n ≤ t.length) :
    (addReturn t).drop n = addReturn (t.drop n) := List.drop_append_of_le_length h

theorem takeWhile_addReturn {p : CodeUnit → Bool} (h : p (CodeUnit.ofBasic '\r') = false)
    (t : Text) : (addReturn t).takeWhile p = t.takeWhile p := by
  rw [addReturn, List.takeWhile_append]
  split
  · rename_i hall
    rw [List.takeWhile_cons_of_neg (by rw [h]; exact Bool.false_ne_true), List.append_nil]
    exact ((List.takeWhile_prefix p).eq_of_length hall).symm
  · rfl

theorem returned_cons_cons (l m : Text) (lines : List Text) :
    returned (l :: m :: lines) = addReturn l :: returned (m :: lines) := rfl

theorem returned_concat (lines : List Text) (l : Text) :
    returned (lines ++ [l]) = lines.map addReturn ++ [l] := by
  simp [returned]

theorem tail_returned (lines : List Text) : (returned lines).tail = returned lines.tail := by
  match lines with
  | [] => rfl
  | [_] => rfl
  | _ :: _ :: _ => rfl

theorem withReturns_cons (c : CodeUnit) (t : Text) :
    withReturns (c :: t) =
      (if c = CodeUnit.ofBasic '\n' then ("\r\n" : Text) else [c]) ++ withReturns t :=
  rfl

theorem splitOn_withReturns (t : Text) :
    splitOn '\n' (withReturns t) = returned (splitOn '\n' t) := by
  induction t with
  | nil => rfl
  | cons c t ih =>
      obtain ⟨l, ls, hls⟩ := List.exists_cons_of_ne_nil (splitOn_ne_nil (c := '\n') t)
      have hreturn : ¬ CodeUnit.ofBasic '\r' = CodeUnit.ofBasic '\n' := by decide
      rw [withReturns_cons, splitOn]
      by_cases hc : c = CodeUnit.ofBasic '\n'
      · rw [if_pos hc, if_pos hc, hls, returned_cons_cons, ← hls, ← ih]
        exact splitOn_append (p := [CodeUnit.ofBasic '\r']) (by decide) _
      · rw [if_neg hc, if_neg hc, List.singleton_append, splitOn, if_neg hc, ih, hls]
        cases ls with
        | nil => rfl
        | cons m ls => rfl

/-- A text without line breaks gets no carriage returns. -/
theorem withReturns_of_notMem {t : Text} (ht : CodeUnit.ofBasic '\n' ∉ t) : withReturns t = t := by
  induction t with
  | nil => rfl
  | cons c t ih =>
      obtain ⟨hc, ht⟩ := not_or.mp (mt List.mem_cons.mpr ht)
      rw [withReturns_cons, if_neg (Ne.symm hc), ih ht, List.singleton_append]

theorem break_mem_withReturns (t : Text) :
    CodeUnit.ofBasic '\n' ∈ withReturns t ↔ CodeUnit.ofBasic '\n' ∈ t := by
  constructor
  · intro hmem
    by_contra hno
    rw [withReturns_of_notMem hno] at hmem
    exact hno hmem
  · intro hmem
    exact List.mem_flatMap.mpr ⟨_, hmem, List.mem_cons_of_mem _ (List.mem_singleton_self _)⟩

/-! ### Offsets -/

theorem withReturns_append (s t : Text) :
    withReturns (s ++ t) = withReturns s ++ withReturns t := List.flatMap_append

theorem length_withReturns (t : Text) :
    (withReturns t).length = t.length + t.count (CodeUnit.ofBasic '\n') := by
  induction t with
  | nil => rfl
  | cons c t ih =>
      rw [withReturns_cons, List.length_append, ih, List.length_cons, List.count_cons]
      by_cases hc : c = CodeUnit.ofBasic '\n'
      · have hlen : List.length ("\r\n" : Text) = 2 := rfl
        rw [if_pos hc, if_pos (beq_iff_eq.mpr hc), hlen]
        omega
      · rw [if_neg hc, if_neg (mt beq_iff_eq.mp hc), List.length_singleton]
        omega

theorem length_take_withReturns {t : Text} {offset : ℕ} (h : offset ≤ t.length) :
    (withReturns (t.take offset)).length = offset + t.breaksBefore offset := by
  rw [length_withReturns, List.length_take_of_le h, breaksBefore]

/-- A place moves by the line breaks before it, and a place behind the text by all of them. -/
theorem withReturns_split (t : Text) (offset : ℕ) :
    withReturns t = withReturns (t.take offset) ++ withReturns (t.drop offset) ∧
      (withReturns (t.take offset)).length ≤ offset + t.breaksBefore offset ∧
      ((withReturns (t.take offset)).length = offset + t.breaksBefore offset ∨
        t.drop offset = []) := by
  have hlength := length_withReturns (t.take offset)
  rw [List.length_take] at hlength
  refine ⟨by rw [← withReturns_append, List.take_append_drop], by rw [breaksBefore]; omega, ?_⟩
  rcases Nat.le_total offset t.length with hle | hle
  · rw [Nat.min_eq_left hle] at hlength
    exact .inl hlength
  · exact .inr (List.drop_eq_nil_of_le hle)

theorem take_withReturns (t : Text) (offset : ℕ) :
    (withReturns t).take (offset + t.breaksBefore offset) = withReturns (t.take offset) := by
  obtain ⟨hsplit, hle, heq | hnil⟩ := withReturns_split t offset
  · rw [hsplit, List.take_left' heq]
  · rw [hnil, show withReturns [] = [] from rfl, List.append_nil] at hsplit
    rw [hsplit]
    exact List.take_of_length_le hle

theorem drop_withReturns (t : Text) (offset : ℕ) :
    (withReturns t).drop (offset + t.breaksBefore offset) = withReturns (t.drop offset) := by
  obtain ⟨hsplit, hle, heq | hnil⟩ := withReturns_split t offset
  · rw [hsplit, List.drop_left' heq]
  · rw [hnil, show withReturns [] = [] from rfl, List.append_nil] at hsplit
    rw [hsplit, hnil]
    exact List.drop_eq_nil_of_le hle

theorem returnedSpan_natCast (t : Text) (start stop : ℕ) :
    t.returnedSpan ⟨start, stop⟩ =
      ⟨(start + t.breaksBefore start : ℕ), (stop + t.breaksBefore stop : ℕ)⟩ := rfl

/-! ### White space -/

theorem trimEnd_addReturn (t : Text) : (addReturn t).trimEnd = t.trimEnd := by
  rw [trimEnd, addReturn, List.reverse_concat, List.dropWhile_cons_of_pos (by decide)]
  rfl

theorem dropBlanks_addReturn (line : Text) :
    (addReturn line).dropWhile CodeUnit.isBlank =
      if line.dropWhile CodeUnit.isBlank = [] then []
      else addReturn (line.dropWhile CodeUnit.isBlank) := by
  rw [addReturn, List.dropWhile_append]
  by_cases hnil : line.dropWhile CodeUnit.isBlank = []
  · rw [if_pos (List.isEmpty_iff.mpr hnil), if_pos hnil]
    rfl
  · rw [if_neg fun h => hnil (List.isEmpty_iff.mp h), if_neg hnil]
    rfl

theorem trim_addReturn (t : Text) : (addReturn t).trim = t.trim := by
  rw [trim, trim, trimStart, trimStart, dropBlanks_addReturn]
  split
  · rename_i hnil
    rw [hnil]
  · exact trimEnd_addReturn _

/-- A text without a carriage return stands at the front of a line or does not, with one at the end
or without it. -/
theorem isPrefixOf_addReturn {head line : Text} (h : CodeUnit.ofBasic '\r' ∉ head) :
    head.isPrefixOf (addReturn line) = head.isPrefixOf line := by
  rw [Bool.eq_iff_iff, List.isPrefixOf_iff_prefix, List.isPrefixOf_iff_prefix, addReturn,
    List.prefix_concat_iff]
  refine ⟨fun hhead => hhead.resolve_left fun heq => h ?_, .inr⟩
  rw [heq]
  exact List.mem_append_right _ (List.mem_singleton_self _)

end Text
end Scopewright
