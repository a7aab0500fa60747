import Mathlib.Data.List.Basic
import Scopewright.Cursor.Yaml

/-! # The walk up over any lines

Of the lines around the cursor, those who walk over them see only what each line opens
(`itemsAbove_congr`, `climb_congr`, `keysAbove_congr`, `keysBelow_congr`).  The walk up puts steps
before the path that it is given and leaves the token alone (`exists_climb`), unless the nearest
owner announces a block of text and so takes the cursor's line for text of it (`inText`). -/

namespace Scopewright
namespace Cursor
namespace Yaml

open Scopewright.Yaml

/-! ### What is seen of a line -/

/-- Two lines open the same. -/
def Alike (line line' : Text) : Prop := lineEntries line = lineEntries line'

section Alike

variable {lines lines' : List Text} (h : List.Forall₂ Alike lines lines')

include h

theorem itemsAbove_congr (col : ℕ) : itemsAbove col lines = itemsAbove col lines' := by
  induction h with
  | nil => rfl
  | cons hline _ ih => rw [itemsAbove, itemsAbove, hline, ih]

theorem keysAbove_congr (col : ℕ) : keysAbove col lines = keysAbove col lines' := by
  induction h with
  | nil => rfl
  | cons hline _ ih => rw [keysAbove, keysAbove, hline, ih]

theorem keysBelow_congr (col : ℕ) : keysBelow col lines = keysBelow col lines' := by
  induction h with
  | nil => rfl
  | cons hline _ ih => rw [keysBelow, keysBelow, hline, ih]

theorem climb_congr (before : Text) (offset : ℕ) (n : Need) (first : Bool) (f : Found) :
    climb before offset n first f lines = climb before offset n first f lines' := by
  induction h generalizing n first f with
  | nil => rfl
  | cons hline habove ih =>
      rw [Alike] at hline
      simp only [climb, hline, itemsAbove_congr habove, ih]

end Alike

/-! ### What the walk up adds -/

/-- The nearest entry above that owns what is needed. -/
def nearest? (n : Need) (lines : List Text) : Option LineEntry :=
  lines.findSome? fun line => owner? n (lineEntries line)

/-- The entry announces a block of text. -/
def announcesText : LineEntry → Bool
  | .dash _ => false
  | .key _ _ _ blockScalar => blockScalar

/-- The cursor's line is text of a value. -/
def inText (n : Need) (lines : List Text) : Bool := n.isMap && (nearest? n lines).any announcesText

/-- Nothing stands to the left of a mapping in the first column. -/
theorem nearest?_of_col_eq_zero {n : Need} (hcol : n.col = 0) (hmap : n.isMap = true)
    (lines : List Text) : nearest? n lines = none := by
  refine List.findSome?_eq_none_iff.mpr fun line _ => ?_
  have hnone : ∀ e : LineEntry, (decide (e.col < n.col) || ownsCompactly n e) = false := by
    intro e
    cases e <;> simp [hcol, hmap, ownsCompactly]
  simp [owner?, hnone]

/-- Once an owner has been found, the walk up puts steps before the path. -/
theorem exists_climb_false (n : Need) (lines : List Text) : ∃ (p : Path) (broken : Bool),
    ∀ (before : Text) (offset : ℕ) (f : Found), climb before offset n false f lines =
      ⟨p ++ f.path, f.token, f.malformed || broken⟩ := by
  induction lines generalizing n with
  | nil => exact ⟨[], false, fun _ _ f => by simp [climb]⟩
  | cons line lines ih =>
      by_cases hn : n.col = 0
      · exact ⟨[], false, fun _ _ f => by simp [climb, hn]⟩
      cases ho : owner? n (lineEntries line) with
      | none =>
          obtain ⟨p, broken, h⟩ := ih n
          exact ⟨p, broken, fun _ _ f => by simp [climb, hn, ho, h]⟩
      | some e =>
          cases e with
          | dash col =>
              obtain ⟨p, broken, h⟩ := ih ⟨false, col⟩
              exact ⟨p ++ [.index (itemsAbove col lines)], broken, fun _ _ f => by
                simp [climb, hn, ho, h]⟩
          | key col name hasValue blockScalar =>
              cases hasValue with
              | true => exact ⟨[], true, fun _ _ f => by simp [climb, hn, ho]⟩
              | false =>
                  obtain ⟨p, broken, h⟩ := ih ⟨true, col⟩
                  exact ⟨p ++ [.key name], broken, fun _ _ f => by simp [climb, hn, ho, h]⟩

/-- The walk up puts steps before the path, or the cursor's line is text of the nearest owner. -/
theorem exists_climb (n : Need) (lines : List Text) : ∃ (p : Path) (broken : Bool),
    ∀ (before : Text) (offset : ℕ) (f : Found), climb before offset n true f lines =
      if inText n lines then ⟨p, blockTextToken before offset, f.malformed || broken⟩
      else ⟨p ++ f.path, f.token, f.malformed || broken⟩ := by
  induction lines with
  | nil => exact ⟨[], false, fun _ _ f => by simp [climb, inText, nearest?]⟩
  | cons line lines ih =>
      by_cases hn : n.col = 0
      · have htext : inText n (line :: lines) = false := by
          unfold inText
          cases hmap : n.isMap with
          | false => rfl
          | true => rw [nearest?_of_col_eq_zero hn hmap]; rfl
        exact ⟨[], false, fun _ _ f => by simp [climb, hn, htext]⟩
      cases ho : owner? n (lineEntries line) with
      | none =>
          obtain ⟨p, broken, h⟩ := ih
          have htext : inText n (line :: lines) = inText n lines := by
            simp [inText, nearest?, ho]
          exact ⟨p, broken, fun _ _ f => by simp [climb, hn, ho, h, htext]⟩
      | some e =>
          have htext : inText n (line :: lines) = (n.isMap && announcesText e) := by
            simp [inText, nearest?, ho]
          cases e with
          | dash col =>
              obtain ⟨p, broken, h⟩ := exists_climb_false ⟨false, col⟩ lines
              exact ⟨p ++ [.index (itemsAbove col lines)], broken, fun _ _ f => by
                simp [climb, hn, ho, h, htext, announcesText]⟩
          | key col name hasValue blockScalar =>
              obtain ⟨p, broken, h⟩ := exists_climb_false ⟨true, col⟩ lines
              by_cases hb : blockScalar = true ∧ n.isMap = true
              · exact ⟨p ++ [.key name], broken, fun _ _ f => by
                  simp [climb, hn, ho, h, htext, announcesText, hb]⟩
              · have hb' : (n.isMap && blockScalar) = false := by
                  rw [Bool.and_comm, Bool.eq_false_iff, Ne, Bool.and_eq_true]
                  exact hb
                cases hasValue with
                | true =>
                    exact ⟨[], true, fun _ _ f => by
                      simp [climb, hn, ho, htext, announcesText, hb', Bool.and_comm blockScalar]⟩
                | false =>
                    exact ⟨p ++ [.key name], broken, fun _ _ f => by
                      simp [climb, hn, ho, h, htext, announcesText, hb',
                        Bool.and_comm blockScalar]⟩

/-! ### The walk up from a cursor line -/

/-- The part of a line behind its indentation, by its dashes. -/
def inner (line : Text) : Dashes := dashes (indentOf line) (line.drop (indentOf line))

/-- What the walk up from a cursor line looks for: an owner of its first dash, or of its key. -/
def need (d : Dashes) : Need :=
  match d.cols with
  | [] => ⟨true, d.contentCol⟩
  | col :: _ => ⟨false, col⟩

/-- What the cursor line tells, before the walk up. -/
def outset (d : Dashes) (offset : ℕ) (above : List Text) : Found :=
  ⟨itemSteps d.cols above ++ (onLine d offset).1, (onLine d offset).2, false⟩

/-- What is found from a cursor line upward. -/
def ascend (before : Text) (offset : ℕ) (above : List Text) : Found :=
  climb before offset (need (inner before)) true (outset (inner before) offset above) above

theorem resolve_eq (t : Text) (offset : ℕ) :
    resolve t offset =
      let lines := Lines.around t offset
      let f := ascend lines.before offset lines.above
      ⟨f.path, f.token,
        if f.token.position = .key then
          keysAbove (inner lines.before).contentCol lines.above ++
            keysBelow (inner lines.before).contentCol lines.below
        else [], f.malformed⟩ := rfl

end Yaml
end Cursor
end Scopewright
