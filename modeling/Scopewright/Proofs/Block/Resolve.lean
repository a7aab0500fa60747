import Scopewright.Proofs.Block.Nesting
import Scopewright.Proofs.Text.Split

/-! # The cursor at the end of a marked line

Resolving a cursor at the end of the marked line walks up over the lines above it
(`Spot.resolve_eq_walk`), whatever stands below.  So the path is found if the way to the line can be
followed (`Spot.resolve_of_followable`). -/

namespace Scopewright
namespace Block

open Yaml Cursor.Yaml
open Cursor (Segment Token)

/-! ### The marked line -/

theorem blanks_spaces (n : ℕ) {t : Text} (h : ∀ c, t.head? = some c → c.isBlank = false) :
    blanks (spaces n ++ t) = n := by
  have hdrop := congrArg List.length (dropWhile_spaces n h)
  have hsplit := congrArg List.length
    (List.takeWhile_append_dropWhile (p := CodeUnit.isBlank) (l := spaces n ++ t))
  rw [List.length_append, List.length_append, hdrop, length_spaces] at hsplit
  exact Nat.add_right_cancel hsplit

/-- A word opens no flow sequence. -/
theorem flowItem?_word (w : Word) : flowItem? w.text = none := by
  obtain ⟨c, r, hw⟩ := w.exists_cons
  have hc : c ≠ CodeUnit.ofBasic '[' := w.head_ne hw (by decide) (by decide)
  rw [flowItem?, hw, if_neg (by simpa using hc)]

theorem exists_onLine (cols : List ℕ) (col : ℕ) (k : Key) (gap : ℕ) (w : Word) (offset : ℕ) :
    ∃ token, onLine ⟨cols, col, (Body.pair k gap w).text⟩ offset = ([.key k.name], token) := by
  have hhead : (spaces (gap + 1) ++ w.text).head?.all CodeUnit.isBlank = true := rfl
  have hkey := keyHead?_key k hhead
  have hword : ∀ c, w.text.head? = some c → c.isBlank = false :=
    fun c hc => w.notBlank c (List.mem_of_mem_head? hc)
  have hvalue : (spaces (gap + 1) ++ w.text).drop (gap + 1) = w.text :=
    List.drop_left' (length_spaces _)
  refine ⟨(valueToken (spaces (gap + 1) ++ w.text)
    (offset - (Body.pair k gap w).text.length + (k.name.length + 1))).1, ?_⟩
  simp only [onLine, Body.text, hkey, drop_key, keyName_key, valueToken,
    blanks_spaces (gap + 1) hword, hvalue, flowItem?_word, Option.map_none, Option.toList_none]

/-! ### The text of a spot -/

namespace Spot

variable {m : Kind}

/-- The text of the block that stands at a column. -/
def text (s : Spot m) (col : ℕ) : Text :=
  Text.join [CodeUnit.ofBasic '\n'] ((s.tree.rows col).map Row.text)

/-- The end of the marked line. -/
def offset (s : Spot m) (col : ℕ) : ℕ :=
  (Text.join [CodeUnit.ofBasic '\n'] ((s.above col ++ [s.row col]).map Row.text)).length

theorem take_text (s : Spot m) (col : ℕ) (rest : Text) :
    (s.text col ++ rest).take (s.offset col) =
      Text.join [CodeUnit.ofBasic '\n'] ((s.above col ++ [s.row col]).map Row.text) := by
  have hne : (s.above col ++ [s.row col]).map Row.text ≠ [] := by simp
  obtain ⟨p, ps, hp⟩ := List.exists_cons_of_ne_nil hne
  have hpre : Text.join [CodeUnit.ofBasic '\n'] (p :: ps) <+: s.text col := by
    rw [text, s.rows_tree, List.append_cons, List.map_append, hp]
    exact Text.join_append_prefix p ps _
  rw [offset, hp]
  exact (List.prefix_iff_eq_take.mp (hpre.trans (List.prefix_append _ _))).symm

theorem exists_around (s : Spot m) (col : ℕ) (rest : Text) :
    ∃ below, Lines.around (s.text col ++ rest) (s.offset col) =
      ⟨under [] (s.above col), (s.row col).text, below⟩ := by
  have hsplit : Text.splitOn (CodeUnit.ofBasic '\n') ((s.text col ++ rest).take (s.offset col)) =
      (s.above col ++ [s.row col]).map Row.text := by
    have hne : (s.above col ++ [s.row col]).map Row.text ≠ [] := by simp
    have hlines : ∀ q ∈ (s.above col ++ [s.row col]).map Row.text, CodeUnit.ofBasic '\n' ∉ q := by
      intro q hq
      obtain ⟨r, _, rfl⟩ := List.mem_map.mp hq
      exact newline_notMem r
    rw [take_text]
    obtain ⟨p, ps, hp⟩ := List.exists_cons_of_ne_nil hne
    rw [hp] at hlines ⊢
    exact Text.splitOn_join p ps hlines
  refine ⟨(Text.splitOn (CodeUnit.ofBasic '\n')
    ((s.text col ++ rest).drop (s.offset col))).drop 1, ?_⟩
  rw [Lines.around, hsplit]
  simp only [List.map_append, List.map_cons, List.map_nil, List.reverse_append,
    List.reverse_cons, List.reverse_nil, List.nil_append, List.cons_append]
  rw [under, List.append_nil]

/-- What the walk up from the marked line finds. -/
def found (s : Spot m) (col : ℕ) (token : Token) : Found :=
  walk (s.row col).text (s.offset col) token s.key (s.row col) (under [] (s.above col))

/-- What stands behind the marked line is not looked at. -/
theorem resolve_eq_walk (s : Spot m) (col : ℕ) (rest : Text) :
    ∃ token : Token,
      (resolve (s.text col ++ rest) (s.offset col)).path = (s.found col token).path ∧
      (resolve (s.text col ++ rest) (s.offset col)).malformed =
        (s.found col token).malformed := by
  obtain ⟨below, hlines⟩ := s.exists_around col rest
  obtain ⟨k, gap, w, hbody, hkey⟩ := s.exists_body col
  obtain ⟨token, hline⟩ := exists_onLine (dashCols (s.row col).indent (s.row col).gaps)
    (endCol (s.row col).indent (s.row col).gaps) k gap w (s.offset col)
  refine ⟨token, ?_⟩
  simp only [resolve, hlines, indentOf_text, drop_indent, dashes_text, hbody, hline, hkey]
  exact ⟨rfl, rfl⟩

/-- The path is found when the way can be followed. -/
theorem resolve_of_followable (s : Spot m) (hw : Followable s.way) (col : ℕ) (rest : Text) :
    (resolve (s.text col ++ rest) (s.offset col)).path = s.path ∧
      (resolve (s.text col ++ rest) (s.offset col)).malformed = false := by
  obtain ⟨token, hpath, hmal⟩ := s.resolve_eq_walk col rest
  rw [found, s.walk_eq hw] at hpath hmal
  exact ⟨hpath, hmal⟩

end Spot
end Block
end Scopewright
