import Mathlib.Data.List.Forall2
import Scopewright.Proofs.Cursor.Source
import Scopewright.Proofs.Cursor.Upward
import Scopewright.Proofs.Text.Returns
import Scopewright.Proofs.Yaml.Key

/-! # Carriage returns in a YAML document

A carriage return at the end of a line changes nothing of what the line opens
(`Yaml.lineEntries_addReturn`): it is white space behind a dash, behind the colon of a key and
behind a value, and it ends no key.  So the cursor finds the same in a text whose line breaks are
written with a carriage return in front, with offsets moved by the line breaks before it
(`Cursor.Yaml.resolve_withReturns`). -/

namespace Scopewright
namespace Yaml

open Text (addReturn addReturn_cons length_addReturn drop_addReturn)

/-! ### Keys -/

theorem doubleQuotedLength_addReturn (t : Text) :
    doubleQuotedLength (addReturn t) = doubleQuotedLength t := by
  fun_induction doubleQuotedLength t with
  | case1 => rfl
  | case2 r => exact doubleQuotedLength_quote _
  | case3 => rfl
  | case4 d r hd _ => exact (doubleQuotedLength_escape d _).trans (if_pos hd)
  | case5 d r hd _ ih =>
      rw [← ih]
      exact (doubleQuotedLength_escape d _).trans (if_neg hd)
  | case6 c r hq hs ih =>
      rw [← ih]
      exact doubleQuotedLength_cons hq hs _

theorem singleQuotedLength_addReturn (t : Text) :
    singleQuotedLength (addReturn t) = singleQuotedLength t := by
  fun_induction singleQuotedLength t with
  | case1 => rfl
  | case2 => rfl
  | case3 c hc => exact singleQuotedLength_cons hc _
  | case4 r ih =>
      rw [← ih]
      rfl
  | case5 d r hd => exact singleQuotedLength_quote fun h => hd (Option.some.inj h)
  | case6 c d r hc ih =>
      rw [← ih]
      exact singleQuotedLength_cons hc _

theorem colonLength?_addReturn (t : Text) : colonLength? (addReturn t) = colonLength? t := by
  rw [colonLength?, colonLength?, Text.dropBlanks_addReturn]
  cases ht : t.dropWhile CodeUnit.isBlank with
  | nil => rfl
  | cons c r =>
      have hhead : (addReturn r).head?.all CodeUnit.isBlank = r.head?.all CodeUnit.isBlank := by
        cases r with
        | nil => rfl
        | cons d r => rfl
      rw [if_neg (List.cons_ne_nil c r)]
      show (if c = CodeUnit.ofBasic ':' ∧ (addReturn r).head?.all CodeUnit.isBlank
        then some ((addReturn t).length - (addReturn r).length) else none) = _
      rw [hhead, length_addReturn, length_addReturn, Nat.add_sub_add_right]

/-- Behind a part of a line the carriage return is still there, or nothing is. -/
theorem colonLength?_drop_addReturn (t : Text) (n : ℕ) :
    colonLength? ((addReturn t).drop n) = colonLength? (t.drop n) := by
  rcases Nat.lt_or_ge t.length n with hlt | hle
  · have hlength : (addReturn t).length ≤ n := by rwa [length_addReturn]
    rw [List.drop_eq_nil_of_le hlength, List.drop_eq_nil_of_le (Nat.le_of_lt hlt)]
  · rw [drop_addReturn hle, colonLength?_addReturn]

theorem quotedHead?_addReturn (t : Text) (n : ℕ) :
    quotedHead? (addReturn t) n = quotedHead? t n := by
  rw [quotedHead?, quotedHead?, colonLength?_drop_addReturn]
  rcases Nat.lt_or_ge t.length n with hlt | hle
  · rw [List.drop_eq_nil_of_le (Nat.le_of_lt hlt)]
    rfl
  · rw [addReturn, List.take_append_of_le_length hle]

theorem beginsPlainKey_addReturn (c : CodeUnit) (r : Text) :
    beginsPlainKey (addReturn (c :: r)) = beginsPlainKey (c :: r) := by
  cases r with
  | nil =>
      show beginsPlainKey [c, CodeUnit.ofBasic '\r'] = beginsPlainKey [c]
      rw [beginsPlainKey, beginsPlainKey]
      rfl
  | cons d r => rfl

/-- A plain key ends at a colon, and no colon follows where it does not end. -/
theorem plainHead_addReturn (t : Text) :
    (colonLength? ((addReturn t).drop ((addReturn t).takeWhile isPlainKeyUnit).length)).map
        (fun k => KeyHead.mk (Text.trimEnd ((addReturn t).takeWhile isPlainKeyUnit))
          (((addReturn t).takeWhile isPlainKeyUnit).length + k)) =
      (colonLength? (t.drop (t.takeWhile isPlainKeyUnit).length)).map
        (fun k => KeyHead.mk (Text.trimEnd (t.takeWhile isPlainKeyUnit))
          ((t.takeWhile isPlainKeyUnit).length + k)) := by
  have htake : (addReturn t).takeWhile isPlainKeyUnit =
      if (t.takeWhile isPlainKeyUnit).length = t.length then addReturn t
      else t.takeWhile isPlainKeyUnit := by
    rw [addReturn, List.takeWhile_append]
    rfl
  rw [htake]
  split
  · rename_i hall
    rw [List.drop_length, hall, List.drop_length]
    rfl
  · rw [colonLength?_drop_addReturn]

theorem keyHead?_addReturn (t : Text) : keyHead? (addReturn t) = keyHead? t := by
  cases t with
  | nil => rfl
  | cons c r =>
      have hplain := plainHead_addReturn (c :: r)
      have hquoted := quotedHead?_addReturn (c :: r)
      have hbegins := beginsPlainKey_addReturn c r
      rw [addReturn_cons] at hplain hquoted hbegins ⊢
      rw [keyHead?, keyHead?, hbegins, doubleQuotedLength_addReturn, singleQuotedLength_addReturn]
      simp only [hquoted, hplain]

theorem keyMember?_addReturn (col : ℕ) (content : Text) :
    keyMember? col (addReturn content) = keyMember? col content := by
  rw [keyMember?, keyMember?, keyHead?_addReturn]
  cases hk : keyHead? content with
  | none => rfl
  | some k =>
      simp only [Option.map_some, drop_addReturn (Cursor.Yaml.keyHead_le hk), Text.trim_addReturn]

/-! ### Lines -/

theorem beginsItem_addReturn (c : CodeUnit) (r : Text) :
    beginsItem (c :: addReturn r) = beginsItem (c :: r) := by
  cases r with
  | nil => rfl
  | cons d r => rfl

/-- The same dashes open items, and the same key stands behind them. -/
theorem dashes_addReturn (col : ℕ) (t : Text) :
    (dashes col (addReturn t)).cols = (dashes col t).cols ∧
      keyMember? (dashes col (addReturn t)).contentCol (dashes col (addReturn t)).content =
        keyMember? (dashes col t).contentCol (dashes col t).content := by
  fun_induction dashes col t with
  | case1 col =>
      have hdashes : dashes col [CodeUnit.ofBasic '\r'] = ⟨[], col, addReturn []⟩ := by
        rw [dashes, if_neg (by decide)]
        rfl
      rw [addReturn, List.nil_append, hdashes]
      exact ⟨rfl, keyMember?_addReturn col []⟩
  | case2 col c r hitem rest inner ih =>
      rw [addReturn_cons, dashes, if_pos (by rw [beginsItem_addReturn]; exact hitem)]
      simp only [Text.dropBlanks_addReturn, length_addReturn]
      by_cases hrest : r.dropWhile CodeUnit.isBlank = []
      · have hnil : ∀ col, dashes col [] = ⟨[], col, []⟩ := fun col => by rw [dashes]
        have hinner : inner = ⟨[], col + 1 + (r.length - rest.length), []⟩ := by
          show dashes _ rest = _
          rw [show rest = [] from hrest, hnil]
        rw [if_pos hrest, hnil, hinner]
        exact ⟨rfl, rfl⟩
      · rw [if_neg hrest, length_addReturn, Nat.add_sub_add_right]
        exact ⟨congrArg (col :: ·) ih.1, ih.2⟩
  | case3 col c r hitem =>
      rw [addReturn_cons, dashes, if_neg (by rw [beginsItem_addReturn]; exact hitem)]
      exact ⟨rfl, keyMember?_addReturn col (c :: r)⟩

theorem indentOf_addReturn (line : Text) : indentOf (addReturn line) = indentOf line := by
  rw [indentOf, indentOf, Text.takeWhile_addReturn (by decide)]

theorem lineEntries_addReturn (line : Text) : lineEntries (addReturn line) = lineEntries line := by
  have hdrop : (addReturn line).drop (indentOf line) = addReturn (line.drop (indentOf line)) :=
    drop_addReturn (List.takeWhile_sublist _).length_le
  have hmark : ("---" : Text).isPrefixOf (addReturn line) = ("---" : Text).isPrefixOf line :=
    Text.isPrefixOf_addReturn (by decide)
  have hdirective : ("%" : Text).isPrefixOf (addReturn line) = ("%" : Text).isPrefixOf line :=
    Text.isPrefixOf_addReturn (by decide)
  obtain ⟨hcols, hkey⟩ := dashes_addReturn (indentOf line) (line.drop (indentOf line))
  rw [lineEntries, lineEntries, isPlainLine, isPlainLine, indentOf_addReturn, hdrop, hmark,
    hdirective]
  cases hbody : line.drop (indentOf line) with
  | nil =>
      rw [hbody] at hcols hkey
      simp only [hcols, hkey]
      have hnil : dashes (indentOf line) [] = ⟨[], indentOf line, []⟩ := by rw [dashes]
      rw [hnil]
      show (if _ then [] else []) = []
      exact ite_self []
  | cons c r =>
      rw [hbody] at hcols hkey
      simp only [hcols, hkey]
      rfl

end Yaml

namespace Cursor

/-- A token that begins and ends so many units further on. -/
def Token.moved (n : ℕ) (k : Token) : Token :=
  { k with
    start := k.start + n, stop := k.stop + n,
    selector := { k.selector with wordStart := k.selector.wordStart + n } }

/-- What a cursor so many units further on stands on, if nothing else differs. -/
def Resolution.moved (n : ℕ) (r : Resolution) : Resolution := { r with token := r.token.moved n }

namespace Yaml

open Scopewright.Yaml
open Text (addReturn)

/-! ### Tokens -/

theorem scan_moved (text : Text) (start : ℤ) (n : ℕ) :
    Selector.scan text (start + n) =
      { Selector.scan text start with wordStart := (Selector.scan text start).wordStart + n } := by
  simp only [Selector.scan, Int.add_right_comm]

theorem plain_moved (text : Text) (start stop : ℤ) (n : ℕ) (quote : Option Quote)
    (position : Position) (element : Option Text) :
    Token.plain text (start + n) (stop + n) quote position element =
      (Token.plain text start stop quote position element).moved n := by
  rw [Token.plain, scan_moved]
  rfl

theorem keyToken_moved (content : Text) (start n : ℕ) :
    keyToken content (start + n) = (keyToken content start).moved n := by
  cases content with
  | nil =>
      rw [keyToken, keyToken, ← plain_moved, Int.natCast_add]
  | cons c r =>
      have hone : (start : ℤ) + n + 1 = start + 1 + n := Int.add_right_comm _ _ _
      have hstop : (start : ℤ) + n + (c :: r).length = start + (c :: r).length + n :=
        Int.add_right_comm _ _ _
      rw [keyToken, keyToken, Int.natCast_add, hone, hstop]
      cases Quote.ofUnit? c with
      | none => exact plain_moved _ _ _ n _ _ _
      | some q => exact plain_moved _ _ _ n _ _ _

theorem valueToken_moved (value : Text) (offset n : ℕ) :
    valueToken value (offset + n) =
      ((valueToken value offset).1.moved n, (valueToken value offset).2) := by
  simp only [valueToken, Nat.add_right_comm offset n, Int.natCast_add, scan_moved]
  rfl

theorem onLine_moved {d : Dashes} {offset : ℕ} (h : d.content.length ≤ offset) (n : ℕ) :
    onLine d (offset + n) = ((onLine d offset).1, (onLine d offset).2.moved n) := by
  rw [onLine, onLine, Nat.sub_add_comm h]
  cases keyHead? d.content with
  | none => simp only [keyToken_moved]; rfl
  | some k => simp only [Nat.add_right_comm _ n, valueToken_moved]

theorem blockTextToken_moved {before : Text} {offset : ℕ} (h : before.length ≤ offset) (n : ℕ) :
    blockTextToken before (offset + n) = (blockTextToken before offset).moved n := by
  have hle : (Text.trimStart before).length ≤ offset :=
    (List.dropWhile_sublist _).length_le.trans h
  rw [blockTextToken, blockTextToken, ← plain_moved, Nat.sub_add_comm hle, Int.natCast_add,
    Int.natCast_add]

/-! ### The whole resolution -/

theorem around_withReturns (t : Text) (offset : ℕ) :
    Lines.around t.withReturns (offset + t.breaksBefore offset) =
      ⟨(Lines.around t offset).above.map addReturn, (Lines.around t offset).before,
        Text.returned (Lines.around t offset).below⟩ := by
  rw [Lines.around, Lines.around, Text.take_withReturns, Text.drop_withReturns,
    Text.splitOn_withReturns, Text.splitOn_withReturns]
  rcases List.eq_nil_or_concat (Text.splitOn '\n' (t.take offset)) with hnil | ⟨ls, l, hls⟩
  · exact absurd hnil (Text.splitOn_ne_nil _)
  · rw [hls, List.concat_eq_append, Text.returned_concat]
    simp only [List.reverse_concat, List.map_reverse, List.drop_one, Text.tail_returned]

theorem alike_map_addReturn (lines : List Text) :
    List.Forall₂ Alike (lines.map addReturn) lines := by
  induction lines with
  | nil => exact .nil
  | cons line lines ih => exact .cons (lineEntries_addReturn line) ih

theorem alike_returned (lines : List Text) : List.Forall₂ Alike (Text.returned lines) lines := by
  rcases List.eq_nil_or_concat lines with rfl | ⟨ls, l, rfl⟩
  · exact .nil
  · rw [List.concat_eq_append, Text.returned_concat]
    exact List.rel_append (alike_map_addReturn ls) (.cons rfl .nil)

/-- Written with carriage returns, a text has the same under the cursor, so many units further on as
there are line breaks before it. -/
theorem resolve_withReturns (t : Text) (offset : ℕ) :
    resolve t.withReturns (offset + t.breaksBefore offset) =
      (resolve t offset).moved (t.breaksBefore offset) := by
  have hbefore : (Lines.around t offset).before.length ≤ offset :=
    (before_suffix t offset).length_le.trans (List.length_take_le _ _)
  rw [resolve_eq, resolve_eq, around_withReturns]
  generalize Lines.around t offset = lines at hbefore ⊢
  generalize t.breaksBefore offset = n
  obtain ⟨above, before, below⟩ := lines
  have habove := alike_map_addReturn above
  have hbelow := alike_returned below
  have hcontent : (inner before).content.length ≤ offset :=
    ((dashes_suffix _ _).trans (List.drop_suffix _ _)).length_le.trans hbefore
  have houtset : outset (inner before) (offset + n) (above.map addReturn) =
      { outset (inner before) offset above with
        token := (outset (inner before) offset above).token.moved n } := by
    simp only [outset, onLine_moved hcontent, itemSteps, itemsAbove_congr habove]
  obtain ⟨p, broken, hclimb⟩ := exists_climb (need (inner before)) above
  simp only [ascend, houtset, climb_congr habove, keysAbove_congr habove, keysBelow_congr hbelow,
    hclimb]
  split
  · rw [blockTextToken_moved hbefore]
    rfl
  · rfl

end Yaml
end Cursor
end Scopewright
