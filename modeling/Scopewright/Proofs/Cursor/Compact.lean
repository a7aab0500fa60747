import Mathlib.Data.List.Forall2
import Scopewright.Proofs.Block.Climb
import Scopewright.Proofs.Cursor.Upward
import Scopewright.Proofs.Yaml.Moved

/-! # Sequences in the column of their key

The dashes of a sequence under a key may stand in the column of the key, or deeper.  The walk up
from one of its items takes the same steps in both layouts (`Cursor.Yaml.climb_moved`), so the path
is the same, unless the key stands in the first column: there the walk ends at the dashes before it
comes to the key (`Cursor.Yaml.path_compact`). -/

namespace Scopewright
namespace Cursor
namespace Yaml

open Scopewright.Yaml
open Block (spaces owns owner?_append owner?_eq_none climb_zero)

/-- What is needed so many columns further right. -/
def Need.moved (k : ℕ) (n : Need) : Need := ⟨n.isMap, n.col + k⟩

theorem owner?_moved (k : ℕ) (n : Need) (es : List LineEntry) :
    owner? (n.moved k) (es.map (·.moved k)) = (owner? n es).map (·.moved k) := by
  have hown : ∀ e : LineEntry, owns (n.moved k) (e.moved k) = owns n e := by
    intro e
    rw [owns, owns, LineEntry.col_moved]
    cases e <;> simp [Need.moved, LineEntry.moved, ownsCompactly]
  rw [owner?, owner?, List.filter_map, List.getLast?_map]
  exact congrArg _ (congrArg List.getLast? (List.filter_congr fun e _ => hown e))

/-! ### The line of the key -/

/-- The line ends with a key that has no value of its own. -/
def EndsWithKey (col : ℕ) (name : Text) (line : Text) : Prop :=
  (lineEntries line).getLast? = some (.key col name false false)

section KeyLine

variable {col : ℕ} {name line : Text} (h : EndsWithKey col name line)

include h

/-- Everything else on the line stands to the left of the key. -/
theorem exists_entries : ∃ es, lineEntries line = es ++ [.key col name false false] ∧
    ∀ e ∈ es, e.col < col := by
  obtain ⟨es, hes⟩ := List.getLast?_eq_some_iff.mp h
  have hpair := pairwise_lineEntries line
  rw [hes] at hpair
  exact ⟨es, hes, fun e he => (List.pairwise_append.mp hpair).2.2 e he _ List.mem_cons_self⟩

/-- The key owns what stands deeper, and a sequence in its own column. -/
theorem owner?_key {n : Need} (hn : n = ⟨false, col⟩ ∨ col < n.col) :
    owner? n (lineEntries line) = some (.key col name false false) := by
  obtain ⟨es, hes, _⟩ := exists_entries h
  have hown : owns n (.key col name false false) = true := by
    rcases hn with rfl | hlt
    · simp [owns, ownsCompactly]
    · simp [owns, LineEntry.col, hlt]
  rw [hes]
  exact owner?_append hown (List.forall_mem_nil _)

theorem climb_key (before : Text) (offset : ℕ) {n : Need} (hn : n = ⟨false, col⟩ ∨ col < n.col)
    (hpos : n.col ≠ 0) (first : Bool) (f : Found) (above : List Text) :
    climb before offset n first f (line :: above) =
      climb before offset ⟨true, col⟩ false { f with path := .key name :: f.path } above := by
  rw [climb, if_neg hpos, owner?_key h hn]
  rfl

/-- No items are counted beyond the key. -/
theorem itemsAbove_key {c : ℕ} (hc : col ≤ c) (above : List Text) :
    itemsAbove c (line :: above) = 0 := by
  obtain ⟨es, hes, hleft⟩ := exists_entries h
  have hstop : (lineEntries line).any (fun e => decide (e.col < c) || e.isKeyAt c) = true := by
    refine List.any_eq_true.mpr ⟨.key col name false false, by rw [hes]; simp, ?_⟩
    rcases Nat.lt_or_eq_of_le hc with hlt | rfl
    · simp [LineEntry.col, hlt]
    · simp [LineEntry.isKeyAt]
  have hnone : (lineEntries line).any (·.isDashAt c) = false := by
    refine List.any_eq_false.mpr fun e he => ?_
    rw [hes] at he
    rcases List.mem_append.mp he with he | he
    · have hlt := hleft e he
      cases e with
      | dash d =>
          have hd : d < col := hlt
          simp only [LineEntry.isDashAt, decide_eq_true_eq]
          omega
      | key d name hasValue blockScalar => exact Bool.false_ne_true
    · obtain rfl := List.mem_singleton.mp he
      exact Bool.false_ne_true
  rw [itemsAbove, hnone, if_pos hstop]
  rfl

end KeyLine

/-! ### The lines of the items -/

/-- A line of an item in both layouts, in the column of the key and further right; or lines that
open nothing. -/
def Moved (k col : ℕ) (line line' : Text) : Prop :=
  lineEntries line = [] ∧ lineEntries line' = [] ∨ InItem col line ∧ line' = spaces k ++ line

/-- A line of the items, or one that opens nothing. -/
def OfItems (col : ℕ) (line : Text) : Prop := lineEntries line = [] ∨ InItem col line

theorem ofItems_of_moved {k col : ℕ} {items items' : List Text}
    (h : List.Forall₂ (Moved k col) items items') :
    (∀ line ∈ items, OfItems col line) ∧ ∀ line ∈ items', OfItems (col + k) line := by
  induction h with
  | nil => exact ⟨List.forall_mem_nil _, List.forall_mem_nil _⟩
  | @cons line line' _ _ hline _ ih =>
      have hboth : OfItems col line ∧ OfItems (col + k) line' := by
        rcases hline with ⟨hnil, hnil'⟩ | ⟨hitem, rfl⟩
        · exact ⟨.inl hnil, .inl hnil'⟩
        · refine ⟨.inr hitem, .inr ?_⟩
          rw [InItem, indentOf_spaces_append, drop_spaces_append]
          exact hitem.imp (Nat.add_lt_add_right · k) fun ⟨heq, hdash⟩ => ⟨by rw [heq], hdash⟩
      exact ⟨List.forall_mem_cons.mpr ⟨hboth.1, ih.1⟩, List.forall_mem_cons.mpr ⟨hboth.2, ih.2⟩⟩

/-- The lines of the items are passed over by a sequence on the way to its key. -/
theorem climb_ofItems {s : ℕ} (hs : s ≠ 0) {lines : List Text} (h : ∀ line ∈ lines, OfItems s line)
    (before : Text) (offset : ℕ) (first : Bool) (f : Found) (above : List Text) :
    climb before offset ⟨false, s⟩ first f (lines ++ above) =
      climb before offset ⟨false, s⟩ first f above := by
  induction lines with
  | nil => rfl
  | cons line lines ih =>
      have hnone : owner? ⟨false, s⟩ (lineEntries line) = none := by
        rcases h line List.mem_cons_self with hnil | hitem
        · rw [hnil]
          rfl
        · refine owner?_eq_none fun e he => ?_
          rcases hitem.dash_or_lt e he with rfl | hlt
          · simp [owns, LineEntry.col, ownsCompactly]
          · have hle : ¬ e.col < s := Nat.not_lt_of_gt hlt
            have hne : e.col ≠ s := Nat.ne_of_gt hlt
            cases e with
            | dash d => simp [owns, hle, ownsCompactly]
            | key d name hasValue blockScalar =>
                have hd : d ≠ s := hne
                simp [owns, hle, ownsCompactly, hd]
      rw [List.cons_append, climb, if_neg hs, hnone]
      exact ih fun line' hline' => h line' (List.mem_cons_of_mem _ hline')

/-- The walk up has found the same so far. -/
def Agree (f f' : Found) : Prop := f'.path = f.path ∧ f'.malformed = f.malformed

theorem Agree.cons {f f' : Found} (h : Agree f f') (s : Segment) :
    Agree { f with path := s :: f.path } { f' with path := s :: f'.path } :=
  ⟨congrArg (s :: ·) h.1, h.2⟩

/-- The walk up finds the same above, from what is the same so far. -/
theorem climb_agree {f f' : Found} (h : Agree f f') (n : Need) (before before' : Text)
    (offset offset' : ℕ) (lines : List Text) :
    Agree (climb before offset n false f lines) (climb before' offset' n false f' lines) := by
  obtain ⟨p, broken, hclimb⟩ := exists_climb_false n lines
  rw [hclimb, hclimb]
  exact ⟨by rw [h.1], by rw [h.2]⟩

/-- The same but for a key that is in the path of the second only. -/
def AgreeButKey (name : Text) (f f' : Found) : Prop :=
  f'.path = .key name :: f.path ∧ f'.malformed = f.malformed

theorem agree_or_of_sequence {col : ℕ} {name : Text} {f f' : Found}
    (h : if col = 0 then AgreeButKey name f f' else Agree f f') :
    Agree f f' ∨ col = 0 ∧ AgreeButKey name f f' := by
  split at h
  · rename_i hzero
    exact .inr ⟨hzero, h⟩
  · exact .inl h

section Items

variable {k col : ℕ} {name keyLine : Text} {items items' : List Text}
  (hk : 0 < k) (hkey : EndsWithKey col name keyLine) (h : List.Forall₂ (Moved k col) items items')

include hk hkey h

theorem itemsAbove_moved {c : ℕ} (hc : col ≤ c) (above : List Text) :
    itemsAbove (c + k) (items' ++ keyLine :: above) = itemsAbove c (items ++ keyLine :: above) := by
  induction h with
  | nil =>
      have hc' : col ≤ c + k := Nat.le_trans hc (Nat.le_add_right c k)
      exact (itemsAbove_key hkey hc' above).trans (itemsAbove_key hkey hc above).symm
  | cons hline _ ih =>
      rw [List.cons_append, List.cons_append, itemsAbove, itemsAbove, ih]
      rcases hline with ⟨hnil, hnil'⟩ | ⟨hitem, rfl⟩
      · rw [hnil, hnil']
        rfl
      · have hdash : ∀ e : LineEntry, (e.moved k).isDashAt (c + k) = e.isDashAt c := by
          intro e
          cases e <;> simp [LineEntry.moved, LineEntry.isDashAt]
        have hstop : ∀ e : LineEntry,
            (decide ((e.moved k).col < c + k) || (e.moved k).isKeyAt (c + k)) =
              (decide (e.col < c) || e.isKeyAt c) := by
          intro e
          rw [LineEntry.col_moved]
          cases e <;> simp [LineEntry.moved, LineEntry.isKeyAt]
        simp only [hitem.lineEntries_moved hk, List.any_map, Function.comp_def, hdash, hstop]

variable {f f' : Found} (hf : Agree f f') (before before' : Text) (offset offset' : ℕ)
  (above : List Text)

include hf

/-- Above the items of a sequence its key is found, but not from the first column. -/
theorem climb_moved_sequence (first : Bool) :
    if col = 0 then
      AgreeButKey name (climb before offset ⟨false, col⟩ first f (items ++ keyLine :: above))
        (climb before' offset' ⟨false, col + k⟩ first f' (items' ++ keyLine :: above))
    else
      Agree (climb before offset ⟨false, col⟩ first f (items ++ keyLine :: above))
        (climb before' offset' ⟨false, col + k⟩ first f' (items' ++ keyLine :: above)) := by
  obtain ⟨hitems, hitems'⟩ := ofItems_of_moved h
  have hpos : col + k ≠ 0 := by omega
  have hright : (⟨false, col + k⟩ : Need) = ⟨false, col⟩ ∨ col < col + k := .inr (by omega)
  rw [climb_ofItems hpos hitems', climb_key hkey before' offset' hright hpos]
  split
  · rename_i hzero
    rw [climb_zero before offset hzero, climb_zero before' offset' hzero]
    exact ⟨congrArg (Segment.key name :: ·) hf.1, hf.2⟩
  · rename_i hzero
    rw [climb_ofItems hzero hitems, climb_key hkey before offset (.inl rfl) hzero]
    exact climb_agree (hf.cons _) _ _ _ _ _ _

/-- The walk up from what is needed in an item takes the same steps in both layouts. -/
theorem climb_moved {n : Need} (hn : n = ⟨false, col⟩ ∨ col < n.col) (first : Bool) :
    Agree (climb before offset n first f (items ++ keyLine :: above))
        (climb before' offset' (n.moved k) first f' (items' ++ keyLine :: above)) ∨
      col = 0 ∧ AgreeButKey name (climb before offset n first f (items ++ keyLine :: above))
        (climb before' offset' (n.moved k) first f' (items' ++ keyLine :: above)) := by
  induction h generalizing n first f f' with
  | nil =>
      rcases hn with rfl | hlt
      · exact agree_or_of_sequence (climb_moved_sequence hk hkey .nil hf _ _ _ _ above first)
      · have hright : n.moved k = ⟨false, col⟩ ∨ col < (n.moved k).col :=
          .inr (Nat.lt_of_lt_of_le hlt (Nat.le_add_right _ _))
        have hpos : (n.moved k).col ≠ 0 := Nat.ne_of_gt (Nat.add_pos_right n.col hk)
        left
        show Agree (climb before offset n first f (keyLine :: above))
          (climb before' offset' (n.moved k) first f' (keyLine :: above))
        rw [climb_key hkey before offset (.inr hlt) (by omega),
          climb_key hkey before' offset' hright hpos]
        exact climb_agree (hf.cons _) _ _ _ _ _ _
  | @cons line line' items items' hline hitems ih =>
      rcases hn with rfl | hlt
      · exact agree_or_of_sequence
          (climb_moved_sequence hk hkey (.cons hline hitems) hf _ _ _ _ above first)
      have hpos : (n.moved k).col ≠ 0 := Nat.ne_of_gt (Nat.add_pos_right n.col hk)
      rw [List.cons_append, List.cons_append, climb, climb, if_neg (by omega), if_neg hpos]
      rcases hline with ⟨hnil, hnil'⟩ | ⟨hitem, rfl⟩
      · rw [hnil, hnil']
        exact ih hf (.inr hlt) first
      rw [hitem.lineEntries_moved hk, owner?_moved]
      cases howner : owner? n (lineEntries line) with
      | none => exact ih hf (.inr hlt) first
      | some e =>
          have hmem : e ∈ lineEntries line :=
            List.mem_of_mem_filter (List.mem_of_getLast? howner)
          cases e with
          | dash c =>
              have hc : (⟨false, c⟩ : Need) = ⟨false, col⟩ ∨ col < c := by
                rcases hitem.dash_or_lt _ hmem with heq | hlt
                · exact .inl (by rw [LineEntry.dash.inj heq])
                · exact .inr hlt
              have hcount := itemsAbove_moved hk hkey hitems
                (hc.elim (fun heq => Nat.le_of_eq (Need.mk.inj heq).2.symm) Nat.le_of_lt) above
              simp only [Option.map_some, LineEntry.moved, hcount]
              exact ih (n := ⟨false, c⟩) (hf.cons _) hc false
          | key c name' hasValue blockScalar =>
              have hc : col < c := by
                rcases hitem.dash_or_lt _ hmem with heq | hlt
                · cases heq
                · exact hlt
              have hmap : (n.moved k).isMap = n.isMap := rfl
              simp only [Option.map_some, LineEntry.moved, hmap]
              by_cases htext : (blockScalar && first && n.isMap) = true
              · simp only [htext, if_true]
                refine ih (n := ⟨true, c⟩) ?_ (.inr hc) false
                exact ⟨rfl, hf.2⟩
              · simp only [htext]
                cases hasValue with
                | true => exact .inl ⟨hf.1, rfl⟩
                | false => exact ih (n := ⟨true, c⟩) (hf.cons _) (.inr hc) false

end Items

/-! ### The line of the cursor -/

theorem inner_spaces_append (k : ℕ) (line : Text) :
    inner (spaces k ++ line) = (inner line).moved k := by
  rw [inner, inner, indentOf_spaces_append, drop_spaces_append, dashes_moved]

theorem need_moved (k : ℕ) (d : Dashes) : need (d.moved k) = (need d).moved k := by
  obtain ⟨cols, contentCol, content⟩ := d
  cases cols <;> rfl

/-- The path on the line of the cursor does not depend on where the line stands. -/
theorem onLine_moved_fst (k : ℕ) (d : Dashes) (offset offset' : ℕ) :
    (onLine (d.moved k) offset').1 = (onLine d offset).1 := by
  have htoken : ∀ (content : Text) (start start' : ℕ),
      (keyToken content start').text = (keyToken content start).text := by
    intro content start start'
    cases content with
    | nil => rfl
    | cons c r =>
        rw [keyToken, keyToken]
        cases Quote.ofUnit? c <;> rfl
  have hcontent : (d.moved k).content = d.content := rfl
  rw [onLine, onLine, hcontent]
  cases keyHead? d.content with
  | none => exact congrArg (fun text => [Segment.key text]) (htoken _ _ _)
  | some k => rfl

/-- A line of an item begins with its dashes, or has none and stands deeper. -/
theorem cols_inner {col : ℕ} {line : Text} (h : InItem col line) :
    (∃ cols, (inner line).cols = indentOf line :: cols) ∨
      (inner line).cols = [] ∧ (inner line).contentCol = indentOf line ∧ col < indentOf line := by
  rw [inner]
  cases hbody : line.drop (indentOf line) with
  | nil =>
      rcases h with hlt | ⟨_, hitem⟩
      · rw [dashes]
        exact .inr ⟨rfl, rfl, hlt⟩
      · rw [hbody] at hitem
        cases hitem
  | cons c r =>
      by_cases hitem : beginsItem (c :: r) = true
      · rw [dashes, if_pos hitem]
        exact .inl ⟨_, rfl⟩
      · rcases h with hlt | ⟨_, hitem'⟩
        · rw [dashes, if_neg hitem]
          exact .inr ⟨rfl, rfl, hlt⟩
        · rw [hbody] at hitem'
          exact absurd hitem' hitem

theorem need_inner {col : ℕ} {line : Text} (h : InItem col line) :
    need (inner line) = ⟨false, col⟩ ∨ col < (need (inner line)).col := by
  rw [need]
  rcases cols_inner h with ⟨cols, hcols⟩ | ⟨hcols, hcontent, hlt⟩
  · rw [hcols]
    rcases Nat.lt_or_eq_of_le h.le_indentOf with hlt | rfl
    · exact .inr hlt
    · exact .inl rfl
  · rw [hcols, hcontent]
    exact .inr hlt

/-! ### Both layouts -/

/-- What is found from an item upward is the same in both layouts, or there is a key of the first
column in the second path only, as always on a line that opens an item under such a key. -/
theorem ascend_moved {k col : ℕ} {name keyLine : Text} {items items' : List Text} (hk : 0 < k)
    (hkey : EndsWithKey col name keyLine) (h : List.Forall₂ (Moved k col) items items')
    {before : Text} (hitem : InItem col before) (offset offset' : ℕ) (above : List Text) :
    (Agree (ascend before offset (items ++ keyLine :: above))
        (ascend (spaces k ++ before) offset' (items' ++ keyLine :: above)) ∨
      col = 0 ∧ AgreeButKey name (ascend before offset (items ++ keyLine :: above))
        (ascend (spaces k ++ before) offset' (items' ++ keyLine :: above))) ∧
    (indentOf before = col → col = 0 →
      AgreeButKey name (ascend before offset (items ++ keyLine :: above))
        (ascend (spaces k ++ before) offset' (items' ++ keyLine :: above))) := by
  have hsteps : itemSteps ((inner before).cols.map (· + k)) (items' ++ keyLine :: above) =
      itemSteps (inner before).cols (items ++ keyLine :: above) := by
    rw [itemSteps, itemSteps, List.map_map]
    refine List.map_congr_left fun c hc => ?_
    have hle := ((dashes_order _ _).2.2 c hc).1
    exact congrArg Segment.index
      (itemsAbove_moved hk hkey h (Nat.le_trans hitem.le_indentOf hle) above)
  have hf : Agree (outset (inner before) offset (items ++ keyLine :: above))
      (outset ((inner before).moved k) offset' (items' ++ keyLine :: above)) := by
    refine ⟨?_, rfl⟩
    rw [outset, outset, onLine_moved_fst k _ offset, ← hsteps]
    rfl
  have hneed : indentOf before = col → need (inner before) = ⟨false, col⟩ := by
    intro hcol
    rcases cols_inner hitem with ⟨cols, hcols⟩ | ⟨_, _, hlt⟩
    · rw [need, hcols, hcol]
    · exact absurd hcol (Nat.ne_of_gt hlt)
  rw [ascend, ascend, inner_spaces_append, need_moved]
  refine ⟨climb_moved hk hkey h hf _ _ _ _ _ (need_inner hitem) true, fun hcol hzero => ?_⟩
  have hsequence :=
    climb_moved_sequence hk hkey h hf before (spaces k ++ before) offset offset' above true
  rw [if_pos hzero] at hsequence
  rw [hneed hcol]
  exact hsequence

/-- Two documents that differ in the layout of a sequence under a key, with the cursor at the same
place in one of its items: in the first the sequence stands deeper than its key, in the second in
the same column. -/
structure Compaction (t t' : Text) (offset offset' : ℕ) where
  above : List Text
  keyLine : Text
  col : ℕ
  name : Text
  endsWithKey : EndsWithKey col name keyLine
  step : ℕ
  items : List Text
  items' : List Text
  moved : List.Forall₂ (Moved (step + 1) col) items' items
  before : Text
  inItem : InItem col before
  below : List Text
  below' : List Text
  around : Lines.around t offset =
    ⟨(above ++ keyLine :: items).reverse, spaces (step + 1) ++ before, below⟩
  around' : Lines.around t' offset' = ⟨(above ++ keyLine :: items').reverse, before, below'⟩

variable {t t' : Text} {offset offset' : ℕ}

/-- The path to a cursor in an item is the same in both layouts, unless the key stands in the first
column.  Then it is not the same on the lines that open an item, as the key is lost. -/
theorem path_compact (c : Compaction t t' offset offset') :
    (0 < c.col → (resolve t' offset').path = (resolve t offset).path) ∧
      ((resolve t' offset').path = (resolve t offset).path ∨
        (resolve t offset).path = .key c.name :: (resolve t' offset').path) ∧
      (indentOf c.before = c.col →
        ((resolve t' offset').path = (resolve t offset).path ↔ 0 < c.col)) ∧
      (resolve t' offset').malformed = (resolve t offset).malformed := by
  obtain ⟨above, keyLine, col, name, hkey, step, items, items', hmoved, before, hitem, below,
    below', haround, haround'⟩ := c
  have hreverse : ∀ lines : List Text, (above ++ keyLine :: lines).reverse =
      lines.reverse ++ keyLine :: above.reverse := by
    intro lines
    simp only [List.reverse_append, List.reverse_cons, List.append_assoc, List.singleton_append]
  obtain ⟨hboth, hopens⟩ := ascend_moved (Nat.zero_lt_succ step) hkey
    (List.forall₂_reverse_iff.mpr hmoved) hitem offset' offset above.reverse
  simp only [resolve_eq, haround, haround', hreverse]
  generalize ascend before offset' (items'.reverse ++ keyLine :: above.reverse) = f
    at hboth hopens ⊢
  generalize ascend (spaces (step + 1) ++ before) offset
    (items.reverse ++ keyLine :: above.reverse) = f' at hboth hopens ⊢
  have hpos : 0 < col → f.path = f'.path := by
    intro hpos
    rcases hboth with hagree | ⟨hzero, _⟩
    · exact hagree.1.symm
    · exact absurd hzero (Nat.ne_of_gt hpos)
  refine ⟨hpos, ?_, fun hcol => ⟨fun hsame => Nat.pos_of_ne_zero fun hzero => ?_, hpos⟩, ?_⟩
  · exact hboth.imp (fun hagree => hagree.1.symm) fun hbut => hbut.2.1
  · have hlonger := congrArg List.length (hopens hcol hzero).1
    rw [← hsame, List.length_cons] at hlonger
    omega
  · rcases hboth with hagree | ⟨_, hbut⟩
    · exact hagree.2.symm
    · exact hbut.2.symm

/-! ### Keys in further columns and in the first -/

/-- An item `a: b` of the sequence `key` in the mapping `main`, deeper than its key and in the column
of it. -/
def nestedKey : Compaction "main:\n  key:\n    - a: b" "main:\n  key:\n  - a: b" 23 21 where
  above := ["main:"]
  keyLine := "  key:"
  col := 2
  name := "key"
  endsWithKey := by
    show (lineEntries "  key:").getLast? = _
    decide +kernel
  step := 1
  items := []
  items' := []
  moved := .nil
  before := "  - a: b"
  inItem := .inr (by decide +kernel)
  below := []
  below' := []
  around := rfl
  around' := rfl

theorem path_compact_nestedKey :
    nestedKey.col = 2 ∧
      (resolve "main:\n  key:\n  - a: b" 21).path = (resolve "main:\n  key:\n    - a: b" 23).path :=
  ⟨rfl, (path_compact nestedKey).1 (by decide)⟩

/-- An item `a: b` of the sequence `key`, deeper than its key and in the column of it. -/
def compactKey : Compaction "key:\n  - a: b" "key:\n- a: b" 13 11 where
  above := []
  keyLine := "key:"
  col := 0
  name := "key"
  endsWithKey := by
    show (lineEntries "key:").getLast? = _
    decide +kernel
  step := 1
  items := []
  items' := []
  moved := .nil
  before := "- a: b"
  inItem := .inr (by decide +kernel)
  below := []
  below' := []
  around := rfl
  around' := rfl

/-- The path to the item loses its key. -/
theorem path_compactKey :
    compactKey.col = 0 ∧
    (resolve "key:\n  - a: b" 13).path = [.key "key", .index 0, .key "a"] ∧
    (resolve "key:\n- a: b" 11).path = [.index 0, .key "a"] := by
  refine ⟨rfl, ?_, ?_⟩
  · decide +kernel
  · decide +kernel

end Yaml
end Cursor
end Scopewright
