import Scopewright.Proofs.Block.Outline
import Scopewright.Proofs.Cursor.Upward

/-! # The other keys of the mapping that holds the cursor

A slot (`Block.Slot`) is an outline with a gap in one of its mappings, where a key is being typed.
A cursor at the end of what has been typed is told the keys of the mapping above and below the gap,
and more of them (`Slot.strays`) when it stands on the line of a dash: the keys in its column that
the items before end with.  These belong to other mappings, so the keys told are those of the
mapping exactly when there are none of them (`Slot.siblingKeys_perm_iff`). -/

namespace Scopewright
namespace Block

open Yaml Cursor.Yaml
open Cursor (Quote)

/-! ### What lines open -/

/-- What lines open, without those that open nothing. -/
def opened (lines : List Text) : List Opened := (lines.map lineEntries).filter (! ·.isEmpty)

theorem opened_cons_of_nil {line : Text} (h : lineEntries line = []) (lines : List Text) :
    opened (line :: lines) = opened lines := by
  rw [opened, List.map_cons, h, List.filter_cons_of_neg Bool.false_ne_true]
  rfl

theorem opened_cons {line : Text} (h : lineEntries line ≠ []) (lines : List Text) :
    opened (line :: lines) = lineEntries line :: opened lines := by
  rw [opened, List.map_cons, List.filter_cons_of_pos (by simpa using h)]
  rfl

theorem opened_append (lines lines' : List Text) :
    opened (lines ++ lines') = opened lines ++ opened lines' := by
  rw [opened, List.map_append, List.filter_append]
  rfl

theorem opened_reverse (lines : List Text) : opened lines.reverse = (opened lines).reverse := by
  rw [opened, List.map_reverse, List.filter_reverse]
  rfl

theorem keysAbove_eq (m : ℕ) (lines : List Text) :
    keysAbove m lines = nearKeys m (opened lines) := by
  induction lines with
  | nil => rfl
  | cons line lines ih =>
      rw [keysAbove, ih]
      by_cases hline : lineEntries line = []
      · rw [opened_cons_of_nil hline, hline]
        rfl
      · rw [opened_cons hline]
        rfl

/-- The names of the keys at a column in some lines, up to one that opens something to the left. -/
def keysWithin (m : ℕ) (rows : List Opened) : List Text :=
  (rows.takeWhile (! leaves m ·)).flatMap (namesAt m)

theorem keysBelow_eq (m : ℕ) (lines : List Text) :
    keysBelow m lines = keysWithin m (opened lines) := by
  have hcons : ∀ (es : Opened) (rows : List Opened), keysWithin m (es :: rows) =
      if leaves m es then [] else namesAt m es ++ keysWithin m rows := by
    intro es rows
    rw [keysWithin, List.takeWhile_cons]
    cases leaves m es <;> rfl
  induction lines with
  | nil => rfl
  | cons line lines ih =>
      rw [keysBelow, ih]
      by_cases hline : lineEntries line = []
      · rw [opened_cons_of_nil hline, hline]
        rfl
      · rw [opened_cons hline, hcons]
        rfl

/-- The last entry to the left of a column. -/
def lastLeft? (m : ℕ) (rows : List Opened) : Option LineEntry :=
  (rows.flatten.filter fun e => decide (e.col < m)).getLast?

theorem nearest?_eq (m : ℕ) (lines : List Text) :
    nearest? ⟨true, m⟩ lines = lastLeft? m (opened lines.reverse) := by
  have howner : ∀ es : Opened,
      owner? ⟨true, m⟩ es = (es.filter fun e => decide (e.col < m)).getLast? := by
    intro es
    refine congrArg List.getLast? (List.filter_congr fun e _ => ?_)
    cases e <;> simp [ownsCompactly]
  induction lines with
  | nil => rfl
  | cons line lines ih =>
      have hline : (opened [line]).flatten = lineEntries line := by
        by_cases hline : lineEntries line = []
        · rw [opened_cons_of_nil hline, hline]
          rfl
        · rw [opened_cons hline]
          exact List.append_nil _
      rw [nearest?, List.findSome?_cons, howner, List.reverse_cons, opened_append, lastLeft?,
        List.flatten_append, hline, List.filter_append, List.getLast?_append]
      cases ((lineEntries line).filter fun e => decide (e.col < m)).getLast? with
      | none => exact ih
      | some e => rfl

/-- The last entry to the left is below an entry to the left, or is that one. -/
theorem lastLeft?_append_cons {m : ℕ} {e : LineEntry} (hlt : e.col < m) (rows rows' : List Opened) :
    lastLeft? m (rows ++ [e] :: rows') = (lastLeft? m rows').or (some e) := by
  have hfilter : [e].filter (fun e => decide (e.col < m)) = [e] :=
    List.filter_cons_of_pos (decide_eq_true hlt)
  rw [lastLeft?, lastLeft?, List.flatten_append, List.flatten_cons, List.filter_append,
    List.filter_append, hfilter, List.getLast?_append, List.getLast?_append]
  cases (rows'.flatten.filter fun e => decide (e.col < m)).getLast? <;> rfl

/-! ### Slots -/

/-- A block with a gap, where a key is being typed, perhaps before something nested. -/
inductive Slot : Kind → ℕ → Type where
  | gap {col : ℕ} {k : Kind} {inner : ℕ} (before : Outline .mapping col) (h : Fits col k inner)
      (block : Outline k inner) (after : Outline .mapping col) : Slot .mapping col
  | nest {col : ℕ} {k : Kind} {inner : ℕ} (before : Outline .mapping col) (name : Text)
      (h : Fits col k inner) (slot : Slot k inner) (after : Outline .mapping col) :
      Slot .mapping col
  | item {col : ℕ} {k : Kind} {inner : ℕ} (before : Outline .sequence col) (shared : Bool)
      (h : col < inner) (slot : Slot k inner) (after : Outline .sequence col) : Slot .sequence col

namespace Slot

variable {k : Kind} {col : ℕ}

/-- The column of the mapping with the gap. -/
def mapCol : {k : Kind} → {col : ℕ} → Slot k col → ℕ
  | _, col, gap .. => col
  | _, _, nest _ _ _ slot _ => slot.mapCol
  | _, _, item _ _ _ slot _ => slot.mapCol

/-- The keys of the mapping above the gap. -/
def keysAbove : {k : Kind} → {col : ℕ} → Slot k col → List Text
  | _, _, gap before _ _ _ => before.names
  | _, _, nest _ _ _ slot _ => slot.keysAbove
  | _, _, item _ _ _ slot _ => slot.keysAbove

/-- The keys of the mapping below the gap. -/
def keysBelow : {k : Kind} → {col : ℕ} → Slot k col → List Text
  | _, _, gap _ _ _ after => after.names
  | _, _, nest _ _ _ slot _ => slot.keysBelow
  | _, _, item _ _ _ slot _ => slot.keysBelow

/-- What the lines above that of the gap open. -/
def above : {k : Kind} → {col : ℕ} → Slot k col → List Opened
  | _, _, gap before _ _ _ => before.rows
  | _, col, nest before name _ slot _ =>
      before.rows ++ [.key col name false false] :: slot.above
  | _, col, item before shared _ slot _ =>
      before.rows ++ (if shared then behindDash col slot.above else [.dash col] :: slot.above)

/-- What the lines below that of the gap open. -/
def beneath : {k : Kind} → {col : ℕ} → Slot k col → List Opened
  | _, _, gap _ _ block after => block.rows ++ after.rows
  | _, _, nest _ _ _ slot after => slot.beneath ++ after.rows
  | _, _, item _ _ _ slot after => slot.beneath ++ after.rows

/-- The columns of the dashes on the line of the gap. -/
def dashes : {k : Kind} → {col : ℕ} → Slot k col → List ℕ
  | _, _, gap .. => []
  | _, _, nest _ _ _ slot _ => slot.dashes
  | _, col, item _ shared _ slot _ =>
      if shared && slot.above.isEmpty then col :: slot.dashes else slot.dashes

/-- The keys of other mappings that are told with those above the gap: when it is on the line of a
dash, what the items before end with in the column of the mapping. -/
def strays : {k : Kind} → {col : ℕ} → Slot k col → List Text
  | _, _, gap .. => []
  | _, _, nest _ _ _ slot _ => slot.strays
  | _, _, item before shared _ slot _ =>
      if shared && slot.above.isEmpty then before.lastKeys slot.mapCol else slot.strays

/-- The cursor stands at the end of a partial key in the gap, and the other lines open what the
slot says. -/
structure IsAt (s : Slot k col) (t : Text) (offset : ℕ) : Prop where
  above : opened (Lines.around t offset).above.reverse = s.above
  cols : (inner (Lines.around t offset).before).cols = s.dashes
  contentCol : (inner (Lines.around t offset).before).contentCol = s.mapCol
  noKey : keyHead? (inner (Lines.around t offset).before).content = none
  beneath : opened (Lines.around t offset).below = s.beneath

/-! ### Columns -/

theorem le_mapCol (s : Slot k col) : col ≤ s.mapCol ∧ (k = .sequence → col < s.mapCol) := by
  induction s with
  | gap before h block after => exact ⟨Nat.le_refl _, fun hk => by cases hk⟩
  | nest before name h slot after ih =>
      refine ⟨?_, fun hk => by cases hk⟩
      rcases h with hlt | ⟨_, rfl⟩
      · exact Nat.le_trans (Nat.le_of_lt hlt) ih.1
      · exact ih.1
  | item before shared h slot after ih =>
      have hlt := Nat.lt_of_lt_of_le h ih.1
      exact ⟨Nat.le_of_lt hlt, fun _ => hlt⟩

theorem lt_mapCol_of_fits {inner : ℕ} (s : Slot k inner) (h : Fits col k inner) :
    col < s.mapCol := by
  rcases h with hlt | ⟨hk, rfl⟩
  · exact Nat.lt_of_lt_of_le hlt s.le_mapCol.1
  · exact s.le_mapCol.2 hk

/-! ### The lines above -/

/-- Above a line that opens something to the left, nothing is met. -/
theorem nearKeys_append_of_leaves {m : ℕ} {rows : List Opened} (h : rows.any (leaves m) = true)
    (rows' : List Opened) : nearKeys m (rows' ++ rows).reverse = nearKeys m rows.reverse := by
  rw [List.reverse_append, nearKeys_append, List.any_reverse, h, if_pos rfl, List.append_nil]

theorem keysAbove_eq_nil (s : Slot k col) (h : s.above = []) : s.keysAbove = [] := by
  induction s with
  | gap before h' block after =>
      have hlast := before.lastKeys_self rfl
      rw [← Outline.nearKeys_rows, show before.rows = [] from h] at hlast
      exact List.reverse_eq_nil_iff.mp hlast.symm
  | nest before name h' slot after ih => exact absurd (List.append_eq_nil_iff.mp h).2 (by simp)
  | item before shared h' slot after ih =>
      refine ih ?_
      have hrows := (List.append_eq_nil_iff.mp h).2
      cases hs : slot.above with
      | nil => rfl
      | cons es rows => cases shared <;> simp [hs, behindDash] at hrows

/-- On the way up from the gap, the keys of the mapping above it are met, and the strays. -/
theorem nearKeys_above (s : Slot k col) :
    nearKeys s.mapCol s.above.reverse = s.strays ++ s.keysAbove.reverse := by
  induction s with
  | gap before h block after =>
      rw [above, mapCol, Outline.nearKeys_rows, before.lastKeys_self rfl]
      rfl
  | @nest col _ _ before name h slot after ih =>
      have hlt := slot.lt_mapCol_of_fits h
      have hleaves :
          ([.key col name false false] :: slot.above).any (leaves slot.mapCol) = true := by
        simp [leaves, LineEntry.col, hlt]
      rw [above, mapCol, nearKeys_append_of_leaves hleaves, nearKeys_reverse_cons, namesAt_key,
        if_neg (Nat.ne_of_lt hlt), ite_self, List.append_nil, ih]
      rfl
  | @item col _ _ before shared h slot after ih =>
      have hlt := Nat.lt_of_lt_of_le h slot.le_mapCol.1
      have hdash : ([.dash col] :: slot.above).any (leaves slot.mapCol) = true := by
        simp [leaves, LineEntry.col, hlt]
      rw [above, mapCol, strays, keysAbove]
      cases shared with
      | false =>
          have hnone := Outline.nearKeys_itemRows slot.mapCol col false slot.above
          exact (nearKeys_append_of_leaves hdash _).trans (hnone.trans ih)
      | true =>
          by_cases hnil : slot.above = []
          · rw [hnil, keysAbove_eq_nil slot hnil]
            simp only [behindDash, if_true, List.append_nil, List.isEmpty_nil, Bool.and_self,
              List.reverse_nil]
            exact before.nearKeys_rows _
          · have hempty : slot.above.isEmpty = false := by simpa using hnil
            rw [if_pos rfl, nearKeys_append_of_leaves (leaves_behindDash hnil hlt),
              nearKeys_behindDash, ih, hempty]
            rfl

/-- A gap on a line of its own has no strays. -/
theorem strays_eq_nil (s : Slot k col) (h : s.dashes = []) : s.strays = [] := by
  induction s with
  | gap before h' block after => rfl
  | nest before name h' slot after ih => exact ih h
  | item before shared h' slot after ih =>
      rw [dashes] at h
      rw [strays]
      split
      · rename_i hshared
        rw [if_pos hshared] at h
        cases h
      · rename_i hshared
        rw [if_neg hshared] at h
        exact ih h

/-- The last entry to the left of the mapping announces no text. -/
theorem announcesText_eq_false (s : Slot k col) (h : s.dashes = []) :
    ∀ e ∈ lastLeft? s.mapCol s.above, announcesText e = false := by
  have hlead : ∀ {m : ℕ} {e : LineEntry} {rows rows' : List Opened}, e.col < m →
      announcesText e = false → (∀ e ∈ lastLeft? m rows', announcesText e = false) →
      ∀ e' ∈ lastLeft? m (rows ++ [e] :: rows'), announcesText e' = false := by
    intro m e rows rows' hlt he hrows' e' he'
    rw [lastLeft?_append_cons hlt] at he'
    rcases Option.or_eq_some_iff.mp he' with hbelow | ⟨_, heq⟩
    · exact hrows' e' hbelow
    · rwa [← Option.some.inj heq]
  induction s with
  | @gap col _ _ before h' block after =>
      intro e he
      have hfilter : e ∈ before.rows.flatten.filter fun e => decide (e.col < col) :=
        List.mem_of_getLast? he
      obtain ⟨hflatten, hdec⟩ := List.mem_filter.mp hfilter
      obtain ⟨es, hes, hmem⟩ := List.mem_flatten.mp hflatten
      have hlt : e.col < col := of_decide_eq_true hdec
      have hle := (before.beyond_of_mem_rows es hes e hmem).1
      omega
  | nest before name h' slot after ih => exact hlead (slot.lt_mapCol_of_fits h') rfl (ih h)
  | @item col _ _ before shared h' slot after ih =>
      have hlt : (LineEntry.dash col).col < slot.mapCol := Nat.lt_of_lt_of_le h' slot.le_mapCol.1
      rw [dashes] at h
      split at h
      · cases h
      · rename_i hshared
        have hslot : ∀ e ∈ lastLeft? slot.mapCol (before.rows ++ [.dash col] :: slot.above),
            announcesText e = false := hlead hlt rfl (ih h)
        cases shared with
        | false => exact hslot
        | true =>
            -- the dash stands before the same entries on the next line as on one of its own
            have hne : slot.above ≠ [] := by
              rintro hnil
              exact hshared (by rw [hnil]; rfl)
            obtain ⟨es, rows, hrows⟩ := List.exists_cons_of_ne_nil hne
            rw [hrows] at hslot
            rw [above, mapCol, hrows]
            rw [lastLeft?, List.flatten_append] at hslot ⊢
            exact hslot

/-! ### The lines below -/

theorem keysWithin_beneath (s : Slot k col) : ∀ {rows : List Opened},
    (∀ es ∈ rows.head?, leaves s.mapCol es = true) →
    keysWithin s.mapCol (s.beneath ++ rows) = s.keysBelow := by
  have hhead : ∀ {k : Kind} {col m : ℕ} (after : Outline k col) {rows : List Opened}, col < m →
      (∀ es ∈ rows.head?, leaves m es = true) →
      ∀ es ∈ (after.rows ++ rows).head?, leaves m es = true := by
    intro k col m after rows hlt hrows es hes
    by_cases hne : after.rows = []
    · rw [hne] at hes
      exact hrows es hes
    · obtain ⟨es', rows', hrows', hleaves⟩ := Outline.leaves_of_lt hne hlt
      rw [hrows'] at hes
      obtain rfl := Option.some.inj hes
      exact hleaves
  induction s with
  | @gap col _ _ before h block after =>
      intro rows hrows
      have hstay : ∀ es ∈ block.rows ++ after.rows, (! leaves col es) = true := by
        intro es hes
        rcases List.mem_append.mp hes with hes | hes
        · have hbeyond := Outline.beyond_of_fits (block.beyond_of_mem_rows es hes) h
          rw [hbeyond.leaves_eq_false (Nat.le_refl _)]
          rfl
        · rw [(after.beyond_of_mem_rows es hes).leaves_eq_false (Nat.le_refl _)]
          rfl
      have hstop : rows.takeWhile (! leaves col ·) = [] := by
        cases rows with
        | nil => rfl
        | cons es rows =>
            have hleaves : leaves col es = true := hrows es rfl
            exact List.takeWhile_cons_of_neg (by simp [hleaves])
      have hblock := flatMap_namesAt_eq_nil block.beyond_of_mem_rows
        (h.imp id fun ⟨hk, heq⟩ => ⟨hk, heq.symm⟩)
      rw [keysWithin, mapCol, beneath, List.takeWhile_append_of_pos hstay, hstop, List.append_nil,
        List.flatMap_append, hblock, after.flatMap_namesAt_rows rfl]
      rfl
  | nest before name h slot after ih =>
      intro rows hrows
      rw [mapCol, beneath, List.append_assoc]
      exact ih (hhead after (slot.lt_mapCol_of_fits h) hrows)
  | item before shared h slot after ih =>
      intro rows hrows
      rw [mapCol, beneath, List.append_assoc]
      exact ih (hhead after (Nat.lt_of_lt_of_le h slot.le_mapCol.1) hrows)

/-! ### The keys told -/

theorem position_keyToken (content : Text) (start : ℕ) :
    (keyToken content start).position = .key := by
  cases content with
  | nil => rfl
  | cons c r =>
      rw [keyToken]
      cases Quote.ofUnit? c <;> rfl

theorem onLine_of_noKey {d : Dashes} (h : keyHead? d.content = none) (offset : ℕ) :
    (onLine d offset).2.position = .key := by
  rw [onLine, h]
  exact position_keyToken _ _

/-- The line of the gap is no text of a value. -/
theorem inText_eq_false {s : Slot k col} {t : Text} {offset : ℕ} (h : s.IsAt t offset) :
    inText (need (inner (Lines.around t offset).before)) (Lines.around t offset).above = false := by
  rw [inText, need, h.cols, h.contentCol]
  cases hd : s.dashes with
  | cons col cols => rfl
  | nil =>
      show (nearest? ⟨true, s.mapCol⟩ _).any announcesText = false
      rw [nearest?_eq, h.above]
      cases hlast : lastLeft? s.mapCol s.above with
      | none => rfl
      | some e => exact s.announcesText_eq_false hd e hlast

/-- A cursor in the gap is told the keys above it, those below it and the strays. -/
theorem siblingKeys_eq {s : Slot k col} {t : Text} {offset : ℕ} (h : s.IsAt t offset) :
    (resolve t offset).siblingKeys = s.strays ++ s.keysAbove.reverse ++ s.keysBelow := by
  obtain ⟨p, broken, hclimb⟩ := exists_climb (need (inner (Lines.around t offset).before))
    (Lines.around t offset).above
  have habove : nearKeys s.mapCol (opened (Lines.around t offset).above) =
      s.strays ++ s.keysAbove.reverse := by
    rw [← s.nearKeys_above, ← h.above, opened_reverse, List.reverse_reverse]
  have hbelow : keysWithin s.mapCol (opened (Lines.around t offset).below) = s.keysBelow := by
    have hkeys := @keysWithin_beneath _ _ s [] fun es hes => by cases hes
    rwa [List.append_nil, ← h.beneath] at hkeys
  simp only [resolve_eq, ascend, hclimb, inText_eq_false h, Bool.false_eq_true, if_false, outset,
    onLine_of_noKey h.noKey, if_true, h.contentCol, keysAbove_eq, keysBelow_eq, habove, hbelow]

/-- The keys told are just the other keys of the mapping exactly when there are no strays, and there
are none for a key on a line of its own. -/
theorem siblingKeys_perm_iff (s : Slot k col) {t : Text} {offset : ℕ} (h : s.IsAt t offset) :
    ((resolve t offset).siblingKeys.Perm (s.keysAbove ++ s.keysBelow) ↔ s.strays = []) ∧
      (resolve t offset).siblingKeys = s.strays ++ s.keysAbove.reverse ++ s.keysBelow ∧
      (s.dashes = [] → s.strays = []) := by
  refine ⟨?_, siblingKeys_eq h, s.strays_eq_nil⟩
  rw [siblingKeys_eq h]
  refine ⟨fun hperm => ?_, fun hnil => ?_⟩
  · have hlength := hperm.length_eq
    simp only [List.length_append, List.length_reverse] at hlength
    exact List.eq_nil_of_length_eq_zero (by omega)
  · rw [hnil, List.nil_append]
    exact (List.reverse_perm _).append_right _

/-! ### A key on the line of a dash -/

/-- A second item of the sequence `contexts`, `main`, behind one that holds the key `match`. -/
def secondItem : Slot .mapping 0 :=
  .nest .nil "contexts" (.inl (Nat.zero_lt_succ 1))
    (.nest .nil "main" (.inl (Nat.lt_add_of_pos_right (Nat.zero_lt_succ 1)))
      (.item (.item true (Nat.lt_add_of_pos_right (Nat.zero_lt_succ 1))
          (.pair "match" true false [] (fun _ h => by cases h) .nil) .nil)
        true (Nat.lt_add_of_pos_right (Nat.zero_lt_succ 1))
        (.gap .nil (.inl (Nat.lt_succ_self 6)) (.nil : Outline .mapping 7) .nil) .nil) .nil) .nil

/-- The beginning of a key in that item. -/
def secondItemText : Text := "contexts:\n  main:\n    - match: x\n    - in"

theorem isAt_secondItem : secondItem.IsAt secondItemText 41 where
  above := by decide +kernel
  cols := by decide +kernel
  contentCol := by decide +kernel
  noKey := by decide +kernel
  beneath := by decide +kernel

theorem siblingKeys_perm_iff_secondItem :
    secondItem.IsAt secondItemText 41 ∧
      ((resolve secondItemText 41).siblingKeys.Perm
        (secondItem.keysAbove ++ secondItem.keysBelow) ↔ secondItem.strays = []) :=
  ⟨isAt_secondItem, (siblingKeys_perm_iff secondItem isAt_secondItem).1⟩

/-- The item that is typed has no keys yet, and is told the key of the item before. -/
theorem siblingKeys_secondItem :
    secondItem.IsAt secondItemText 41 ∧
      secondItem.keysAbove ++ secondItem.keysBelow = [] ∧
      (resolve secondItemText 41).siblingKeys = [Text.ofString "match"] :=
  ⟨isAt_secondItem, rfl, by decide +kernel⟩

end Slot
end Block
end Scopewright
