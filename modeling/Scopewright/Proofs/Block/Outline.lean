import Mathlib.Data.List.Basic
import Scopewright.Cursor.Yaml
import Scopewright.Proofs.Block.Tree

/-! # Outlines of block documents

Whoever walks over the lines of a document sees only what each of them opens.  An outline
(`Block.Outline`) is a mapping or a sequence of which that much is known, with every member at one
column: a key may have a value on its line, and what is nested under it stands deeper, but for the
dashes of a sequence, which may stand in the column of the key.  What an item holds begins on the
line of its dash or below it.  The lines of a text that belongs to one key or dash may look like
anything, as long as they stand deeper.

The keys at some column that are met on the way up from the end of an outline
(`Block.nearKeys`) are those of the mapping in that column which the outline ends with
(`Outline.nearKeys_rows`). -/

namespace Scopewright
namespace Block

open Yaml

/-- What a line opens, from the left. -/
abbrev Opened : Type := List LineEntry

/-! ### The keys met in lines -/

/-- The names of the keys at a column in a line. -/
def namesAt (m : ℕ) (es : Opened) : List Text := es.filterMap (·.nameAt? m)

theorem namesAt_key (m col : ℕ) (name : Text) (hasValue blockScalar : Bool) :
    namesAt m [.key col name hasValue blockScalar] = if col = m then [name] else [] := by
  by_cases hm : col = m
  · simp [namesAt, LineEntry.nameAt?, hm]
  · simp [namesAt, LineEntry.nameAt?, hm]

/-- A line opens something to the left of a column. -/
def leaves (m : ℕ) (es : Opened) : Bool := es.any fun e => decide (e.col < m)

/-- The names of the keys at a column in some lines, as far as the first line that opens something
to the left. -/
def nearKeys (m : ℕ) : List Opened → List Text
  | [] => []
  | es :: rows => namesAt m es ++ (if leaves m es then [] else nearKeys m rows)

theorem nearKeys_append (m : ℕ) (xs ys : List Opened) :
    nearKeys m (xs ++ ys) = nearKeys m xs ++ (if xs.any (leaves m) then [] else nearKeys m ys) := by
  induction xs with
  | nil => rfl
  | cons es xs ih =>
      rw [List.cons_append, nearKeys, nearKeys, ih, List.any_cons]
      cases leaves m es with
      | true => simp only [Bool.true_or, if_true, List.append_nil]
      | false => simp only [Bool.false_or, Bool.false_eq_true, if_false, List.append_assoc]

/-- On the way up, the first line is met behind those below it. -/
theorem nearKeys_reverse_cons (m : ℕ) (es : Opened) (rows : List Opened) :
    nearKeys m (es :: rows).reverse =
      nearKeys m rows.reverse ++ (if rows.any (leaves m) then [] else namesAt m es) := by
  rw [List.reverse_cons, nearKeys_append, List.any_reverse, nearKeys, nearKeys, ite_self,
    List.append_nil]

/-- A line stands at a column or deeper, with no key at that of a sequence. -/
def Beyond (k : Kind) (col : ℕ) (es : Opened) : Prop :=
  ∀ e ∈ es, col ≤ e.col ∧ (k = .sequence → e.nameAt? col = none)

theorem Beyond.mono {k k' : Kind} {col col' : ℕ} {es : Opened} (h : Beyond k' col' es)
    (hlt : col < col') : Beyond k col es := by
  intro e he
  have hcol := (h e he).1
  refine ⟨by omega, fun _ => ?_⟩
  cases e with
  | dash d => rfl
  | key d name hasValue blockScalar =>
      have hd : col' ≤ d := hcol
      exact if_neg (by omega)

theorem Beyond.leaves_eq_false {k : Kind} {col m : ℕ} {es : Opened} (h : Beyond k col es)
    (hle : m ≤ col) : leaves m es = false := by
  refine List.any_eq_false.mpr fun e he => ?_
  have hcol := (h e he).1
  simp only [decide_eq_true_eq]
  omega

/-- No key stands in a line at a column to the left of a block, or at that of a sequence. -/
theorem Beyond.namesAt_eq_nil {k : Kind} {col m : ℕ} {es : Opened} (h : Beyond k col es)
    (hm : m < col ∨ k = .sequence ∧ m = col) : namesAt m es = [] := by
  refine List.filterMap_eq_nil_iff.mpr fun e he => ?_
  obtain ⟨hcol, hname⟩ := h e he
  rcases hm with hlt | ⟨hk, rfl⟩
  · cases e with
    | dash d => rfl
    | key d name hasValue blockScalar =>
        have hd : col ≤ d := hcol
        exact if_neg (by omega)
  · exact hname hk

section Rows

variable {k : Kind} {col m : ℕ} {rows : List Opened} (h : ∀ es ∈ rows, Beyond k col es)

include h

theorem leaves_eq_false (hle : m ≤ col) : rows.any (leaves m) = false :=
  List.any_eq_false.mpr fun es hes => by simp [(h es hes).leaves_eq_false hle]

theorem nearKeys_reverse_eq_nil (hm : m < col ∨ k = .sequence ∧ m = col) :
    nearKeys m rows.reverse = [] := by
  induction rows with
  | nil => rfl
  | cons es rows ih =>
      rw [nearKeys_reverse_cons, ih fun es' hes' => h es' (List.mem_cons_of_mem _ hes'),
        (h es List.mem_cons_self).namesAt_eq_nil hm, ite_self, List.append_nil]

theorem flatMap_namesAt_eq_nil (hm : m < col ∨ k = .sequence ∧ m = col) :
    rows.flatMap (namesAt m) = [] :=
  List.flatMap_eq_nil_iff.mpr fun es hes => (h es hes).namesAt_eq_nil hm

end Rows

/-- Puts a dash before the first of some lines. -/
def behindDash (col : ℕ) : List Opened → List Opened
  | [] => []
  | es :: rows => (.dash col :: es) :: rows

/-- A dash changes nothing of the keys met on the way up. -/
theorem nearKeys_behindDash (m col : ℕ) (rows : List Opened) :
    nearKeys m (behindDash col rows).reverse = nearKeys m rows.reverse := by
  cases rows with
  | nil => rfl
  | cons es rows =>
      rw [behindDash, nearKeys_reverse_cons, nearKeys_reverse_cons]
      rfl

theorem leaves_behindDash {m col : ℕ} {rows : List Opened} (hne : rows ≠ []) (hlt : col < m) :
    (behindDash col rows).any (leaves m) = true := by
  obtain ⟨es, rows, rfl⟩ := List.exists_cons_of_ne_nil hne
  simp [behindDash, leaves, LineEntry.col, hlt]

theorem Beyond.cons_dash {k : Kind} {col inner : ℕ} {es : Opened} (h : Beyond k inner es)
    (hlt : col < inner) : Beyond .sequence col (.dash col :: es) := by
  intro e he
  rcases List.mem_cons.mp he with rfl | he
  · exact ⟨Nat.le_refl col, fun _ => rfl⟩
  · exact h.mono hlt e he

/-! ### Outlines -/

/-- A block at the inner column may be nested under a key. -/
def Fits (col : ℕ) (k : Kind) (inner : ℕ) : Prop := col < inner ∨ k = .sequence ∧ inner = col

/-- The lines are deeper than a column. -/
def Deeper (col : ℕ) (text : List Opened) : Prop := ∀ es ∈ text, ∀ e ∈ es, col < e.col

/-- A block at a column as it is built up from its first member, by what its lines open. -/
inductive Outline : Kind → ℕ → Type where
  | nil {k : Kind} {col : ℕ} : Outline k col
  /-- A key with a value or with none, and the lines that this value goes on over. -/
  | pair {col : ℕ} (name : Text) (hasValue blockScalar : Bool) (text : List Opened)
      (h : Deeper col text) (rest : Outline .mapping col) : Outline .mapping col
  | nest {col : ℕ} {k : Kind} {inner : ℕ} (name : Text) (h : Fits col k inner)
      (block : Outline k inner) (rest : Outline .mapping col) : Outline .mapping col
  /-- A dash with a value or with none, and the lines that this value goes on over. -/
  | scalar {col : ℕ} (text : List Opened) (h : Deeper col text) (rest : Outline .sequence col) :
      Outline .sequence col
  /-- What the item holds begins on the line of its dash, or below. -/
  | item {col : ℕ} {k : Kind} {inner : ℕ} (shared : Bool) (h : col < inner)
      (block : Outline k inner) (rest : Outline .sequence col) : Outline .sequence col

/-- Lines under a dash: the first of them on its line, or all below. -/
def itemRows (col : ℕ) (shared : Bool) (rows : List Opened) : List Opened :=
  if shared && !rows.isEmpty then behindDash col rows else [.dash col] :: rows

namespace Outline

variable {k : Kind} {col m : ℕ}

/-- What the lines of a block open. -/
def rows : {k : Kind} → {col : ℕ} → Outline k col → List Opened
  | _, _, nil => []
  | _, col, pair name hasValue blockScalar text _ rest =>
      [.key col name hasValue blockScalar] :: (text ++ rest.rows)
  | _, col, nest name _ block rest => [.key col name false false] :: (block.rows ++ rest.rows)
  | _, col, scalar text _ rest => itemRows col false text ++ rest.rows
  | _, col, item shared _ block rest => itemRows col shared block.rows ++ rest.rows

/-- The keys of a mapping. -/
def names : {k : Kind} → {col : ℕ} → Outline k col → List Text
  | _, _, nil => []
  | _, _, pair name _ _ _ _ rest => name :: rest.names
  | _, _, nest name _ _ rest => name :: rest.names
  | _, _, scalar _ _ _ => []
  | _, _, item _ _ _ _ => []

/-- The keys at a column that a block ends with, the last one first: those of the mapping at that
column that its last members lead to. -/
def lastKeys (m : ℕ) : {k : Kind} → {col : ℕ} → Outline k col → List Text
  | _, _, nil => []
  | _, col, pair name _ _ text _ rest =>
      (if rest.rows = [] then nearKeys m text.reverse else rest.lastKeys m) ++
        (if col = m then [name] else [])
  | _, col, nest name _ block rest =>
      (if rest.rows = [] then block.lastKeys m else rest.lastKeys m) ++
        (if col = m then [name] else [])
  | _, _, scalar text _ rest => if rest.rows = [] then nearKeys m text.reverse else rest.lastKeys m
  | _, _, item _ _ block rest => if rest.rows = [] then block.lastKeys m else rest.lastKeys m

/-! ### The columns of an outline -/

theorem beyond_of_deeper {text : List Opened} (h : Deeper col text) :
    ∀ es ∈ text, Beyond .mapping (col + 1) es :=
  fun es hes e he => ⟨h es hes e he, fun hk => by cases hk⟩

theorem beyond_itemRows {inner : ℕ} {shared : Bool} {rows : List Opened}
    (h : ∀ es ∈ rows, Beyond k inner es) (hlt : col < inner) :
    ∀ es ∈ itemRows col shared rows, Beyond .sequence col es := by
  have hdash : Beyond .sequence col [.dash col] := by
    intro e he
    obtain rfl := List.mem_singleton.mp he
    exact ⟨Nat.le_refl col, fun _ => rfl⟩
  intro es hes
  rw [itemRows] at hes
  split at hes
  · cases rows with
    | nil => cases hes
    | cons es' rows =>
        rcases List.mem_cons.mp hes with rfl | hes
        · exact (h es' List.mem_cons_self).cons_dash hlt
        · exact (h es (List.mem_cons_of_mem _ hes)).mono hlt
  · rcases List.mem_cons.mp hes with rfl | hes
    · exact hdash
    · exact (h es hes).mono hlt

/-- What is nested under a key is beyond its column. -/
theorem beyond_of_fits {inner : ℕ} {es : Opened} (h : Beyond k inner es)
    (hfits : Fits col k inner) : Beyond .mapping col es := by
  intro e he
  have hcol := (h e he).1
  exact ⟨by rcases hfits with hlt | ⟨_, rfl⟩ <;> omega, fun hk => by cases hk⟩

theorem beyond_of_mem_rows (b : Outline k col) : ∀ es ∈ b.rows, Beyond k col es := by
  have hkey : ∀ (col : ℕ) (name : Text) (hasValue blockScalar : Bool),
      Beyond .mapping col [.key col name hasValue blockScalar] := by
    intro col name hasValue blockScalar e he
    obtain rfl := List.mem_singleton.mp he
    exact ⟨Nat.le_refl col, fun hk => by cases hk⟩
  induction b with
  | nil => exact fun es hes => by cases hes
  | pair name hasValue blockScalar text h rest ih =>
      intro es hes
      rcases List.mem_cons.mp hes with rfl | hes
      · exact hkey _ _ _ _
      · rcases List.mem_append.mp hes with hes | hes
        · exact (beyond_of_deeper h es hes).mono (Nat.lt_succ_self _)
        · exact ih es hes
  | nest name h block rest ihBlock ih =>
      intro es hes
      rcases List.mem_cons.mp hes with rfl | hes
      · exact hkey _ _ _ _
      · rcases List.mem_append.mp hes with hes | hes
        · exact beyond_of_fits (ihBlock es hes) h
        · exact ih es hes
  | scalar text h rest ih =>
      intro es hes
      rcases List.mem_append.mp hes with hes | hes
      · exact beyond_itemRows (beyond_of_deeper h) (Nat.lt_succ_self _) es hes
      · exact ih es hes
  | item shared h block rest ihBlock ih =>
      intro es hes
      rcases List.mem_append.mp hes with hes | hes
      · exact beyond_itemRows ihBlock h es hes
      · exact ih es hes

/-- The first line of a block opens something at its column. -/
theorem exists_row (b : Outline k col) (hne : b.rows ≠ []) :
    ∃ es rows, b.rows = es :: rows ∧ ∃ e ∈ es, e.col = col := by
  cases b with
  | nil => exact absurd rfl hne
  | pair name hasValue blockScalar text h rest =>
      exact ⟨_, _, rfl, _, List.mem_cons_self, rfl⟩
  | nest name h block rest => exact ⟨_, _, rfl, _, List.mem_cons_self, rfl⟩
  | scalar text h rest => exact ⟨_, _, rfl, _, List.mem_cons_self, rfl⟩
  | item shared h block rest =>
      rw [rows, itemRows]
      split
      · cases hb : block.rows with
        | nil => simp_all
        | cons es rows => exact ⟨_, _, rfl, _, List.mem_cons_self, rfl⟩
      · exact ⟨_, _, rfl, _, List.mem_cons_self, rfl⟩

theorem leaves_of_lt {b : Outline k col} (hne : b.rows ≠ []) (hlt : col < m) :
    ∃ es rows, b.rows = es :: rows ∧ leaves m es = true := by
  obtain ⟨es, rows, hb, e, he, rfl⟩ := b.exists_row hne
  exact ⟨es, rows, hb, List.any_eq_true.mpr ⟨e, he, decide_eq_true hlt⟩⟩

/-! ### The keys met on the way up -/

/-- Of the lines of a member and those of the later ones, the last ones are met first. -/
theorem nearKeys_append_rows {rest : Outline k col}
    (hrest : nearKeys m rest.rows.reverse = rest.lastKeys m) {rows : List Opened}
    (hrows : m ≤ col → nearKeys m rows.reverse = []) :
    nearKeys m (rows ++ rest.rows).reverse =
      if rest.rows = [] then nearKeys m rows.reverse else rest.lastKeys m := by
  rw [List.reverse_append, nearKeys_append, hrest, List.any_reverse]
  by_cases hnil : rest.rows = []
  · have hlast : rest.lastKeys m = [] := by rw [← hrest, hnil]; rfl
    rw [if_pos hnil, hlast, hnil]
    rfl
  · rw [if_neg hnil]
    rcases Nat.lt_or_ge col m with hlt | hge
    · obtain ⟨es, rows', hb, hleaves⟩ := leaves_of_lt hnil hlt
      rw [hb, List.any_cons, hleaves, Bool.true_or, if_pos rfl, List.append_nil]
    · rw [hrows hge, ite_self, List.append_nil]

/-- A key is met behind everything that stands below it, unless that leaves its column. -/
theorem nearKeys_key {rows : List Opened} (h : ∀ es ∈ rows, Beyond .mapping col es) (name : Text)
    (hasValue blockScalar : Bool) :
    nearKeys m ([.key col name hasValue blockScalar] :: rows).reverse =
      nearKeys m rows.reverse ++ (if col = m then [name] else []) := by
  rw [nearKeys_reverse_cons, namesAt_key]
  by_cases hm : col = m
  · rw [leaves_eq_false h (Nat.le_of_eq hm.symm)]
    rfl
  · rw [if_neg hm, ite_self]

theorem nearKeys_itemRows (m col : ℕ) (shared : Bool) (rows : List Opened) :
    nearKeys m (itemRows col shared rows).reverse = nearKeys m rows.reverse := by
  rw [itemRows]
  split
  · exact nearKeys_behindDash m col rows
  · have hdash : namesAt m [.dash col] = [] := rfl
    rw [nearKeys_reverse_cons, hdash, ite_self, List.append_nil]

/-- On the way up from the end of a block, the keys at a column are those that the block ends
with. -/
theorem nearKeys_rows (m : ℕ) (b : Outline k col) : nearKeys m b.rows.reverse = b.lastKeys m := by
  induction b with
  | nil => rfl
  | pair name hasValue blockScalar text h rest ih =>
      have hbeyond : ∀ es ∈ text ++ rest.rows, Beyond .mapping _ es := fun es hes =>
        (pair name hasValue blockScalar text h rest).beyond_of_mem_rows es
          (List.mem_cons_of_mem _ hes)
      rw [rows, nearKeys_key hbeyond, lastKeys, nearKeys_append_rows ih fun hle => ?_]
      exact nearKeys_reverse_eq_nil (beyond_of_deeper h) (.inl (Nat.lt_succ_of_le hle))
  | nest name h block rest ihBlock ih =>
      have hbeyond : ∀ es ∈ block.rows ++ rest.rows, Beyond .mapping _ es := fun es hes =>
        (nest name h block rest).beyond_of_mem_rows es (List.mem_cons_of_mem _ hes)
      rw [rows, nearKeys_key hbeyond, lastKeys, nearKeys_append_rows ih fun hle => ?_, ihBlock]
      refine nearKeys_reverse_eq_nil block.beyond_of_mem_rows ?_
      rcases h with hlt | ⟨hk, rfl⟩
      · exact .inl (Nat.lt_of_le_of_lt hle hlt)
      · exact (Nat.lt_or_eq_of_le hle).imp_right fun heq => ⟨hk, heq⟩
  | @scalar col text h rest ih =>
      have htext := nearKeys_itemRows m col false text
      rw [rows, lastKeys, nearKeys_append_rows ih fun hle => htext.trans ?_, htext]
      exact nearKeys_reverse_eq_nil (beyond_of_deeper h) (.inl (Nat.lt_succ_of_le hle))
  | @item col _ _ shared h block rest ihBlock ih =>
      have hblock := nearKeys_itemRows m col shared block.rows
      rw [rows, lastKeys, nearKeys_append_rows ih fun hle => hblock.trans ?_, hblock, ihBlock]
      exact nearKeys_reverse_eq_nil block.beyond_of_mem_rows (.inl (Nat.lt_of_le_of_lt hle h))

/-! ### The keys of a mapping -/

theorem flatMap_namesAt_rows (b : Outline k col) (hk : k = .mapping) :
    b.rows.flatMap (namesAt col) = b.names := by
  induction b with
  | nil => rfl
  | pair name hasValue blockScalar text h rest ih =>
      have htext := flatMap_namesAt_eq_nil (beyond_of_deeper h) (.inl (Nat.lt_succ_self _))
      rw [rows, List.flatMap_cons, List.flatMap_append, namesAt_key, if_pos rfl, htext, ih rfl]
      rfl
  | nest name h block rest _ ih =>
      have hblock := flatMap_namesAt_eq_nil block.beyond_of_mem_rows
        (h.imp id fun ⟨hk, heq⟩ => ⟨hk, heq.symm⟩)
      rw [rows, List.flatMap_cons, List.flatMap_append, namesAt_key, if_pos rfl, hblock, ih rfl]
      rfl
  | scalar text h rest ih => cases hk
  | item shared h block rest _ ih => cases hk

/-- A mapping ends with its own keys. -/
theorem lastKeys_self (b : Outline k col) (hk : k = .mapping) :
    b.lastKeys col = b.names.reverse := by
  have hrest : ∀ {k : Kind} {col : ℕ} (rest : Outline k col),
      rest.lastKeys col = rest.names.reverse →
      (if rest.rows = [] then [] else rest.lastKeys col) = rest.names.reverse := by
    intro k col rest ih
    split
    · rename_i hnil
      rw [← ih, ← nearKeys_rows, hnil]
      rfl
    · exact ih
  induction b with
  | nil => rfl
  | @pair col name hasValue blockScalar text h rest ih =>
      have htext : nearKeys col text.reverse = [] :=
        nearKeys_reverse_eq_nil (beyond_of_deeper h) (.inl (Nat.lt_succ_self _))
      rw [lastKeys, htext, hrest rest (ih rfl), if_pos rfl, names, List.reverse_cons]
  | @nest col _ _ name h block rest _ ih =>
      have hblock : block.lastKeys col = [] := by
        rw [← nearKeys_rows]
        exact nearKeys_reverse_eq_nil block.beyond_of_mem_rows
          (h.imp id fun ⟨hk, heq⟩ => ⟨hk, heq.symm⟩)
      rw [lastKeys, hblock, hrest rest (ih rfl), if_pos rfl, names, List.reverse_cons]
  | scalar text h rest ih => cases hk
  | item shared h block rest _ ih => cases hk

end Outline
end Block
end Scopewright
