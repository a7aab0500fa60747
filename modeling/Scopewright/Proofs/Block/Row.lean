import Mathlib.Data.List.Basic
import Scopewright.Proofs.Text.Class
import Scopewright.Proofs.Text.Words
import Scopewright.Yaml.Line

/-! # Lines of block documents

A line of a block document (`Block.Row`) is some indentation, dashes with spaces behind each, and a
key, a key with a value, a word or nothing.  Its entries are read off it as they were written
(`Block.lineEntries_text`). -/

namespace Scopewright
namespace Block

open Yaml

/-- A plain key of letters, digits and underscores. -/
structure Key where
  name : Text
  ne_nil : name ≠ []
  isWord : ∀ c ∈ name, c.isWord = true

/-- A plain scalar begins with no unit that has another meaning there. -/
def beginsPlain : Text → Bool
  | [] => false
  | c :: r =>
    if Text.contains "-?:" c then !r.isEmpty
    else !Text.contains ",[]\x7b\x7d#&*!|>'\"%@\x60" c

/-- A plain scalar of one word. -/
structure Word where
  text : Text
  isPlain : beginsPlain text = true
  notBlank : ∀ c ∈ text, c.isBlank = false
  noColon : text.getLast? ≠ some ':'

/-- What a line holds behind its dashes. -/
inductive Body where
  | head (k : Key)
  | pair (k : Key) (gap : ℕ) (w : Word)
  | word (w : Word)
  | nothing

/-- A line of a block document.  There is one space more than `gaps` tells behind each dash, and
one more than its gap between a key and its value. -/
structure Row where
  indent : ℕ
  gaps : List ℕ
  body : Body

/-- So many spaces. -/
def spaces (n : ℕ) : Text := List.replicate n ' '

/-- Dashes with spaces behind each. -/
def dashText : List ℕ → Text
  | [] => []
  | g :: gs => '-' :: (spaces (g + 1) ++ dashText gs)

/-- The columns of dashes, the first of which stands at `col`. -/
def dashCols (col : ℕ) : List ℕ → List ℕ
  | [] => []
  | g :: gs => col :: dashCols (col + g + 2) gs

/-- The column behind dashes, the first of which stands at `col`. -/
def endCol (col : ℕ) : List ℕ → ℕ
  | [] => col
  | g :: gs => endCol (col + g + 2) gs

/-- A body as it is written. -/
def Body.text : Body → Text
  | head k => k.name ++ [CodeUnit.ofBasic ':']
  | pair k gap w => k.name ++ CodeUnit.ofBasic ':' :: (spaces (gap + 1) ++ w.text)
  | word w => w.text
  | nothing => []

/-- The entry of a body at a column. -/
def Body.entry? (col : ℕ) : Body → Option LineEntry
  | head k => some (.key col k.name false false)
  | pair k _ _ => some (.key col k.name true false)
  | word _ => none
  | nothing => none

namespace Row

/-- A line as it is written. -/
def text (r : Row) : Text := spaces r.indent ++ (dashText r.gaps ++ r.body.text)

/-- What a line opens. -/
def entries (r : Row) : List LineEntry :=
  (dashCols r.indent r.gaps).map .dash ++ (r.body.entry? (endCol r.indent r.gaps)).toList

end Row

/-! ### First units -/

theorem Key.exists_cons (k : Key) : ∃ c r, k.name = c :: r ∧ c.isWord = true := by
  obtain ⟨c, r, h⟩ := List.exists_cons_of_ne_nil k.ne_nil
  exact ⟨c, r, h, k.isWord c (by rw [h]; exact List.mem_cons_self)⟩

theorem Word.exists_cons (w : Word) : ∃ c r, w.text = c :: r := by
  obtain ⟨text, isPlain, notBlank, noColon⟩ := w
  cases text with
  | nil => cases isPlain
  | cons c r => exact ⟨c, r, rfl⟩

/-- A word does not begin with such a unit. -/
theorem Word.head_ne (w : Word) {c d : CodeUnit} {r : Text} (hw : w.text = c :: r)
    (hd : Text.contains ",[]\x7b\x7d#&*!|>'\"%@\x60" d = true)
    (hd' : Text.contains "-?:" d = false) : c ≠ d := by
  rintro rfl
  have := w.isPlain
  rw [hw, beginsPlain, hd', hd] at this
  cases this

/-- A body begins with no white space. -/
theorem head_not_blank (b : Body) (c : CodeUnit) (h : b.text.head? = some c) :
    c.isBlank = false := by
  cases b with
  | head k =>
      obtain ⟨d, r, hk, hd⟩ := k.exists_cons
      rw [Body.text, hk] at h
      exact Option.some.inj h ▸ CodeUnit.isBlank_of_isWord hd
  | pair k gap w =>
      obtain ⟨d, r, hk, hd⟩ := k.exists_cons
      rw [Body.text, hk] at h
      exact Option.some.inj h ▸ CodeUnit.isBlank_of_isWord hd
  | word w => exact w.notBlank c (List.mem_of_mem_head? h)
  | nothing => cases h

/-- What stands behind the indentation begins with no white space. -/
theorem head_dashText {t : Text} (hblank : ∀ c, t.head? = some c → c.isBlank = false)
    (gs : List ℕ) (c : CodeUnit) (h : (dashText gs ++ t).head? = some c) : c.isBlank = false := by
  cases gs with
  | nil => exact hblank c h
  | cons g gs =>
      obtain rfl := Option.some.inj h
      decide

theorem dropWhile_spaces (n : ℕ) {t : Text} (h : ∀ c, t.head? = some c → c.isBlank = false) :
    (spaces n ++ t).dropWhile CodeUnit.isBlank = t := by
  induction n with
  | zero =>
      cases t with
      | nil => rfl
      | cons c r => exact List.dropWhile_cons_of_neg (by simp [h c rfl])
  | succ n ih =>
      have hs : spaces (n + 1) ++ t = CodeUnit.ofBasic ' ' :: (spaces n ++ t) := rfl
      rw [hs, List.dropWhile_cons_of_pos (by decide), ih]

theorem length_spaces (n : ℕ) : (spaces n).length = n := List.length_replicate

theorem indentOf_spaces (n : ℕ) {t : Text} (h : ∀ c, t.head? = some c → c.isBlank = false) :
    indentOf (spaces n ++ t) = n := by
  unfold indentOf
  induction n with
  | zero =>
      cases t with
      | nil => rfl
      | cons c r =>
          have hc : c ≠ CodeUnit.ofBasic ' ' := by
            rintro rfl
            cases h _ rfl
          have hs : spaces 0 ++ c :: r = c :: r := rfl
          rw [hs, List.takeWhile_cons_of_neg (by simpa using hc)]
          rfl
  | succ n ih =>
      have hs : spaces (n + 1) ++ t = CodeUnit.ofBasic ' ' :: (spaces n ++ t) := rfl
      rw [hs, List.takeWhile_cons_of_pos (by decide), List.length_cons, ih]

/-! ### Keys -/

theorem isPlainKeyUnit_of_isWord {c : CodeUnit} (h : c.isWord = true) :
    isPlainKeyUnit c = true := by
  have h₁ : c ≠ CodeUnit.ofBasic ':' := CodeUnit.ne_of_isWord h (by decide)
  have h₂ : c ≠ CodeUnit.ofBasic '#' := CodeUnit.ne_of_isWord h (by decide)
  simp [isPlainKeyUnit, h₁, h₂]

theorem isIndicator_of_isWord {c : CodeUnit} (h : c.isWord = true) : isIndicator c = false := by
  have hall : ∀ d ∈ ("#:'\"-[],\x7b\x7d" : Text), d.isWord = false := by decide
  have hnot : Text.contains "#:'\"-[],\x7b\x7d" c = false := by
    rw [Bool.eq_false_iff, Ne, Text.contains_iff]
    intro hc
    rw [hall c hc] at h
    cases h
  rw [isIndicator, CodeUnit.isBlank_of_isWord h, hnot]
  rfl

theorem takeWhile_key (k : Key) (t : Text) :
    (k.name ++ CodeUnit.ofBasic ':' :: t).takeWhile isPlainKeyUnit = k.name := by
  rw [List.takeWhile_append_of_pos fun c hc => isPlainKeyUnit_of_isWord (k.isWord c hc),
    List.takeWhile_cons_of_neg (by decide), List.append_nil]

theorem trimEnd_key (k : Key) : Text.trimEnd k.name = k.name :=
  Text.trimEnd_of_last fun c hc =>
    CodeUnit.isBlank_of_isWord (k.isWord c (List.mem_of_getLast? hc))

theorem colonLength?_colon {t : Text} (h : t.head?.all CodeUnit.isBlank = true) :
    colonLength? (CodeUnit.ofBasic ':' :: t) = some 1 := by
  rw [colonLength?, List.dropWhile_cons_of_neg (by decide)]
  show (if CodeUnit.ofBasic ':' = ':' ∧ t.head?.all CodeUnit.isBlank then _ else none) = _
  rw [if_pos ⟨rfl, h⟩, List.length_cons, Nat.add_sub_cancel_left]

theorem keyHead?_key (k : Key) {t : Text} (h : t.head?.all CodeUnit.isBlank = true) :
    keyHead? (k.name ++ CodeUnit.ofBasic ':' :: t) = some ⟨k.name, k.name.length + 1⟩ := by
  obtain ⟨c, r, hk, hc⟩ := k.exists_cons
  have h₁ : c ≠ CodeUnit.ofBasic '"' := CodeUnit.ne_of_isWord hc (by decide)
  have h₂ : c ≠ CodeUnit.ofBasic '\'' := CodeUnit.ne_of_isWord hc (by decide)
  have h₃ : c ≠ CodeUnit.ofBasic '-' := CodeUnit.ne_of_isWord hc (by decide)
  have htake := takeWhile_key k t
  rw [hk, List.cons_append] at htake ⊢
  have hplain : beginsPlainKey (c :: (r ++ CodeUnit.ofBasic ':' :: t)) = true := by
    rw [beginsPlainKey, if_neg h₃, isIndicator_of_isWord hc]
    rfl
  have hdrop : (c :: (r ++ CodeUnit.ofBasic ':' :: t)).drop (c :: r).length =
      CodeUnit.ofBasic ':' :: t := by
    rw [← List.cons_append, List.drop_left]
  have htrim : Text.trimEnd (c :: r) = c :: r := hk ▸ trimEnd_key k
  rw [keyHead?, if_neg h₁, if_neg h₂, if_pos hplain, htake]
  simp only [hdrop, colonLength?_colon h, htrim, Option.map_some]

theorem keyName_key (k : Key) : keyName k.name = k.name := by
  obtain ⟨c, r, hk, hc⟩ := k.exists_cons
  have h₁ : c ≠ CodeUnit.ofBasic '"' := CodeUnit.ne_of_isWord hc (by decide)
  have h₂ : c ≠ CodeUnit.ofBasic '\'' := CodeUnit.ne_of_isWord hc (by decide)
  rw [keyName, hk]
  simp [isQuotedBy, h₁, h₂]

/-- A colon in a word stands before another unit. -/
theorem colonLength?_word (w : Word) {c : CodeUnit} {r : Text} (hs : c :: r <:+ w.text) :
    colonLength? (c :: r) = none := by
  have hc : ¬ c.isBlank = true := by
    rw [w.notBlank c (hs.subset List.mem_cons_self)]
    exact Bool.false_ne_true
  rw [colonLength?, List.dropWhile_cons_of_neg hc]
  refine if_neg fun h => ?_
  cases r with
  | nil =>
      obtain ⟨p, hp⟩ := hs
      refine w.noColon ?_
      rw [← hp, List.getLast?_append, h.1]
      rfl
  | cons d r =>
      have hd := w.notBlank d (hs.subset (List.mem_cons_of_mem _ List.mem_cons_self))
      have hb : d.isBlank = true := h.2
      rw [hd] at hb
      cases hb

theorem keyHead?_word (w : Word) : keyHead? w.text = none := by
  obtain ⟨c, r, hw⟩ := w.exists_cons
  have h₁ : c ≠ CodeUnit.ofBasic '"' := w.head_ne hw (by decide) (by decide)
  have h₂ : c ≠ CodeUnit.ofBasic '\'' := w.head_ne hw (by decide) (by decide)
  have hcolon : colonLength? (w.text.drop (w.text.takeWhile isPlainKeyUnit).length) = none := by
    cases hd : w.text.drop (w.text.takeWhile isPlainKeyUnit).length with
    | nil => rfl
    | cons d t => exact colonLength?_word w (hd ▸ List.drop_suffix _ _)
  rw [hw] at hcolon ⊢
  rw [keyHead?, if_neg h₁, if_neg h₂]
  split
  · simp only [hcolon, Option.map_none]
  · rfl

/-! ### Entries -/

theorem trim_word (n : ℕ) (w : Word) : Text.trim (spaces n ++ w.text) = w.text := by
  have hstart : Text.trimStart (spaces n ++ w.text) = w.text :=
    dropWhile_spaces n fun c hc => w.notBlank c (List.mem_of_mem_head? hc)
  rw [Text.trim, hstart,
    Text.trimEnd_of_last fun c hc => w.notBlank c (List.mem_of_getLast? hc)]

/-- A word announces no block of text. -/
theorem isBlockHeader_word (w : Word) : isBlockHeader w.text = false := by
  obtain ⟨c, r, hw⟩ := w.exists_cons
  have h₁ : c ≠ CodeUnit.ofBasic '|' := w.head_ne hw (by decide) (by decide)
  have h₂ : c ≠ CodeUnit.ofBasic '>' := w.head_ne hw (by decide) (by decide)
  rw [hw, isBlockHeader, if_neg (not_or.mpr ⟨h₁, h₂⟩)]

theorem drop_key (k : Key) (t : Text) :
    (k.name ++ CodeUnit.ofBasic ':' :: t).drop (k.name.length + 1) = t := by
  rw [← List.drop_drop, List.drop_left]
  rfl

theorem keyMember?_text (col : ℕ) (b : Body) : keyMember? col b.text = b.entry? col := by
  cases b with
  | head k =>
      rw [keyMember?, Body.text, keyHead?_key k rfl, Option.map_some]
      simp only [drop_key, keyName_key]
      rfl
  | pair k gap w =>
      obtain ⟨c, r, hw⟩ := w.exists_cons
      have hc : c ≠ CodeUnit.ofBasic '#' := w.head_ne hw (by decide) (by decide)
      have hhead : (spaces (gap + 1) ++ w.text).head?.all CodeUnit.isBlank = true := by rfl
      rw [keyMember?, Body.text, keyHead?_key k hhead, Option.map_some]
      simp only [drop_key, keyName_key, trim_word, isBlockHeader_word, Bool.and_false]
      simp [hw, hc, Body.entry?]
  | word w =>
      rw [keyMember?, Body.text, keyHead?_word]
      rfl
  | nothing => rfl

/-- A body does not begin with a dash that opens an item. -/
theorem beginsItem_text (b : Body) : beginsItem b.text = false := by
  have hkey : ∀ (k : Key) (t : Text), beginsItem (k.name ++ t) = false := by
    intro k t
    obtain ⟨c, r, hk, hc⟩ := k.exists_cons
    have h : c ≠ CodeUnit.ofBasic '-' := CodeUnit.ne_of_isWord hc (by decide)
    simp [hk, beginsItem, h]
  cases b with
  | head k => exact hkey k _
  | pair k gap w => exact hkey k _
  | nothing => rfl
  | word w =>
      obtain ⟨text, isPlain, notBlank, noColon⟩ := w
      cases text with
      | nil => rfl
      | cons c r =>
          by_cases hc : c = CodeUnit.ofBasic '-'
          · subst hc
            cases r with
            | nil => cases isPlain
            | cons d r =>
                have hd := notBlank d (List.mem_cons_of_mem _ List.mem_cons_self)
                simp [Body.text, beginsItem, hd]
          · simp [Body.text, beginsItem, hc]

/-- In front of a text that opens no item itself, dashes are read off as they were written. -/
theorem dashes_dashText {t : Text} (hitem : beginsItem t = false)
    (hblank : ∀ c, t.head? = some c → c.isBlank = false) (gs : List ℕ) : ∀ col : ℕ,
    dashes col (dashText gs ++ t) = ⟨dashCols col gs, endCol col gs, t⟩ := by
  induction gs with
  | nil =>
      intro col
      show dashes col t = ⟨[], col, t⟩
      cases t with
      | nil => rw [dashes]
      | cons c r => rw [dashes, if_neg (by rw [hitem]; exact Bool.false_ne_true)]
  | cons g gs ih =>
      intro col
      have hdrop := dropWhile_spaces (g + 1) (head_dashText hblank gs)
      have hlen : (spaces (g + 1) ++ (dashText gs ++ t)).length - (dashText gs ++ t).length =
          g + 1 := by
        rw [List.length_append, length_spaces, Nat.add_sub_cancel]
      have hdash : beginsItem
          (CodeUnit.ofBasic '-' :: (spaces (g + 1) ++ (dashText gs ++ t))) = true := rfl
      rw [dashText, List.cons_append, List.append_assoc, dashes, if_pos hdash]
      simp only [hdrop, hlen, ih]
      have hcol : col + 1 + (g + 1) = col + g + 2 := by omega
      rw [hcol]
      rfl

theorem dashes_text (gs : List ℕ) (b : Body) (col : ℕ) :
    dashes col (dashText gs ++ b.text) = ⟨dashCols col gs, endCol col gs, b.text⟩ :=
  dashes_dashText (beginsItem_text b) (head_not_blank b) gs col

theorem indentOf_text (r : Row) : indentOf r.text = r.indent :=
  indentOf_spaces r.indent (head_dashText (head_not_blank r.body) r.gaps)

theorem drop_indent (r : Row) : r.text.drop r.indent = dashText r.gaps ++ r.body.text :=
  List.drop_left' (length_spaces r.indent)

/-- Only a mark at the very front takes the structure from a line. -/
theorem isPlainLine_eq_false {n : ℕ} {c : CodeUnit} {t : Text} (hb : c.isBlank = false)
    (hc : c ≠ CodeUnit.ofBasic '#') (hp : c ≠ CodeUnit.ofBasic '%')
    (hm : ("---" : Text).isPrefixOf (c :: t) = false) :
    isPlainLine (spaces n ++ c :: t) = false := by
  have hhead : ∀ d, (c :: t).head? = some d → d.isBlank = false := by
    intro d hd
    exact Option.some.inj hd ▸ hb
  have hdrop : (spaces n ++ c :: t).drop n = c :: t := List.drop_left' (length_spaces n)
  have hperc : ("%" : Text).isPrefixOf (c :: t) = false := by
    have hne : (CodeUnit.ofBasic '%' == c) = false := by simpa using fun h => hp h.symm
    show (CodeUnit.ofBasic '%' == c && List.isPrefixOf [] t) = false
    rw [hne, Bool.false_and]
  rw [isPlainLine, indentOf_spaces n hhead, hdrop]
  simp only [hc, decide_false, Bool.false_or]
  cases n with
  | zero =>
      have hs : spaces 0 ++ c :: t = c :: t := rfl
      rw [hs, hm, hperc]
      rfl
  | succ n => rfl

/-- A line that has no structure holds no entries. -/
theorem entries_of_isPlainLine (r : Row) (h : isPlainLine r.text = true) : r.entries = [] := by
  have hkey : ∀ (k : Key) (t : Text), isPlainLine (spaces r.indent ++ (k.name ++ t)) = false := by
    intro k t
    obtain ⟨c, u, hk, hc⟩ := k.exists_cons
    have hne : c ≠ CodeUnit.ofBasic '-' := CodeUnit.ne_of_isWord hc (by decide)
    have hd : (CodeUnit.ofBasic '-' == c) = false := beq_false_of_ne hne.symm
    rw [hk, List.cons_append]
    refine isPlainLine_eq_false (CodeUnit.isBlank_of_isWord hc)
      (CodeUnit.ne_of_isWord hc (by decide)) (CodeUnit.ne_of_isWord hc (by decide)) ?_
    show (CodeUnit.ofBasic '-' == c && _) = false
    rw [hd, Bool.false_and]
  obtain ⟨n, gaps, body⟩ := r
  cases gaps with
  | cons g gs =>
      have hne : isPlainLine (Row.text ⟨n, g :: gs, body⟩) = false :=
        isPlainLine_eq_false (by decide) (by decide) (by decide) rfl
      rw [hne] at h
      cases h
  | nil =>
      cases body with
      | head k =>
          have hne : isPlainLine (Row.text ⟨n, [], .head k⟩) = false := hkey k _
          rw [hne] at h
          cases h
      | pair k gap w =>
          have hne : isPlainLine (Row.text ⟨n, [], .pair k gap w⟩) = false := hkey k _
          rw [hne] at h
          cases h
      | word w => rfl
      | nothing => rfl

theorem lineEntries_text (r : Row) : lineEntries r.text = r.entries := by
  unfold lineEntries
  split
  · rename_i h
    exact (entries_of_isPlainLine r h).symm
  · rw [indentOf_text, drop_indent, dashes_text]
    simp only [keyMember?_text]
    rfl

/-- No value of a block announces a block of text. -/
theorem Row.blockScalar_eq_false {r : Row} {d : ℕ} {name : Text} {hasValue blockScalar : Bool}
    (h : .key d name hasValue blockScalar ∈ r.entries) : blockScalar = false := by
  rcases List.mem_append.mp h with h | h
  · obtain ⟨c, _, hc⟩ := List.mem_map.mp h
    cases hc
  · rw [Option.mem_toList] at h
    cases hb : r.body with
    | head k =>
        rw [hb] at h
        exact (LineEntry.key.inj (Option.some.inj h)).2.2.2.symm
    | pair k gap w =>
        rw [hb] at h
        exact (LineEntry.key.inj (Option.some.inj h)).2.2.2.symm
    | word w =>
        rw [hb] at h
        cases h
    | nothing =>
        rw [hb] at h
        cases h

theorem newline_notMem (r : Row) : CodeUnit.ofBasic '\n' ∉ r.text := by
  have hspaces : ∀ n, CodeUnit.ofBasic '\n' ∉ spaces n := by
    intro n h
    exact absurd (List.eq_of_mem_replicate h) (by decide)
  have hdash : ∀ gs, CodeUnit.ofBasic '\n' ∉ dashText gs := by
    intro gs
    induction gs with
    | nil => exact List.not_mem_nil
    | cons g gs ih =>
        simp only [dashText, List.mem_cons, List.mem_append, not_or]
        exact ⟨by decide, hspaces _, ih⟩
  have hkey : ∀ k : Key, CodeUnit.ofBasic '\n' ∉ k.name := by
    intro k h
    exact absurd (k.isWord _ h) (by decide)
  have hword : ∀ w : Word, CodeUnit.ofBasic '\n' ∉ w.text := by
    intro w h
    exact absurd (w.notBlank _ h) (by decide)
  simp only [Row.text, List.mem_append, not_or]
  refine ⟨hspaces _, hdash _, ?_⟩
  cases r.body with
  | head k =>
      simp only [Body.text, List.mem_append, List.mem_singleton, not_or]
      exact ⟨hkey k, by decide⟩
  | pair k gap w =>
      simp only [Body.text, List.mem_append, List.mem_cons, not_or]
      exact ⟨hkey k, by decide, hspaces _, hword w⟩
  | word w => exact hword w
  | nothing => exact List.not_mem_nil

end Block
end Scopewright
