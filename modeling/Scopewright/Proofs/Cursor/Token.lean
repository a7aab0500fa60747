import Scopewright.Cursor.Basic
import Scopewright.Dialect
import Scopewright.Proofs.Markup.Reference

/-! # Where the word of a token stands

A token covers the end of what stands before the cursor (`Token.Covers`).  Its selector is scanned
in that source itself or, in elements, in what the source reads as (`Token.Sound`).  The scan
counts the units of the scanned text that it passes over (`Selector.exists_scan`), and the start of
the word is that far away from the start of the token.

`Token.wordSource` is the part of the document from the start of the word to the cursor.  Where the
source of the token is scanned it is the word (`Token.Covers.wordSource_eq`).  In elements it reads
as the word if no reference in front of it changes (`Token.Covers.read_wordSource`), and behind one
that does it is no source of the word (`Token.Covers.not_hasSource`). -/

namespace Scopewright

namespace Selector

theorem foldl_read_le (t : Text) (p : Progress) (h : p.wordStart ≤ p.next) :
    (t.foldl Progress.read p).wordStart ≤ p.next + t.length := by
  induction t generalizing p with
  | nil => exact h
  | cons c r ih =>
      have hread : (p.read c).wordStart ≤ (p.read c).next := by
        simp only [Progress.read]
        split
        · exact Nat.le_refl _
        · exact Nat.le_succ_of_le h
      have hrest := ih (p.read c) hread
      have hnext : (p.read c).next = p.next + 1 := rfl
      rw [List.foldl_cons, List.length_cons]
      omega

/-- The word of a scan is what is left behind some units of the text. -/
theorem exists_scan (t : Text) (start : ℤ) : ∃ w ≤ t.length,
    (scan t start).word = t.drop w ∧ (scan t start).wordStart = start + w := by
  refine ⟨(t.foldl Progress.read .start).wordStart, ?_, rfl, rfl⟩
  have h := foldl_read_le t .start (Nat.le_refl 0)
  rwa [show Progress.start.next = 0 from rfl, Nat.zero_add] at h

end Selector

namespace Cursor

open Scopewright.Markup

/-- The part of a document from the start of a token's word to the cursor. -/
def Token.wordSource (t : Text) (k : Token) : Text := t.between k.selector.wordStart k.stop

/-- The part of a document that a token covers. -/
def Token.source (t : Text) (k : Token) : Text := t.between k.start k.stop

/-- A part of a document is the source of a word: it is the word, or reads as the word where the
format has character data. -/
def IsSource (f : Format) (source word : Text) : Prop :=
  source = word ∨ (f = .plist ∨ f = .xml) ∧ Reference.read source = .ok word

/-- The part of the document from the start of the word to the cursor is the source of the word. -/
def Token.HasSource (f : Format) (t : Text) (k : Token) : Prop :=
  IsSource f (k.wordSource t) k.selector.word

/-- The token is character data in which a reference that changes begins in front of the word. -/
def Token.Shifted (t : Text) (k : Token) : Prop :=
  k.element.isSome ∧
    ∃ i : ℕ, k.start + i < k.selector.wordStart ∧ Reference.Changes ((k.source t).drop i)

/-- A token covers the source `raw` in front of the cursor, which stands behind `n` units, and its
selector is scanned in `scanned`. -/
structure Token.Covers (t : Text) (n : ℕ) (k : Token) (raw scanned : Text) : Prop where
  suffix : raw <:+ t.take n
  start : k.start = (n - raw.length : ℕ)
  stop : k.stop = n
  selector : k.selector = Selector.scan scanned k.start

/-- A token is scanned as it is written, or it is character data of an element and scanned as
read. -/
def Token.Sound (f : Format) (t : Text) (n : ℕ) (k : Token) : Prop :=
  (k.element = none ∧ ∃ raw, k.Covers t n raw raw) ∨
    ((f = .plist ∨ f = .xml) ∧ k.element.isSome ∧
      ∃ data text, Reference.read data = .ok text ∧ k.Covers t n data text)

/-- What stands between a place in the source of a token and the cursor. -/
theorem between_suffix {t raw : Text} {n w : ℕ} (hn : n ≤ t.length) (h : raw <:+ t.take n)
    (hw : w ≤ raw.length) :
    t.between ((n - raw.length : ℕ) + (w : ℤ)) n = raw.drop w := by
  obtain ⟨p, hp⟩ := h
  have hlength : p.length + raw.length = n := by
    rw [← List.length_append, hp, List.length_take, Nat.min_eq_left hn]
  have hstart : t.clamp ((n - raw.length : ℕ) + (w : ℤ)) = p.length + w := by
    unfold Text.clamp
    omega
  have hstop : t.clamp n = n := by
    unfold Text.clamp
    omega
  rw [Text.between, hstart, hstop, Nat.min_eq_left (by omega), Nat.max_eq_right (by omega),
    ← List.drop_take, ← hp, List.drop_append, List.drop_eq_nil_of_le (Nat.le_add_right _ _),
    List.nil_append, Nat.add_sub_cancel_left]

/-- What stands between the start of a token and a place in its source. -/
theorem between_prefix {t raw : Text} {n w : ℕ} (hn : n ≤ t.length) (h : raw <:+ t.take n)
    (hw : w ≤ raw.length) :
    t.between (n - raw.length : ℕ) ((n - raw.length : ℕ) + (w : ℤ)) = raw.take w := by
  obtain ⟨p, hp⟩ := h
  have hlength : p.length + raw.length = n := by
    rw [← List.length_append, hp, List.length_take, Nat.min_eq_left hn]
  have hstart : t.clamp (n - raw.length : ℕ) = p.length := by
    unfold Text.clamp
    omega
  have hstop : t.clamp ((n - raw.length : ℕ) + (w : ℤ)) = p.length + w := by
    unfold Text.clamp
    omega
  have hraw : (t.drop p.length).take raw.length = raw := by
    rw [← Nat.add_sub_cancel_left p.length raw.length, hlength, ← List.drop_take, ← hp,
      List.drop_left]
  have hfront := congrArg (List.take w) hraw
  rw [List.take_take, Nat.min_eq_left hw] at hfront
  rw [Text.between, hstart, hstop, Nat.min_eq_left (by omega), Nat.max_eq_right (by omega),
    Nat.add_sub_cancel_left, hfront]

namespace Token

variable {t raw scanned data text : Text} {n : ℕ} {k : Token}

theorem Covers.exists_word (hn : n ≤ t.length) (h : k.Covers t n raw scanned) :
    ∃ w ≤ scanned.length, k.selector.word = scanned.drop w ∧
      k.selector.wordStart = k.start + w ∧ k.source t = raw ∧
      (w ≤ raw.length → k.wordSource t = raw.drop w) := by
  obtain ⟨w, hw, hword, hwordStart⟩ := Selector.exists_scan scanned k.start
  rw [← h.selector] at hword hwordStart
  refine ⟨w, hw, hword, hwordStart, ?_, fun hle => ?_⟩
  · have hsource := between_suffix hn h.suffix (Nat.zero_le raw.length)
    rw [List.drop_zero, Int.natCast_zero, Int.add_zero] at hsource
    rw [source, h.start, h.stop, hsource]
  · rw [wordSource, hwordStart, h.start, h.stop]
    exact between_suffix hn h.suffix hle

/-- The word of a token that is scanned as it is written stands in the document. -/
theorem Covers.wordSource_eq (hn : n ≤ t.length) (h : k.Covers t n raw raw) :
    k.wordSource t = k.selector.word := by
  obtain ⟨w, hw, hword, -, -, hsource⟩ := h.exists_word hn
  rw [hsource hw, hword]

/-- In front of the word no reference changes, so what stands there is read as it is written. -/
theorem Covers.read_wordSource (hn : n ≤ t.length) (h : k.Covers t n data text)
    (hread : Reference.read data = .ok text) (helement : k.element.isSome)
    (hshifted : ¬ k.Shifted t) : Reference.read (k.wordSource t) = .ok k.selector.word := by
  obtain ⟨w, hw, hword, hwordStart, hdata, hsource⟩ := h.exists_word hn
  have hfree : ∀ i < w, ¬ Reference.Changes (data.drop i) := fun i hi hchanges =>
    hshifted ⟨helement, i, by omega, by rwa [hdata]⟩
  obtain ⟨u, hu⟩ := Reference.exists_read_drop hread w
  have htext := Reference.read_eq_append hread hu hfree
  by_cases hle : w ≤ data.length
  · rw [hsource hle, hu, hword, htext, List.drop_left' (List.length_take_of_le hle)]
  · -- The word would begin behind the source, of which no part has changed.
    rw [List.drop_eq_nil_of_le (by omega)] at hu
    rw [← Except.ok.inj hu, List.append_nil, List.take_of_length_le (by omega)] at htext
    rw [htext] at hw
    exact absurd hw hle

/-- A reference that changes in front of the word moves the word away from its place in the
source. -/
theorem Covers.not_hasSource (hn : n ≤ t.length) (h : k.Covers t n data text)
    (hread : Reference.read data = .ok text) (hplain : Reference.Plain (k.source t))
    (hshifted : k.Shifted t) (f : Format) : ¬ k.HasSource f t := by
  obtain ⟨w, hw, hword, hwordStart, hdata, hsource⟩ := h.exists_word hn
  rw [hdata] at hplain
  obtain ⟨-, i, hi, hchanges⟩ := hshifted
  rw [hdata] at hchanges
  obtain ⟨u, hu⟩ := Reference.exists_read_drop hread w
  have hmoved := Reference.length_read_lt hplain hread hu ⟨i, by omega, hchanges⟩
  have hall := Reference.length_le hplain hread
  have hbehind := Reference.length_le (hplain.drop w) hu
  have hle : w ≤ data.length := by omega
  rw [List.length_drop] at hbehind
  rw [HasSource, hsource hle, hword]
  rintro (heq | ⟨-, heq⟩)
  · have hlength := congrArg List.length heq
    rw [List.length_drop, List.length_drop] at hlength
    omega
  · rw [Except.ok.inj (hu.symm.trans heq), List.length_drop] at hmoved
    omega

/-! ### The token of a resolution -/

/-- A token scanned as it is written covers its own text. -/
theorem plain_sound (h : raw <:+ t.take n) (quote : Option Quote) (position : Position)
    (f : Format) : (Token.plain raw (n - raw.length : ℕ) n quote position none).Sound f t n :=
  .inl ⟨rfl, raw, h, rfl, rfl, rfl⟩

/-- Where nothing can be told the token is empty. -/
theorem nowhere_sound (f : Format) (t : Text) (n : ℕ) (path : Path) (malformed : Bool) :
    (Resolution.nowhere n path malformed).token.Sound f t n :=
  plain_sound List.nil_suffix none .unknown f

end Token
end Cursor
end Scopewright
