import Mathlib.Logic.Function.Defs
import Mathlib.Tactic.SplitIfs
import Scopewright.Json.Quoted
import Scopewright.Proofs.Text.Class

/-! # Quoted strings are told from their front

A notation writes a text by a piece for each of its units (`Text.Spells`).  When the unit can be read
off a piece whatever follows it (`Text.Separates`), what is written is the spelling of one text only
(`Text.Spells.unique`).

Between quotes a unit stands for itself or is escaped (`Quoted.Piece`), and no unit that stands for
itself is a backslash.  So the unit is read off its piece (`Quoted.readUnit?_escapeUnit`), a whole
body is the spelling of its text (`Quoted.spells_escape`), and different texts are written
differently (`Quoted.escape_injective`, `Quoted.encode_injective`).

A literal is told from its front, whatever follows, so at most one prefix of a text is a closed string
(`Quoted.eq_of_isClosed`).  The loop that looks for the closing quote passes over an escaped body
(`Quoted.closes_escape_append`).  Of the prefixes of a literal, and of all that begins with it, the
literal alone is therefore closed (`Quoted.isClosed_encode`, `Quoted.isClosed_of_isPrefix`,
`Quoted.isClosed_append`). -/

namespace Scopewright
namespace Text

/-- A text is written by a piece for each of its units. -/
inductive Spells (piece : CodeUnit → Text → Prop) : Text → Text → Prop
  | nil : Spells piece [] []
  | cons {c : CodeUnit} {p t s : Text} :
      piece c p → Spells piece t s → Spells piece (c :: t) (p ++ s)

/-- The first unit is read off its piece, whatever follows; nothing is read off nothing. -/
structure Separates (read? : Text → Option (CodeUnit × Text)) (piece : CodeUnit → Text → Prop) :
    Prop where
  read_nil : read? [] = none
  read_append : ∀ c p s, piece c p → read? (p ++ s) = some (c, s)

variable {piece : CodeUnit → Text → Prop} {read? : Text → Option (CodeUnit × Text)}

theorem Spells.read_cons (h : Separates read? piece) {c : CodeUnit} {t s : Text}
    (hs : Spells piece (c :: t) s) : ∃ r, read? s = some (c, r) ∧ Spells piece t r := by
  cases hs with
  | cons hp ht => exact ⟨_, h.read_append _ _ _ hp, ht⟩

theorem Spells.unique (h : Separates read? piece) {t u s : Text} (ht : Spells piece t s)
    (hu : Spells piece u s) : t = u := by
  induction t generalizing u s with
  | nil =>
      cases ht
      cases u with
      | nil => rfl
      | cons d u =>
          obtain ⟨r, hr, _⟩ := hu.read_cons h
          rw [h.read_nil] at hr
          cases hr
  | cons c t ih =>
      obtain ⟨r, hr, ht⟩ := ht.read_cons h
      cases u with
      | nil =>
          cases hu
          rw [h.read_nil] at hr
          cases hr
      | cons d u =>
          obtain ⟨r', hr', hu⟩ := hu.read_cons h
          obtain ⟨rfl, rfl⟩ := Prod.mk.inj (Option.some.inj (hr.symm.trans hr'))
          rw [ih ht hu]

theorem spells_flatMap (f : CodeUnit → Text) (t : Text) :
    Spells (fun c p => p = f c) t (t.flatMap f) := by
  induction t with
  | nil => exact .nil
  | cons c t ih => exact .cons rfl ih

/-- A notation with one piece for each unit writes different texts differently. -/
theorem flatMap_injective (read? : Text → Option (CodeUnit × Text)) {f : CodeUnit → Text}
    (h : Separates read? fun c p => p = f c) :
    Function.Injective fun t : Text => t.flatMap f := by
  intro t u htu
  have hu : Spells (fun c p => p = f c) u (t.flatMap f) := by
    rw [show t.flatMap f = u.flatMap f from htu]
    exact spells_flatMap f u
  exact (spells_flatMap f t).unique h hu

end Text

namespace Json
namespace Quoted

/-- How a unit is written between quotes: escaped, or as it is. -/
def Piece (c : CodeUnit) (p : Text) : Prop := p = escapeUnit c ∨ (p = [c] ∧ c ≠ backslash)

/-- The unit that a body begins with, and what stands behind it. -/
def readUnit? : Text → Option (CodeUnit × Text)
  | [] => none
  | [c] => some (c, [])
  | c :: d :: r =>
    if c = backslash then
      if d = 'u' then some (.ofNat (Text.natValue (r.take 4) 16), r.drop 4)
      else some (ofLetter d, r)
    else some (c, d :: r)

theorem readUnit?_cons {c : CodeUnit} (h : c ≠ backslash) (s : Text) :
    readUnit? (c :: s) = some (c, s) := by
  cases s with
  | nil => rfl
  | cons d r => rw [readUnit?, if_neg h]

theorem hexValue_hexDigit : ∀ n < 16, (hexDigit n).hexValue = n := by decide

theorem isHexDigit_hexDigit : ∀ n < 16, (hexDigit n).isHexDigit = true := by decide

theorem natValue_hexDigits (c : CodeUnit) :
    Text.natValue [hexDigit (c.toNat / 4096), hexDigit (c.toNat / 256 % 16),
      hexDigit (c.toNat / 16 % 16), hexDigit (c.toNat % 16)] 16 = c.toNat := by
  have hlt : c.toNat < 65536 := c.code.toNat_lt
  simp only [Text.natValue, List.foldl_cons, List.foldl_nil]
  rw [hexValue_hexDigit _ (by omega), hexValue_hexDigit _ (by omega),
    hexValue_hexDigit _ (by omega), hexValue_hexDigit _ (by omega)]
  omega

theorem readUnit?_byNumber (c : CodeUnit) (s : Text) :
    readUnit? (byNumber c ++ s) = some (c, s) := by
  have hread : readUnit? (byNumber c ++ s) = some (.ofNat (Text.natValue
      [hexDigit (c.toNat / 4096), hexDigit (c.toNat / 256 % 16), hexDigit (c.toNat / 16 % 16),
        hexDigit (c.toNat % 16)] 16), s) := rfl
  rw [hread, natValue_hexDigits, CodeUnit.ofNat_toNat]

/-- The unit is read off its escape. -/
theorem readUnit?_escapeUnit (c : CodeUnit) (s : Text) :
    readUnit? (escapeUnit c ++ s) = some (c, s) := by
  unfold escapeUnit
  split_ifs with hquote hback hfeed hreturn htab height htwelve _
  · rw [hquote]
    rfl
  · rw [hback]
    rfl
  · rw [hfeed]
    rfl
  · rw [hreturn]
    rfl
  · rw [htab]
    rfl
  · rw [← CodeUnit.ofNat_toNat c, height]
    rfl
  · rw [← CodeUnit.ofNat_toNat c, htwelve]
    rfl
  · exact readUnit?_byNumber c s
  · exact readUnit?_cons hback s

theorem separates_readUnit? : Text.Separates readUnit? Piece where
  read_nil := rfl
  read_append c p s hp := by
    rcases hp with rfl | ⟨rfl, hc⟩
    · exact readUnit?_escapeUnit c s
    · exact readUnit?_cons hc s

theorem ne_backslash_of_lead {c : CodeUnit} (h : c.isLeadSurrogate = true) : c ≠ backslash :=
  CodeUnit.ne_of_class h (by decide)

theorem ne_backslash_of_trail {c : CodeUnit} (h : c.isTrailSurrogate = true) : c ≠ backslash :=
  CodeUnit.ne_of_class h (by decide)

/-- A body spells its text. -/
theorem spells_escape (t : Text) : Text.Spells Piece t (escape t) := by
  fun_induction escape t with
  | case1 => exact .nil
  | case2 c =>
      rw [← List.append_nil (escapeUnit c)]
      exact .cons (.inl rfl) .nil
  | case3 c d r h ih =>
      -- the halves of a surrogate pair stand as they are
      obtain ⟨hc, hd⟩ := Bool.and_eq_true_iff.mp h
      exact .cons (p := [c]) (.inr ⟨rfl, ne_backslash_of_lead hc⟩)
        (.cons (p := [d]) (.inr ⟨rfl, ne_backslash_of_trail hd⟩) ih)
  | case4 c d r _ ih => exact .cons (.inl rfl) ih

theorem escape_injective : Function.Injective escape := by
  intro t u h
  have hu : Text.Spells Piece u (escape t) := h ▸ spells_escape u
  exact (spells_escape t).unique separates_readUnit? hu

theorem encode_injective : Function.Injective encode := by
  intro t u h
  exact escape_injective (List.append_cancel_right (List.cons.inj h).2)

/-! ### The closing quote -/

section closing

variable {a b r s v w : Text} {c : CodeUnit}

theorem closes_unit (hquote : c ≠ quote) (hback : c ≠ backslash) (s : Text) :
    closes (c :: s) = closes s := by
  cases s with
  | nil => exact decide_eq_false hquote
  | cons d r => rw [closes, if_neg hback, if_neg hquote]

theorem closes_backslash (c : CodeUnit) (s : Text) : closes (backslash :: c :: s) = closes s := by
  rw [closes, if_pos rfl]

theorem closes_quote_cons (c : CodeUnit) (s : Text) : closes (quote :: c :: s) = false := by
  have hback : quote ≠ backslash := by decide
  rw [closes, if_neg hback, if_pos rfl]

theorem closes_word (hw : ∀ c ∈ w, c.isWord = true) (s : Text) : closes (w ++ s) = closes s := by
  induction w with
  | nil => rfl
  | cons c w ih =>
      obtain ⟨hc, hw⟩ := List.forall_mem_cons.mp hw
      have hquote : c ≠ quote := CodeUnit.ne_of_isWord hc (by decide)
      have hback : c ≠ backslash := CodeUnit.ne_of_isWord hc (by decide)
      rw [List.cons_append, closes_unit hquote hback, ih hw]

/-- A closing quote is told from the left, whatever follows. -/
theorem eq_of_closes (h : a <+: b) (ha : closes a = true) (hb : closes b = true) : a = b := by
  obtain ⟨x, rfl⟩ := h
  suffices hx : x = [] by rw [hx, List.append_nil]
  fun_induction closes a with
  | case1 => cases ha
  | case2 c =>
      obtain rfl : c = quote := of_decide_eq_true ha
      cases x with
      | nil => rfl
      | cons d x =>
          rw [List.singleton_append, closes_quote_cons] at hb
          cases hb
  | case3 d r ih =>
      rw [List.cons_append, List.cons_append, closes_backslash] at hb
      exact ih ha hb
  | case4 d r _ => cases ha
  | case5 c d r hback hquote ih =>
      rw [List.cons_append, closes_unit hquote hback] at hb
      exact ih ha hb

/-- At most one prefix of a text is a closed string. -/
theorem eq_of_isClosed (h : a <+: b) (ha : isClosed a = true) (hb : isClosed b = true) : a = b := by
  cases a with
  | nil => cases ha
  | cons c a =>
      obtain ⟨x, rfl⟩ := h
      have hbody : a <+: a ++ x := List.prefix_append a x
      exact congrArg (c :: ·) (eq_of_closes hbody ha hb)

theorem isWord_hexDigit {n : Nat} (h : n < 16) : (hexDigit n).isWord = true :=
  CodeUnit.isWord_of_isHexDigit (isHexDigit_hexDigit n h)

theorem closes_byNumber (c : CodeUnit) (s : Text) : closes (byNumber c ++ s) = closes s := by
  have hlt : c.toNat < 65536 := c.code.toNat_lt
  have hdigits : ∀ d ∈ [hexDigit (c.toNat / 4096), hexDigit (c.toNat / 256 % 16),
      hexDigit (c.toNat / 16 % 16), hexDigit (c.toNat % 16)], d.isWord = true := by
    simp only [List.forall_mem_cons]
    exact ⟨isWord_hexDigit (by omega), isWord_hexDigit (by omega), isWord_hexDigit (by omega),
      isWord_hexDigit (by omega), List.forall_mem_nil _⟩
  exact (closes_backslash 'u' _).trans (closes_word hdigits s)

theorem closes_escapeUnit (c : CodeUnit) (s : Text) : closes (escapeUnit c ++ s) = closes s := by
  unfold escapeUnit
  split_ifs with hquote hback
  -- the escapes by letter
  iterate 7 exact closes_backslash _ s
  · exact closes_byNumber c s
  · exact closes_unit hquote hback s

/-- An escaped text is passed over. -/
theorem closes_escape_append (t s : Text) : closes (escape t ++ s) = closes s := by
  fun_induction escape t with
  | case1 => rfl
  | case2 c => exact closes_escapeUnit c s
  | case3 c d r h ih =>
      obtain ⟨hc, hd⟩ := Bool.and_eq_true_iff.mp h
      have hlead : c ≠ quote := CodeUnit.ne_of_class hc (by decide)
      have htrail : d ≠ quote := CodeUnit.ne_of_class hd (by decide)
      rw [List.cons_append, closes_unit hlead (ne_backslash_of_lead hc), List.cons_append,
        closes_unit htrail (ne_backslash_of_trail hd), ih]
  | case4 c d r _ ih => rw [List.append_assoc, closes_escapeUnit, ih]

theorem isClosed_encode (v : Text) : isClosed (encode v) = true :=
  closes_escape_append v [quote]

/-- A part of a literal is not closed. -/
theorem isClosed_of_isPrefix (h : s <+: encode v) (hne : s ≠ encode v) :
    isClosed s = false := by
  rw [Bool.eq_false_iff]
  exact fun hs => hne (eq_of_isClosed h hs (isClosed_encode v))

/-- A literal with something behind it is not closed. -/
theorem isClosed_append (v : Text) (h : r ≠ []) : isClosed (encode v ++ r) = false := by
  rw [Bool.eq_false_iff]
  intro hr
  have heq := eq_of_isClosed (List.prefix_append (encode v) r) (isClosed_encode v) hr
  exact h (List.self_eq_append_right.mp heq)

end closing

end Quoted
end Json
end Scopewright
