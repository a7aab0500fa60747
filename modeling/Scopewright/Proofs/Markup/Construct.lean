import Scopewright.Markup.Piece
import Scopewright.Proofs.Text.Find

/-! # What stands behind a `<`

A piece behind a `<` is told by the units that it takes: it stays the same when the text is cut off
behind them (`construct_complete`).  Inside a section of character data that is taken as it stands
the text may be cut off as well, and then there is no piece (`construct_section`). -/

namespace Scopewright
namespace Markup

open Text (findIdx_of_isPrefix findIdx_lt takeWhile_of_isPrefix find_of_isPrefix find_length_le
  find_eq_none)

/-- The piece that is read from a text takes `length` of its units, and it is read from each beginning
of the text that has them. -/
structure Complete (read : Text → Construct) (t : Text) (kind : PieceKind) (last length : ℕ) :
    Prop where
  last_lt : last < length
  length_le : length ≤ t.length
  of_isPrefix : ∀ s, s <+: t → length ≤ s.length → read s = .piece kind last length

variable {t : Text} {kind : PieceKind} {last length : ℕ}

theorem Complete.succ {read : Text → Construct} (h : Complete read t kind last length)
    (c : CodeUnit) {read' : Text → Construct} (hread : ∀ s, read' (c :: s) = (read s).succ) :
    Complete read' (c :: t) kind (last + 1) (length + 1) where
  last_lt := Nat.succ_lt_succ h.last_lt
  length_le := Nat.succ_le_succ h.length_le
  of_isPrefix := by
    intro s hs hlength
    cases s with
    | nil => exact absurd hlength (Nat.not_succ_le_zero length)
    | cons d s =>
        obtain ⟨rfl, hrest⟩ := List.cons_prefix_cons.mp hs
        rw [hread, h.of_isPrefix s hrest (Nat.le_of_succ_le_succ hlength)]
        rfl

theorem exists_of_succ {d : Construct} (h : d.succ = .piece kind last length) :
    ∃ last' length', d = .piece kind last' length' ∧ last = last' + 1 ∧ length = length' + 1 := by
  cases d with
  | piece kind' last' length' =>
      obtain ⟨rfl, rfl, rfl⟩ := Construct.piece.inj h
      exact ⟨last', length', rfl, rfl, rfl⟩
  | none => cases h
  | cut => cases h
  | unfinished => cases h

theorem asideAfter_complete {skip i : ℕ} (h : asideAfter skip i t t = .piece kind last length) :
    Complete (fun s => asideAfter skip i s s) t kind last length := by
  unfold asideAfter at h
  split at h
  · rename_i k hk
    obtain ⟨rfl, rfl, rfl⟩ := Construct.piece.inj h
    have hlt := findIdx_lt hk
    rw [List.length_drop] at hlt
    refine ⟨Nat.lt_succ_self _, by omega, fun s hs hlength => ?_⟩
    have hfound := findIdx_of_isPrefix (hs.drop skip) hk (by rw [List.length_drop]; omega)
    simp only [asideAfter, hfound]
  · cases h

theorem lt_of_asideAfter {skip i : ℕ} {text : Text}
    (h : asideAfter skip i t text = .piece kind last length) : skip < length := by
  unfold asideAfter at h
  split at h
  · obtain ⟨-, -, rfl⟩ := Construct.piece.inj h
    omega
  · cases h

/-- A piece of a text with one unit more in front is told by the beginnings that have the unit. -/
theorem Complete.of_cons {read : Text → Construct} {c : CodeUnit} {r : Text}
    (hlast : last < length) (hlength : length ≤ r.length + 1)
    (h : ∀ s, s <+: r → length ≤ s.length + 1 → read (c :: s) = .piece kind last length) :
    Complete read (c :: r) kind last length where
  last_lt := hlast
  length_le := hlength
  of_isPrefix := by
    intro s hs hle
    cases s with
    | nil => exact absurd (Nat.lt_of_lt_of_le hlast hle) (Nat.not_lt_zero last)
    | cons d s =>
        obtain ⟨rfl, hrest⟩ := List.cons_prefix_cons.mp hs
        exact h s hrest hle

theorem take_of_isPrefix {s t : Text} {k : ℕ} (hs : s <+: t) (hk : k ≤ s.length) :
    s.take k = t.take k := by
  obtain ⟨rest, rfl⟩ := hs
  rw [List.take_append_of_le_length hk]

/-! ### Declarations -/

/-- A section of character data that is taken as it stands, behind its `[`. -/
theorem section_complete {i k : ℕ} {r : Text} (hmark : dataMark <+: r)
    (hk : Text.find? "]]>" (r.drop dataMark.length) = some k) :
    Complete (declaration i) (CodeUnit.ofBasic '[' :: r)
      (.text ((r.drop dataMark.length).take k)) (k + 9) (k + 10) := by
  have hmarkLength : dataMark.length = 6 := rfl
  have hend : (Text.ofString "]]>").length = 3 := rfl
  have hlength := find_length_le (by decide) hk
  rw [List.length_drop] at hlength
  refine .of_cons (Nat.lt_succ_self _) (by omega) fun s hs hle => ?_
  have hmark' : dataMark <+: s := List.prefix_of_prefix_length_le hmark hs (by omega)
  have hdrop : (s.drop dataMark.length).length = s.length - 6 := List.length_drop
  have hfound := find_of_isPrefix (hs.drop dataMark.length) hk (by omega)
  have hbody := take_of_isPrefix (hs.drop dataMark.length) (k := k) (by omega)
  simp only [declaration.eq_def, List.isPrefixOf_iff_prefix.mpr hmark', and_self, if_true, hfound,
    hbody]

theorem comment_complete {i k : ℕ} {body : Text}
    (hk : Text.find? "-->" (CodeUnit.ofBasic '-' :: CodeUnit.ofBasic '-' :: body) = some k) :
    Complete (declaration i) (CodeUnit.ofBasic '-' :: CodeUnit.ofBasic '-' :: body) .aside
      (k + 2) (k + 3) := by
  have hend : (Text.ofString "-->").length = 3 := rfl
  have hlength := find_length_le (by decide) hk
  rw [List.length_cons, List.length_cons] at hlength
  refine .of_cons (Nat.lt_succ_self _) (by rw [List.length_cons]; omega) fun s hs hle => ?_
  have hbracket : ¬ CodeUnit.ofBasic '-' = CodeUnit.ofBasic '[' := by decide
  cases s with
  | nil => exact absurd hle (by simp)
  | cons d s =>
      obtain ⟨rfl, hrest⟩ := List.cons_prefix_cons.mp hs
      rw [List.length_cons] at hle
      have hfound : Text.find? "-->" (Text.ofString "--" ++ s) = some k :=
        find_of_isPrefix (List.cons_prefix_cons.mpr ⟨rfl, List.cons_prefix_cons.mpr ⟨rfl, hrest⟩⟩) hk
          (show k + 3 ≤ s.length + 2 from hle)
      simp only [declaration.eq_def, hbracket, false_and, if_false, if_true, hfound]

/-- A declaration that is a piece is a section of character data, a comment, or an aside up to its
first `>` behind some units; and then its beginnings that have these units are told the same way. -/
theorem declaration_cases {i : ℕ} {c : CodeUnit} {r : Text}
    (h : declaration i (c :: r) = .piece kind last length) :
    (c = CodeUnit.ofBasic '[' ∧ dataMark <+: r ∧ ∃ k,
        Text.find? "]]>" (r.drop dataMark.length) = some k ∧
          kind = .text ((r.drop dataMark.length).take k) ∧ last = k + 9 ∧ length = k + 10) ∨
      (c = CodeUnit.ofBasic '-' ∧ ∃ body, r = CodeUnit.ofBasic '-' :: body ∧ ∃ k,
        Text.find? "-->" (CodeUnit.ofBasic '-' :: CodeUnit.ofBasic '-' :: body) = some k ∧
          kind = .aside ∧ last = k + 2 ∧ length = k + 3) ∨
      (∃ skip, asideAfter skip i (c :: r) (c :: r) = .piece kind last length ∧
        ∀ s, s <+: r → skip ≤ s.length →
          declaration i (c :: s) = asideAfter skip i (c :: s) (c :: s)) := by
  by_cases hbracket : c = CodeUnit.ofBasic '['
  · subst hbracket
    by_cases hmark : dataMark.isPrefixOf r = true
    · simp only [declaration.eq_def, hmark, and_self, if_true] at h
      split at h
      · rename_i k hk
        obtain ⟨rfl, rfl, rfl⟩ := Construct.piece.inj h
        exact .inl ⟨rfl, List.isPrefixOf_iff_prefix.mp hmark, k, hk, rfl, rfl, rfl⟩
      · cases h
    · simp only [declaration.eq_def, hmark, and_false, Bool.false_eq_true, if_false, if_true] at h
      refine .inr (.inr ⟨1, h, fun s hs _ => ?_⟩)
      have hmark' : ¬ dataMark.isPrefixOf s = true := fun hs' =>
        hmark <| List.isPrefixOf_iff_prefix.mpr ((List.isPrefixOf_iff_prefix.mp hs').trans hs)
      simp only [declaration.eq_def, hmark', and_false, Bool.false_eq_true, if_false, if_true]
  · by_cases hdash : c = CodeUnit.ofBasic '-'
    · subst hdash
      simp only [declaration.eq_def, hbracket, false_and, if_false, if_true] at h
      cases r with
      | nil => cases h
      | cons d body =>
          simp only at h
          by_cases hsecond : d = CodeUnit.ofBasic '-'
          · rw [if_pos hsecond] at h
            split at h
            · rename_i k hk
              obtain ⟨rfl, rfl, rfl⟩ := Construct.piece.inj h
              exact .inr (.inl ⟨rfl, body, by rw [hsecond], k, hk, rfl, rfl, rfl⟩)
            · cases h
          · rw [if_neg hsecond] at h
            refine .inr (.inr ⟨2, h, fun s hs hle => ?_⟩)
            cases s with
            | nil => exact absurd hle (by decide)
            | cons e s =>
                obtain ⟨rfl, -⟩ := List.cons_prefix_cons.mp hs
                simp only [declaration.eq_def, hbracket, false_and, if_false, if_true, hsecond]
    · simp only [declaration.eq_def, hbracket, false_and, if_false, hdash] at h
      refine .inr (.inr ⟨1, h, fun s _ _ => ?_⟩)
      simp only [declaration.eq_def, hbracket, false_and, if_false, hdash]

theorem declaration_complete {i : ℕ} (h : declaration i t = .piece kind last length) :
    Complete (declaration i) t kind last length := by
  cases t with
  | nil => cases h
  | cons c r =>
      rcases declaration_cases h with ⟨rfl, hmark, k, hk, rfl, rfl, rfl⟩ |
        ⟨rfl, body, rfl, k, hk, rfl, rfl, rfl⟩ | ⟨skip, haside, hread⟩
      · exact section_complete hmark hk
      · exact comment_complete hk
      · have hcomplete := asideAfter_complete haside
        have hskip := lt_of_asideAfter haside
        refine .of_cons hcomplete.last_lt hcomplete.length_le fun s hs hle => ?_
        rw [hread s hs (by omega)]
        exact hcomplete.of_isPrefix (c :: s) (List.cons_prefix_cons.mpr ⟨rfl, hs⟩) hle

/-! ### Tags -/

/-- The units of a closing tag's name behind its first one. -/
def closingTail (t : Text) : Text :=
  t.takeWhile fun d => !(isSpace d || decide (d = CodeUnit.ofBasic '>'))

/-- What stands behind `</` and white space is an aside when it begins with a slash, and else a name
with the end of its tag somewhere behind it. -/
theorem closingTag_iff {i : ℕ} : closingTag i t = .piece kind last length ↔
    ∃ c r, t.drop (t.takeWhile isSpace).length = c :: r ∧ c ≠ CodeUnit.ofBasic '>' ∧
      ((c = CodeUnit.ofBasic '/' ∧ ∃ k, r.findIdx? (· = CodeUnit.ofBasic '>') = some k ∧
          kind = .aside ∧ last = (t.takeWhile isSpace).length + 1 + k ∧
          length = (t.takeWhile isSpace).length + 2 + k) ∨
        (c ≠ CodeUnit.ofBasic '/' ∧ ∃ k,
          (r.drop (closingTail r).length).findIdx? (· = CodeUnit.ofBasic '>') = some k ∧
          kind = .closing (c :: closingTail r) ∧
          last = (t.takeWhile isSpace).length + 1 + (closingTail r).length ∧
          length = last + k + 1)) := by
  simp only [closingTag.eq_def, ← closingTail.eq_def]
  constructor
  · intro h
    split at h
    · cases h
    · rename_i c r hr
      refine ⟨c, r, hr, ?_⟩
      split at h
      · cases h
      · rename_i hclose
        refine ⟨hclose, ?_⟩
        split at h
        · rename_i hslash
          split at h
          · rename_i k hk
            obtain ⟨rfl, rfl, rfl⟩ := Construct.piece.inj h
            exact .inl ⟨hslash, k, hk, rfl, rfl, rfl⟩
          · cases h
        · rename_i hslash
          split at h
          · cases h
          · split at h
            · rename_i k hk
              obtain ⟨rfl, rfl, rfl⟩ := Construct.piece.inj h
              exact .inr ⟨hslash, k, hk, rfl, rfl, rfl⟩
            · cases h
  · rintro ⟨c, r, hr, hclose, ⟨hslash, k, hk, rfl, rfl, rfl⟩ | ⟨hslash, k, hk, rfl, rfl, rfl⟩⟩
    · simp only [hr, if_neg hclose, if_pos hslash, hk]
    · simp only [hr, if_neg hclose, if_neg hslash]
      split
      · rename_i hnil
        rw [hnil] at hk
        cases hk
      · rw [hk]

/-- A beginning that is longer than what is dropped goes on as the text does. -/
theorem exists_drop_of_isPrefix {s r : Text} {c : CodeUnit} {n : ℕ} (hs : s <+: t)
    (hr : t.drop n = c :: r) (hn : n < s.length) : ∃ r', s.drop n = c :: r' ∧ r' <+: r := by
  have hdrop := hs.drop n
  rw [hr, List.drop_eq_getElem_cons hn] at hdrop
  obtain ⟨hc, hrest⟩ := List.cons_prefix_cons.mp hdrop
  exact ⟨s.drop (n + 1), by rw [List.drop_eq_getElem_cons hn, hc], hrest⟩

theorem length_drop_cons {r : Text} {c : CodeUnit} {n : ℕ} (h : t.drop n = c :: r) :
    n + (r.length + 1) = t.length := by
  have := congrArg List.length h
  rw [List.length_drop, List.length_cons] at this
  omega

theorem closingTag_complete {i : ℕ} (h : closingTag i t = .piece kind last length) :
    Complete (closingTag i) t kind last length := by
  obtain ⟨c, r, hr, hclose, hkind⟩ := closingTag_iff.mp h
  have hlead := length_drop_cons hr
  rcases hkind with ⟨hslash, k, hk, rfl, rfl, rfl⟩ | ⟨hslash, k, hk, rfl, rfl, rfl⟩
  · have hlt := findIdx_lt hk
    refine ⟨by omega, by omega, fun s hs hle => ?_⟩
    have hblanks := takeWhile_of_isPrefix hs (p := isSpace) (by omega)
    obtain ⟨r', hr', hrest⟩ := exists_drop_of_isPrefix hs hr (by omega)
    have hlength := length_drop_cons hr'
    have hfound := findIdx_of_isPrefix hrest hk (by omega)
    rw [← hblanks] at hr' ⊢
    exact closingTag_iff.mpr ⟨c, r', hr', hclose, .inl ⟨hslash, k, hfound, rfl, rfl, rfl⟩⟩
  · have hlt := findIdx_lt hk
    rw [List.length_drop] at hlt
    refine ⟨by omega, by omega, fun s hs hle => ?_⟩
    have hblanks := takeWhile_of_isPrefix hs (p := isSpace) (by omega)
    obtain ⟨r', hr', hrest⟩ := exists_drop_of_isPrefix hs hr (by omega)
    have hlength := length_drop_cons hr'
    have hname : closingTail r' = closingTail r :=
      takeWhile_of_isPrefix hrest (by unfold closingTail at *; omega)
    have hfound := findIdx_of_isPrefix (hrest.drop (closingTail r).length) hk
      (by rw [List.length_drop]; omega)
    rw [← hblanks] at hr' ⊢
    rw [← hname] at hfound ⊢
    exact closingTag_iff.mpr ⟨c, r', hr', hclose, .inr ⟨hslash, k, hfound, rfl, rfl, rfl⟩⟩

theorem lt_of_readTag {st : TagState} {i n : ℕ} {mark : Option ℕ} {before : CodeUnit}
    {isEmpty : Bool} (h : readTag st i mark before t = .closed n isEmpty) : 0 < n ∧ n ≤ t.length := by
  induction t generalizing st i mark before n with
  | nil =>
      rw [readTag.eq_def] at h
      simp only at h
      split at h <;> cases h
  | cons c r ih =>
      rw [readTag] at h
      split at h
      · obtain ⟨rfl, -⟩ := TagEnd.closed.inj h
        exact ⟨Nat.one_pos, by simp⟩
      · obtain ⟨rfl, -⟩ := TagEnd.closed.inj h
        exact ⟨Nat.one_pos, by simp⟩
      · rename_i st' mark' _
        cases hrest : readTag st' (i + 1) mark' c r with
        | closed m e =>
            rw [hrest] at h
            obtain ⟨rfl, rfl⟩ := TagEnd.closed.inj h
            obtain ⟨-, hle⟩ := ih hrest
            exact ⟨Nat.succ_pos m, Nat.succ_le_succ hle⟩
        | unfinished =>
            rw [hrest] at h
            cases h

/-- The end of a tag is told by the units up to it. -/
theorem readTag_of_isPrefix {st : TagState} {i n : ℕ} {mark : Option ℕ} {before : CodeUnit}
    {isEmpty : Bool} {s : Text} (hs : s <+: t)
    (h : readTag st i mark before t = .closed n isEmpty) (hn : n ≤ s.length) :
    readTag st i mark before s = .closed n isEmpty := by
  induction t generalizing st i mark before n s with
  | nil => rwa [List.prefix_nil.mp hs]
  | cons c r ih =>
      cases s with
      | nil => exact absurd (lt_of_readTag h).1 (by simpa using hn)
      | cons d s =>
          obtain ⟨rfl, hrest⟩ := List.cons_prefix_cons.mp hs
          rw [readTag] at h ⊢
          split
          · rename_i hopened
            simpa only [hopened] using h
          · rename_i hemptied
            simpa only [hemptied] using h
          · rename_i st' mark' hgoOn
            simp only [hgoOn] at h
            cases hread : readTag st' (i + 1) mark' d r with
            | closed m e =>
                rw [hread] at h
                obtain ⟨rfl, rfl⟩ := TagEnd.closed.inj h
                rw [ih hrest hread (Nat.le_of_succ_le_succ hn)]
                rfl
            | unfinished =>
                rw [hread] at h
                cases h

/-- The units of a tag's name behind its first one. -/
def nameTail (t : Text) : Text := t.takeWhile fun d => !endsName d

/-- The piece of an opening tag, or of an element without anything inside. -/
def tagKind (name : Text) (isEmpty : Bool) : PieceKind :=
  if isEmpty then .empty name else .opening name

section tag

variable {i : ℕ} {c : CodeUnit} (hc : endsName c = false)
  (hmark : c ≠ CodeUnit.ofBasic '!' ∧ c ≠ CodeUnit.ofBasic '?' ∧ c ≠ CodeUnit.ofBasic '/')

include hc hmark

/-- A tag is a piece just when its end is there. -/
theorem construct_tag_iff : construct i (c :: t) = .piece kind last length ↔
    ∃ n isEmpty, readTag .beforeName (i + 1 + (nameTail t).length) none c
        (t.drop (nameTail t).length) = .closed n isEmpty ∧
      tagKind (c :: nameTail t) isEmpty = kind ∧ (nameTail t).length + n = last ∧
      last + 1 = length := by
  simp only [construct.eq_def, hmark.1, hmark.2.1, hmark.2.2, hc, if_false, Bool.false_eq_true,
    ← nameTail.eq_def]
  split
  · rename_i hnil
    refine iff_of_false nofun ?_
    rintro ⟨n, isEmpty, hend, -⟩
    rw [hnil] at hend
    cases hend
  · constructor
    · intro h
      split at h
      · rename_i n hend
        obtain ⟨rfl, rfl, rfl⟩ := Construct.piece.inj h
        exact ⟨n, false, hend, rfl, rfl, rfl⟩
      · rename_i n hend
        obtain ⟨rfl, rfl, rfl⟩ := Construct.piece.inj h
        exact ⟨n, true, hend, rfl, rfl, rfl⟩
      · cases h
    · rintro ⟨n, isEmpty, hend, rfl, rfl, rfl⟩
      rw [hend]
      cases isEmpty <;> rfl

theorem tag_complete (h : construct i (c :: t) = .piece kind last length) :
    Complete (construct i) (c :: t) kind last length := by
  obtain ⟨n, isEmpty, hend, hkind, rfl, rfl⟩ := (construct_tag_iff hc hmark).mp h
  have hle := (lt_of_readTag hend).2
  have hname : (nameTail t).length ≤ t.length :=
    (List.takeWhile_prefix fun d => !endsName d).length_le
  rw [List.length_drop] at hle
  refine .of_cons (Nat.lt_succ_self _) (by omega) fun s hs hlength => ?_
  have hpos := (lt_of_readTag hend).1
  have hsame : nameTail s = nameTail t := takeWhile_of_isPrefix hs (by unfold nameTail at *; omega)
  have hread := readTag_of_isPrefix (hs.drop (nameTail t).length) hend
    (by rw [List.length_drop]; omega)
  exact (construct_tag_iff hc hmark).mpr ⟨n, isEmpty, hsame ▸ hread, hsame ▸ hkind, hsame ▸ rfl, rfl⟩

end tag

/-- A piece is told by the first unit behind the `<`. -/
theorem construct_cases {i : ℕ} {c : CodeUnit} {r : Text}
    (h : construct i (c :: r) = .piece kind last length) :
    (c = CodeUnit.ofBasic '!' ∧ ∃ last' length',
        declaration (i + 1) r = .piece kind last' length' ∧ last = last' + 1 ∧
          length = length' + 1) ∨
      (c = CodeUnit.ofBasic '?' ∧ ∃ k, r.findIdx? (· = CodeUnit.ofBasic '>') = some k ∧
        kind = .aside ∧ last = k + 1 ∧ length = k + 2) ∨
      (c = CodeUnit.ofBasic '/' ∧ ∃ last' length',
        closingTag (i + 1) r = .piece kind last' length' ∧ last = last' + 1 ∧
          length = length' + 1) ∨
      (endsName c = false ∧ c ≠ CodeUnit.ofBasic '!' ∧ c ≠ CodeUnit.ofBasic '?' ∧
        c ≠ CodeUnit.ofBasic '/') := by
  by_cases hbang : c = CodeUnit.ofBasic '!'
  · subst hbang
    exact .inl ⟨rfl, exists_of_succ h⟩
  · by_cases hquestion : c = CodeUnit.ofBasic '?'
    · subst hquestion
      simp only [construct.eq_def, hbang, if_false, if_true] at h
      split at h
      · rename_i k hk
        obtain ⟨rfl, rfl, rfl⟩ := Construct.piece.inj h
        exact .inr (.inl ⟨rfl, k, hk, rfl, rfl, rfl⟩)
      · cases h
    · by_cases hslash : c = CodeUnit.ofBasic '/'
      · subst hslash
        exact .inr (.inr (.inl ⟨rfl, exists_of_succ h⟩))
      · cases hname : endsName c with
        | true =>
            simp only [construct.eq_def, hbang, hquestion, hslash, hname, if_false, if_true] at h
            cases h
        | false => exact .inr (.inr (.inr ⟨rfl, hbang, hquestion, hslash⟩))

theorem construct_complete {i : ℕ} (h : construct i t = .piece kind last length) :
    Complete (construct i) t kind last length := by
  cases t with
  | nil => cases h
  | cons c r =>
      rcases construct_cases h with ⟨rfl, last', length', hread, rfl, rfl⟩ |
        ⟨rfl, k, hk, rfl, rfl, rfl⟩ | ⟨rfl, last', length', hread, rfl, rfl⟩ | ⟨hname, hmark⟩
      · exact (declaration_complete hread).succ _ fun s => rfl
      · have hlt := findIdx_lt hk
        refine .of_cons (Nat.lt_succ_self _) (by omega) fun s hs hle => ?_
        have hbang : ¬ CodeUnit.ofBasic '?' = CodeUnit.ofBasic '!' := by decide
        have hfound := findIdx_of_isPrefix hs hk (by omega)
        simp only [construct.eq_def, hbang, if_false, if_true, hfound]
      · exact (closingTag_complete hread).succ _ fun s => rfl
      · exact tag_complete hname hmark h

/-! ### Inside a section -/

theorem asideAfter_kind {skip i : ℕ} {text : Text}
    (h : asideAfter skip i t text = .piece kind last length) : kind = .aside := by
  unfold asideAfter at h
  split at h
  · exact (Construct.piece.inj h).1.symm
  · cases h

/-- Character data behind a `<!` is a section that is taken as it stands. -/
theorem declaration_text {i : ℕ} {data : Text}
    (h : declaration i t = .piece (.text data) last length) :
    ∃ r k, t = CodeUnit.ofBasic '[' :: r ∧ dataMark <+: r ∧
      Text.find? "]]>" (r.drop dataMark.length) = some k ∧ length = k + 10 := by
  cases t with
  | nil => cases h
  | cons c r =>
      rcases declaration_cases h with ⟨rfl, hmark, k, hk, -, -, rfl⟩ |
        ⟨-, body, -, k, -, hkind, -⟩ | ⟨skip, haside, -⟩
      · exact ⟨r, k, rfl, hmark, hk, rfl⟩
      · cases hkind
      · cases asideAfter_kind haside

theorem closingTag_text {i : ℕ} {data : Text} :
    closingTag i t ≠ .piece (.text data) last length := by
  intro h
  obtain ⟨c, r, -, -, ⟨-, k, -, hkind, -⟩ | ⟨-, k, -, hkind, -⟩⟩ := closingTag_iff.mp h
  · cases hkind
  · cases hkind

theorem construct_text {i : ℕ} {data : Text}
    (h : construct i t = .piece (.text data) last length) :
    ∃ r k, t = CodeUnit.ofBasic '!' :: CodeUnit.ofBasic '[' :: r ∧ dataMark <+: r ∧
      Text.find? "]]>" (r.drop dataMark.length) = some k ∧ length = k + 11 := by
  cases t with
  | nil => cases h
  | cons c r =>
      rcases construct_cases h with ⟨rfl, last', length', hread, rfl, rfl⟩ |
        ⟨rfl, k, hk, haside, -⟩ | ⟨rfl, last', length', hread, -⟩ | ⟨hname, hmark⟩
      · obtain ⟨r', k, rfl, hmark, hk, rfl⟩ := declaration_text hread
        exact ⟨r', k, rfl, hmark, hk, rfl⟩
      · cases haside
      · exact absurd hread closingTag_text
      · obtain ⟨n, isEmpty, -, hkind, -⟩ := (construct_tag_iff hname hmark).mp h
        cases isEmpty <;> cases hkind

/-- A section that is cut off before its end is no piece. -/
theorem construct_section {i : ℕ} {data s : Text}
    (h : construct i t = .piece (.text data) last length) (hs : s <+: t) (hle : 8 ≤ s.length)
    (hlt : s.length + 3 ≤ length) : ∃ tail, construct i s = .unfinished tail := by
  obtain ⟨r, k, rfl, hmark, hk, rfl⟩ := construct_text h
  match s, hs, hle, hlt with
  | b :: c :: s, hs, hle, hlt =>
      obtain ⟨rfl, hrest⟩ := List.cons_prefix_cons.mp hs
      obtain ⟨rfl, hbody⟩ := List.cons_prefix_cons.mp hrest
      have hmarkLength : dataMark.length = 6 := rfl
      have hend : (Text.ofString "]]>").length = 3 := rfl
      simp only [List.length_cons] at hle hlt
      have hmark' : dataMark <+: s := List.prefix_of_prefix_length_le hmark hbody (by omega)
      have hnone : Text.find? "]]>" (s.drop dataMark.length) = none := by
        refine find_eq_none (by decide) (hbody.drop dataMark.length) hk ?_
        rw [List.length_drop]
        omega
      rw [construct, if_pos rfl, declaration.eq_def]
      simp only [List.isPrefixOf_iff_prefix.mpr hmark', and_self, if_true, hnone]
      exact ⟨_, rfl⟩

end Markup
end Scopewright
