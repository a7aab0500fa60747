import Mathlib.Data.List.TakeWhile
import Scopewright.Proofs.Text.Words
import Scopewright.SyntaxTest.Header

/-! # What a header is made of

`Heads` says how a header is written.  Reading accepts just the lines that are written like this
(`headerOfLine_iff`), and no line is so in two ways (`Heads.unique`). -/

namespace Scopewright
namespace SyntaxTest

/-! ### The form of a header -/

/-- A word: it is not empty and has no blanks. -/
def IsWord (w : Text) : Prop := w ≠ [] ∧ ∀ c ∈ w, c.isBlank = false

instance : DecidablePred IsWord := fun _ => inferInstanceAs (Decidable (_ ∧ _))

/-- A gap between words: it is not empty and has nothing but blanks. -/
def IsGap (gap : Text) : Prop := gap ≠ [] ∧ ∀ c ∈ gap, c.isBlank = true

instance : DecidablePred IsGap := fun _ => inferInstanceAs (Decidable (_ ∧ _))

/-- A line is a header that names a syntax: the comment token, the words of a header, the path of the
syntax between quotes, and at most one more word.  `front` is what stands before the path. -/
structure Heads (line : Text) (h : Header) (front path : Text) : Prop where
  start_isWord : IsWord h.start
  front_eq : ∃ gap gap', IsGap gap ∧ IsGap gap' ∧
    front = h.start ++ gap ++ headerMark ++ gap' ++ [CodeUnit.ofBasic '"']
  path_ne_nil : path ≠ []
  quote_notMem : CodeUnit.ofBasic '"' ∉ path
  stop_isWord : ∀ w ∈ h.stop, IsWord w
  line_eq : ∃ blanks : Text, (∀ c ∈ blanks, c.isBlank = true) ∧
    line = front ++ path ++ CodeUnit.ofBasic '"' :: (blanks ++ h.stop.getD [])

theorem IsWord.takeWhile {w gap rest : Text} (hw : IsWord w) (hgap : IsGap gap) :
    (w ++ (gap ++ rest)).takeWhile (!·.isBlank) = w := by
  refine (Text.span_append (fun c hc => ?_) fun c hc => ?_).1
  · rw [hw.2 c hc, Bool.not_false]
  · obtain ⟨d, gap, rfl⟩ := List.exists_cons_of_ne_nil hgap.1
    rw [← Option.some.inj hc, hgap.2 d List.mem_cons_self, Bool.not_true]

/-! ### What is read -/

theorem after_iff {head t rest : Text} : after? head t = some rest ↔ t = head ++ rest := by
  constructor
  · intro h
    obtain ⟨hhead, hrest⟩ := Option.ite_none_right_eq_some.mp h
    rw [← Option.some.inj hrest]
    exact (List.prefix_iff_eq_append.mp (List.isPrefixOf_iff_prefix.mp hhead)).symm
  · rintro rfl
    rw [after?, if_pos (List.isPrefixOf_iff_prefix.mpr (List.prefix_append head rest)),
      List.drop_left]

theorem afterBlanks_iff {t rest : Text} :
    afterBlanks? t = some rest ↔
      ∃ gap, IsGap gap ∧ t = gap ++ rest ∧ ∀ c ∈ rest.head?, c.isBlank = false := by
  simp only [afterBlanks?, Option.ite_none_right_eq_some, Option.some.injEq]
  constructor
  · intro h
    obtain ⟨gap, body, rfl, hgap, hbody⟩ := Text.exists_blanks_append t
    rw [(Text.span_append hgap hbody).2] at h
    obtain ⟨hlt, rfl⟩ := h
    refine ⟨gap, ⟨?_, hgap⟩, rfl, hbody⟩
    rintro rfl
    exact Nat.lt_irrefl _ hlt
  · rintro ⟨gap, hgap, rfl, hrest⟩
    have hdrop := (Text.span_append hgap.2 hrest).2
    have hpos := List.length_pos_iff.mpr hgap.1
    rw [hdrop, List.length_append]
    exact ⟨by omega, rfl⟩

/-- What is read up to the quote that opens the path. -/
theorem headerStart_iff {line start rest : Text} :
    headerStart? line = some (start, rest) ↔ IsWord start ∧ ∃ gap gap', IsGap gap ∧ IsGap gap' ∧
      line = start ++ gap ++ headerMark ++ gap' ++ [CodeUnit.ofBasic '"'] ++ rest := by
  constructor
  · intro h
    unfold headerStart? at h
    simp only at h
    split at h
    · cases h
    · rename_i hempty
      obtain ⟨afterStart, hstart, h⟩ := Option.bind_eq_some_iff.mp h
      obtain ⟨afterMark, hmark, h⟩ := Option.bind_eq_some_iff.mp h
      obtain ⟨atQuote, hblanks, h⟩ := Option.bind_eq_some_iff.mp h
      obtain ⟨name, hquote, h⟩ := Option.bind_eq_some_iff.mp h
      obtain ⟨rfl, rfl⟩ := Prod.mk.inj (Option.some.inj h)
      obtain ⟨gap, hgap, hstart, -⟩ := afterBlanks_iff.mp hstart
      obtain ⟨gap', hgap', hblanks, -⟩ := afterBlanks_iff.mp hblanks
      have hline := List.prefix_iff_eq_append.mp
        (List.takeWhile_prefix (l := line) fun c => !c.isBlank)
      rw [hstart, after_iff.mp hmark, hblanks, after_iff.mp hquote] at hline
      refine ⟨⟨fun hnil => hempty (List.isEmpty_iff.mpr hnil), fun c hc => ?_⟩,
        gap, gap', hgap, hgap', hline.symm.trans ?_⟩
      · simpa using List.mem_takeWhile_imp hc
      · simp only [List.append_assoc]
        rfl
  · rintro ⟨hstart, gap, gap', hgap, hgap', rfl⟩
    have htake : (start ++ gap ++ headerMark ++ gap' ++ [CodeUnit.ofBasic '"'] ++ rest).takeWhile
        (!·.isBlank) = start := by
      simp only [List.append_assoc]
      exact hstart.takeWhile hgap
    have hempty : start.isEmpty = false := by
      rw [Bool.eq_false_iff, Ne, List.isEmpty_iff]
      exact hstart.1
    have hmark : afterBlanks? (gap ++ (headerMark ++ (gap' ++ ([CodeUnit.ofBasic '"'] ++ rest)))) =
        some (headerMark ++ (gap' ++ ([CodeUnit.ofBasic '"'] ++ rest))) := by
      refine afterBlanks_iff.mpr ⟨gap, hgap, rfl, fun c hc => ?_⟩
      rw [← Option.some.inj hc]
      decide
    have hquote : afterBlanks? (gap' ++ ([CodeUnit.ofBasic '"'] ++ rest)) =
        some ([CodeUnit.ofBasic '"'] ++ rest) := by
      refine afterBlanks_iff.mpr ⟨gap', hgap', rfl, fun c hc => ?_⟩
      rw [← Option.some.inj hc]
      decide
    have hrest : after? "\"" ([CodeUnit.ofBasic '"'] ++ rest) = some rest := after_iff.mpr rfl
    unfold headerStart?
    simp only [htake, hempty, Bool.false_eq_true, if_false]
    simp only [List.append_assoc, List.drop_left]
    simp only [hmark, hquote, hrest, after_iff.mpr rfl, Option.bind_eq_bind, Option.bind_some]
    rfl

theorem headerStart_suffix {line start rest : Text} (h : headerStart? line = some (start, rest)) :
    rest <:+ line := by
  obtain ⟨-, gap, gap', -, -, rfl⟩ := headerStart_iff.mp h
  exact List.suffix_append _ rest

/-- A text is read up to the next quote. -/
theorem takeWhile_quote {path : Text} (hquote : CodeUnit.ofBasic '"' ∉ path) (behind : Text) :
    (path ++ CodeUnit.ofBasic '"' :: behind).takeWhile (· ≠ CodeUnit.ofBasic '"') = path := by
  refine (Text.span_append (fun c hc => decide_eq_true ?_) fun c hc => ?_).1
  · rintro rfl
    exact hquote hc
  · rw [← Option.some.inj hc]
    exact decide_eq_false fun hne => hne rfl

/-- What is read behind the path. -/
theorem stop_iff {behind : Text} {stop : Option Text} :
    (¬ (behind.dropWhile CodeUnit.isBlank).any CodeUnit.isBlank = true ∧
      (if (behind.dropWhile CodeUnit.isBlank).isEmpty then none
        else some (behind.dropWhile CodeUnit.isBlank)) = stop) ↔
      (∀ w ∈ stop, IsWord w) ∧
        ∃ blanks : Text, (∀ c ∈ blanks, c.isBlank = true) ∧ behind = blanks ++ stop.getD [] := by
  constructor
  · rintro ⟨hblanks, rfl⟩
    have hword : ∀ c ∈ behind.dropWhile CodeUnit.isBlank, c.isBlank = false := fun c hc =>
      Bool.eq_false_iff.mpr fun hblank => hblanks (List.any_eq_true.mpr ⟨c, hc, hblank⟩)
    refine ⟨fun w hw => ?_, behind.takeWhile CodeUnit.isBlank,
      fun c => List.mem_takeWhile_imp, ?_⟩
    · obtain ⟨hne, hsome⟩ := Option.ite_none_left_eq_some.mp hw
      rw [← Option.some.inj hsome]
      exact ⟨fun hnil => hne (List.isEmpty_iff.mpr hnil), hword⟩
    · split
      · rename_i hnil
        have hsplit := List.takeWhile_append_dropWhile (p := CodeUnit.isBlank) (l := behind)
        rw [List.isEmpty_iff.mp hnil] at hsplit
        exact hsplit.symm
      · exact List.takeWhile_append_dropWhile.symm
  · rintro ⟨hstop, blanks, hblanks, rfl⟩
    have hdrop : (blanks ++ stop.getD []).dropWhile CodeUnit.isBlank = stop.getD [] := by
      refine (Text.span_append hblanks ?_).2
      cases stop with
      | none => exact nofun
      | some w => exact fun c hc => (hstop w rfl).2 c (List.mem_of_mem_head? hc)
    rw [hdrop]
    cases stop with
    | none => exact ⟨nofun, rfl⟩
    | some w =>
        obtain ⟨hne, hword⟩ := hstop w rfl
        refine ⟨fun hany => ?_, if_neg fun hnil => hne (List.isEmpty_iff.mp hnil)⟩
        obtain ⟨c, hc, hblank⟩ := List.any_eq_true.mp hany
        rw [hword c hc] at hblank
        cases hblank

variable {line front path : Text} {h : Header}

theorem Heads.headerStart (hh : Heads line h front path) :
    ∃ behind, line = front ++ (path ++ CodeUnit.ofBasic '"' :: behind) ∧
      headerStart? line = some (h.start, path ++ CodeUnit.ofBasic '"' :: behind) ∧
      ∃ blanks : Text, (∀ c ∈ blanks, c.isBlank = true) ∧ behind = blanks ++ h.stop.getD [] := by
  obtain ⟨gap, gap', hgap, hgap', hfront⟩ := hh.front_eq
  obtain ⟨blanks, hblanks, hline⟩ := hh.line_eq
  rw [List.append_assoc] at hline
  refine ⟨blanks ++ h.stop.getD [], hline, ?_, blanks, hblanks, rfl⟩
  exact headerStart_iff.mpr ⟨hh.start_isWord, gap, gap', hgap, hgap', hfront ▸ hline⟩

/-- **Headers.**  A line is read as a header just when it is written as one. -/
theorem headerOfLine_iff : headerOfLine? line = some h ↔ ∃ front path, Heads line h front path := by
  constructor
  · intro hh
    unfold headerOfLine? at hh
    obtain ⟨⟨start, rest⟩, hstart, hh⟩ := Option.bind_eq_some_iff.mp hh
    simp only at hh
    obtain ⟨hpath, hh⟩ := Option.ite_none_left_eq_some.mp hh
    obtain ⟨behind, hbehind, hh⟩ := Option.bind_eq_some_iff.mp hh
    obtain ⟨hstop, hh⟩ := Option.ite_none_left_eq_some.mp hh
    obtain ⟨hword, gap, gap', hgap, hgap', hline⟩ := headerStart_iff.mp hstart
    have hrest := List.prefix_iff_eq_append.mp
      (List.takeWhile_prefix (l := rest) fun c => decide (c ≠ CodeUnit.ofBasic '"'))
    rw [after_iff.mp hbehind] at hrest
    have hh := Option.some.inj hh
    obtain ⟨hwords, blanks, hblanks, hbehind'⟩ := stop_iff.mp ⟨hstop, congrArg Header.stop hh⟩
    refine ⟨_, rest.takeWhile (· ≠ CodeUnit.ofBasic '"'), ?_, ⟨gap, gap', hgap, hgap', rfl⟩,
      fun hnil => hpath (List.isEmpty_iff.mpr hnil), fun hquote => ?_, hwords, blanks, hblanks, ?_⟩
    · rw [← hh]
      exact hword
    · simpa using List.mem_takeWhile_imp hquote
    · rw [← hbehind', List.append_assoc, ← hh, hline]
      exact congrArg _ hrest.symm
  · rintro ⟨front, path, hh⟩
    obtain ⟨behind, -, hstart, hbehind⟩ := hh.headerStart
    obtain ⟨hstop, heq⟩ := stop_iff.mpr ⟨hh.stop_isWord, hbehind⟩
    have hempty : ¬ path.isEmpty = true := fun hnil => hh.path_ne_nil (List.isEmpty_iff.mp hnil)
    have hafter : after? "\"" (CodeUnit.ofBasic '"' :: behind) = some behind := after_iff.mpr rfl
    unfold headerOfLine?
    rw [hstart]
    simp only [Option.bind_eq_bind, Option.bind_some, takeWhile_quote hh.quote_notMem behind,
      List.drop_left, if_neg hempty, hafter, if_neg hstop, heq]
    rfl

/-- No line is written as a header in two ways. -/
theorem Heads.unique {front' path' : Text} (hh : Heads line h front path)
    (hh' : Heads line h front' path') : front' = front ∧ path' = path := by
  obtain ⟨behind, hline, hstart, -⟩ := hh.headerStart
  obtain ⟨behind', hline', hstart', -⟩ := hh'.headerStart
  have hrest := (Prod.mk.inj (Option.some.inj (hstart.symm.trans hstart'))).2
  rw [hrest] at hline
  have hfront := List.append_cancel_right (hline.symm.trans hline')
  have hpath := congrArg (List.takeWhile (· ≠ CodeUnit.ofBasic '"')) hrest
  rw [takeWhile_quote hh.quote_notMem, takeWhile_quote hh'.quote_notMem] at hpath
  exact ⟨hfront.symm, hpath.symm⟩

theorem headerOfLine_start (hh : headerOfLine? line = some h) : IsWord h.start := by
  obtain ⟨front, path, hh⟩ := headerOfLine_iff.mp hh
  exact hh.start_isWord

/-- The first line of a text with a header is written as one. -/
theorem exists_heads {t : Text} (hheader : header? t = some h) :
    ∃ front path, Heads (firstLine t) h front path :=
  headerOfLine_iff.mp (Option.ite_none_left_eq_some.mp hheader).2

end SyntaxTest
end Scopewright
