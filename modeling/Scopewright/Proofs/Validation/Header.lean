import Scopewright.Proofs.SyntaxTest.Header
import Scopewright.Proofs.SyntaxTest.Lines
import Scopewright.Proofs.Validation.Checks

/-! # The syntax that a header names

The syntax of a test is looked for as the first text between quotes (`FirstQuoted`,
`quotedText_iff`).  It is the path in the header exactly when the comment token has no quote; a
token with one has the search end in the token or right behind it (`FirstQuoted.le_start`).  So what is
told about the syntax is right for a token without quotes, and for one with quotes only when there is
nothing to tell (`unknownSyntax_told_iff`). -/

namespace Scopewright
namespace Validation

open SyntaxTest (Header Heads IsGap header?)

/-! ### The first text between quotes -/

/-- The first text between quotes that is not empty: no quote stands before those that end with the
opening one. -/
def FirstQuoted (s : Text) (k : ℕ) (q : Text) : Prop :=
  ∃ before n after, s = before ++ (List.replicate (n + 1) (CodeUnit.ofBasic '"') ++
      (q ++ CodeUnit.ofBasic '"' :: after)) ∧
    CodeUnit.ofBasic '"' ∉ before ∧ q ≠ [] ∧ CodeUnit.ofBasic '"' ∉ q ∧ k = before.length + n + 1

variable {s q : Text} {k : ℕ}

/-- What stands in front of the next quote. -/
def beforeQuote (s : Text) : Text := s.takeWhile (· ≠ CodeUnit.ofBasic '"')

theorem beforeQuote_append {w : Text} (hw : CodeUnit.ofBasic '"' ∉ w) (behind : Text) :
    beforeQuote (w ++ CodeUnit.ofBasic '"' :: behind) = w := SyntaxTest.takeWhile_quote hw behind

theorem exists_beforeQuote (h : (beforeQuote s).length < s.length) :
    ∃ behind, s = beforeQuote s ++ CodeUnit.ofBasic '"' :: behind := by
  have hsplit := List.takeWhile_append_dropWhile (p := (· ≠ CodeUnit.ofBasic '"')) (l := s)
  cases hdrop : s.dropWhile (· ≠ CodeUnit.ofBasic '"') with
  | nil =>
      rw [hdrop, List.append_nil] at hsplit
      rw [beforeQuote, hsplit] at h
      exact absurd h (Nat.lt_irrefl _)
  | cons c behind =>
      have hc := Text.head_dropWhile (· ≠ CodeUnit.ofBasic '"') s c (by rw [hdrop]; rfl)
      rw [hdrop] at hsplit
      refine ⟨behind, hsplit.symm.trans ?_⟩
      rw [show c = CodeUnit.ofBasic '"' by simpa using hc, beforeQuote]

theorem beforeQuote_ne_nil_iff {c : CodeUnit} :
    beforeQuote (c :: s) ≠ [] ↔ c ≠ CodeUnit.ofBasic '"' := by
  by_cases hc : c = CodeUnit.ofBasic '"'
  · rw [beforeQuote, List.takeWhile_cons_of_neg (by simpa using hc)]
    exact iff_of_false (fun h => h rfl) (fun h => h hc)
  · rw [beforeQuote, List.takeWhile_cons_of_pos (by simpa using hc)]
    exact iff_of_true (List.cons_ne_nil _ _) hc

/-- The search stands at a quote that opens a text, or it goes on behind the first unit. -/
theorem firstQuoted_cons_iff {c : CodeUnit} :
    FirstQuoted (c :: s) k q ↔
      if c = CodeUnit.ofBasic '"' ∧ beforeQuote s ≠ [] ∧ (beforeQuote s).length < s.length then
        k = 1 ∧ q = beforeQuote s
      else ∃ j, k = j + 1 ∧ FirstQuoted s j q := by
  constructor
  · rintro ⟨before, n, after, hs, hbefore, hq, hquote, rfl⟩
    match before, n with
    | b :: before, n =>
        obtain ⟨rfl, rfl⟩ := List.cons.inj hs
        obtain ⟨hc, hbefore⟩ := not_or.mp (List.mem_cons.not.mp hbefore)
        rw [if_neg fun h => hc h.1.symm]
        refine ⟨before.length + n + 1, ?_, before, n, after, rfl, hbefore, hq, hquote, rfl⟩
        rw [List.length_cons]
        omega
    | [], 0 =>
        obtain ⟨rfl, htail⟩ := List.cons.inj hs
        have htail : s = q ++ CodeUnit.ofBasic '"' :: after := htail
        have hlength : q.length < s.length := by
          rw [htail, List.length_append]
          exact Nat.lt_add_of_pos_right (Nat.zero_lt_succ _)
        have hbody : beforeQuote s = q := htail ▸ beforeQuote_append hquote after
        rw [hbody, if_pos ⟨rfl, hq, hlength⟩]
        exact ⟨rfl, rfl⟩
    | [], n + 1 =>
        obtain ⟨rfl, rfl⟩ := List.cons.inj hs
        rw [if_neg fun h => beforeQuote_ne_nil_iff.mp h.2.1 rfl]
        refine ⟨n + 1, ?_, [], n, after, rfl, hbefore, hq, hquote, ?_⟩
        · simp
        · simp
  · split
    · rename_i hopen
      obtain ⟨rfl, hne, hlt⟩ := hopen
      rintro ⟨rfl, rfl⟩
      obtain ⟨behind, hs⟩ := exists_beforeQuote hlt
      refine ⟨[], 0, behind, congrArg (_ :: ·) hs, nofun, hne, fun hquote => ?_, rfl⟩
      simpa using List.mem_takeWhile_imp hquote
    · rename_i hopen
      rintro ⟨j, rfl, before, n, after, hs, hbefore, hq, hquote, rfl⟩
      by_cases hc : c = CodeUnit.ofBasic '"'
      · subst hc
        match before with
        | [] =>
            refine ⟨[], n + 1, after, congrArg (_ :: ·) hs, hbefore, hq, hquote, ?_⟩
            simp
        | b :: before =>
            -- text stands up to the next quote, so the search would have ended here
            have hb : b ≠ CodeUnit.ofBasic '"' := fun h => hbefore (h ▸ List.mem_cons_self)
            refine absurd ⟨rfl, ?_, ?_⟩ hopen
            · rw [hs]
              exact beforeQuote_ne_nil_iff.mpr hb
            · have hs' : s = b :: before ++ CodeUnit.ofBasic '"' ::
                  (List.replicate n (CodeUnit.ofBasic '"') ++
                    (q ++ CodeUnit.ofBasic '"' :: after)) := hs
              rw [hs', beforeQuote_append hbefore, List.length_append]
              exact Nat.lt_add_of_pos_right (Nat.zero_lt_succ _)
      · refine ⟨c :: before, n, after, congrArg (c :: ·) hs, ?_, hq, hquote, ?_⟩
        · exact List.mem_cons.not.mpr (not_or.mpr ⟨fun h => hc h.symm, hbefore⟩)
        · rw [List.length_cons]
          omega

theorem quotedText_cons (offset : ℕ) (c : CodeUnit) (s : Text) :
    quotedText? offset (c :: s) =
      if c = CodeUnit.ofBasic '"' ∧ beforeQuote s ≠ [] ∧ (beforeQuote s).length < s.length then
        some (offset + 1, beforeQuote s)
      else quotedText? (offset + 1) s := by
  simp only [quotedText?, Bool.not_eq_true', List.isEmpty_eq_false_iff]
  rfl

/-- The search finds the first text between quotes. -/
theorem quotedText_iff {offset : ℕ} :
    quotedText? offset s = some (k, q) ↔ ∃ j, k = offset + j ∧ FirstQuoted s j q := by
  induction s generalizing offset k with
  | nil =>
      refine iff_of_false nofun ?_
      rintro ⟨j, -, before, n, after, hs, -⟩
      simp [List.replicate_succ] at hs
  | cons c s ih =>
      simp only [firstQuoted_cons_iff]
      rw [quotedText_cons]
      split
      · rw [Option.some.injEq, Prod.mk.injEq]
        constructor
        · rintro ⟨rfl, rfl⟩
          exact ⟨1, rfl, rfl, rfl⟩
        · rintro ⟨j, rfl, rfl, rfl⟩
          exact ⟨rfl, rfl⟩
      · rw [ih]
        constructor
        · rintro ⟨j, rfl, hj⟩
          exact ⟨j + 1, by omega, j, rfl, hj⟩
        · rintro ⟨_, rfl, j, rfl, hj⟩
          exact ⟨j, by omega, hj⟩

theorem quotedText_zero_iff : quotedText? 0 s = some (k, q) ↔ FirstQuoted s k q := by
  rw [quotedText_iff]
  constructor
  · rintro ⟨j, rfl, h⟩
    rwa [Nat.zero_add]
  · exact fun h => ⟨k, (Nat.zero_add k).symm, h⟩

namespace FirstQuoted

theorem unique {k' : ℕ} {q' : Text} (h : FirstQuoted s k q) (h' : FirstQuoted s k' q') :
    k' = k ∧ q' = q := by
  rw [← quotedText_zero_iff] at h h'
  exact Prod.mk.inj (Option.some.inj (h'.symm.trans h))

/-- What follows the text does not matter. -/
theorem append (h : FirstQuoted s k q) (rest : Text) : FirstQuoted (s ++ rest) k q := by
  obtain ⟨before, n, after, rfl, hbefore, hq⟩ := h
  refine ⟨before, n, after ++ rest, ?_, hbefore, hq⟩
  simp only [List.append_assoc, List.cons_append]

theorem le_length (h : FirstQuoted s k q) : k + q.length ≤ s.length := by
  obtain ⟨before, n, after, rfl, -, -, -, rfl⟩ := h
  simp only [List.length_append, List.length_replicate, List.length_cons]
  omega

/-- When a quote stands in the front of a text, which ends with no quote, the search ends in the front
or right behind it. -/
theorem le_front {front behind : Text} {c : CodeUnit} (h : FirstQuoted (front ++ c :: behind) k q)
    (hfront : CodeUnit.ofBasic '"' ∈ front) (hc : c ≠ CodeUnit.ofBasic '"') : k ≤ front.length := by
  obtain ⟨before, n, after, hs, hbefore, -, -, rfl⟩ := h
  by_contra hlt
  have hle : before.length ≤ front.length := by
    by_contra hle
    have hinside : front <+: before := by
      refine List.prefix_of_prefix_length_le (List.prefix_append front (c :: behind)) ?_ (by omega)
      rw [hs]
      exact List.prefix_append _ _
    exact hbefore (hinside.subset hfront)
  -- the run of quotes in front of the text would reach over the unit behind the front
  have hat : (front ++ c :: behind)[front.length]? = some c := by simp
  rw [hs, List.getElem?_append_right hle, List.getElem?_append_left (by simp; omega),
    List.getElem?_replicate, if_pos (by omega)] at hat
  exact hc (Option.some.inj hat).symm

end FirstQuoted

theorem exists_firstQuoted {path : Text} (hne : path ≠ []) (hquote : CodeUnit.ofBasic '"' ∉ path)
    (front behind : Text) :
    ∃ k q, FirstQuoted (front ++ CodeUnit.ofBasic '"' :: (path ++ CodeUnit.ofBasic '"' :: behind))
      k q := by
  induction front with
  | nil => exact ⟨1, path, [], 0, behind, rfl, nofun, hne, hquote, rfl⟩
  | cons c front ih =>
      obtain ⟨k, q, h⟩ := ih
      simp only [List.cons_append, firstQuoted_cons_iff]
      split
      · exact ⟨_, _, rfl, rfl⟩
      · exact ⟨k + 1, q, k, rfl, h⟩

/-! ### The header -/

theorem firstLine_isPrefix (t : Text) : SyntaxTest.firstLine t <+: Text.lineOf t := by
  rw [SyntaxTest.firstLine, ← Text.lineOf]
  split
  · exact List.dropLast_prefix _
  · exact List.prefix_refl _

variable {t : Text} {r : Registry} {h : Header} {line front path : Text}

/-- Where the comment token has no quote the first text between quotes is the path. -/
theorem firstQuoted_path (hh : Heads line h front path)
    (hstart : CodeUnit.ofBasic '"' ∉ h.start) : FirstQuoted line front.length path := by
  obtain ⟨gap, gap', hgap, hgap', hfront⟩ := hh.front_eq
  obtain ⟨behind, hline, -⟩ := hh.headerStart
  have hblank {gap : Text} (hgap : IsGap gap) : CodeUnit.ofBasic '"' ∉ gap := fun hquote =>
    absurd (hgap.2 _ hquote) (by decide)
  have hmark : CodeUnit.ofBasic '"' ∉ SyntaxTest.headerMark := by decide
  refine ⟨h.start ++ gap ++ SyntaxTest.headerMark ++ gap', 0, behind, ?_, ?_, hh.path_ne_nil,
    hh.quote_notMem, ?_⟩
  · rw [hline, hfront, List.append_assoc _ [CodeUnit.ofBasic '"']]
    rfl
  · simp only [List.mem_append, not_or]
    exact ⟨⟨⟨hstart, hblank hgap⟩, hmark⟩, hblank hgap'⟩
  · rw [hfront, List.length_append]
    rfl

/-- A comment token with a quote has the first text between quotes begin in the token or right behind
it. -/
theorem FirstQuoted.le_start (hq : FirstQuoted line k q) (hh : Heads line h front path)
    (hstart : CodeUnit.ofBasic '"' ∈ h.start) : k ≤ h.start.length := by
  obtain ⟨gap, gap', hgap, -, hfront⟩ := hh.front_eq
  obtain ⟨behind, hline, -⟩ := hh.headerStart
  obtain ⟨c, gap, rfl⟩ := List.exists_cons_of_ne_nil hgap.1
  have hc : c ≠ CodeUnit.ofBasic '"' := by
    rintro rfl
    exact absurd (hgap.2 _ List.mem_cons_self) (by decide)
  rw [hline, hfront] at hq
  simp only [List.append_assoc, List.cons_append] at hq
  exact hq.le_front hstart hc

theorem start_length_lt (hh : Heads line h front path) : h.start.length < front.length := by
  obtain ⟨gap, gap', -, -, rfl⟩ := hh.front_eq
  simp only [List.length_append, List.length_singleton]
  omega

theorem exists_firstQuoted_of_heads (hh : Heads line h front path) : ∃ k q, FirstQuoted line k q := by
  obtain ⟨gap, gap', -, -, rfl⟩ := hh.front_eq
  obtain ⟨behind, rfl, -⟩ := hh.headerStart
  rw [List.append_assoc _ [CodeUnit.ofBasic '"']]
  exact exists_firstQuoted hh.path_ne_nil hh.quote_notMem _ behind

/-- The first text between quotes is the same one in the header and in the whole text. -/
theorem exists_firstQuoted_header (hheader : header? t = some h) :
    ∃ k q, FirstQuoted (SyntaxTest.firstLine t) k q ∧ FirstQuoted t k q ∧
      k + q.length ≤ (Text.lineOf t).length := by
  obtain ⟨front, path, hh⟩ := SyntaxTest.exists_heads hheader
  obtain ⟨k, q, hq⟩ := exists_firstQuoted_of_heads hh
  obtain ⟨rest, hrest⟩ := (firstLine_isPrefix t).trans (Text.lineOf_isPrefix t)
  exact ⟨k, q, hq, hrest ▸ hq.append rest, hq.le_length.trans (firstLine_isPrefix t).length_le⟩

/-- What is told about a syntax whose path stands at an offset: nothing when there is one. -/
def syntaxFindings (r : Registry) (k : ℕ) (path : Text) : List Finding :=
  if r.snapshot.hasSyntax path then []
  else [⟨Span.ofLength k path.length, .hint, ("Unknown syntax " : Text) ++ quoted path,
    .invalidValue⟩]

theorem headerFindings_eq (h : FirstQuoted t k q) : headerFindings t r = syntaxFindings r k q := by
  rw [headerFindings, quotedText_zero_iff.mpr h]
  rfl

/-- What is told of two syntaxes at different offsets is the same only when it is nothing. -/
theorem syntaxFindings_eq_iff {k' : ℕ} {q' : Text} (hk : k ≠ k') :
    syntaxFindings r k q = syntaxFindings r k' q' ↔
      r.snapshot.hasSyntax q = true ∧ r.snapshot.hasSyntax q' = true := by
  have hne : (k : ℤ) ≠ k' := Int.ofNat_inj.not.mpr hk
  unfold syntaxFindings
  cases r.snapshot.hasSyntax q with
  | true => cases r.snapshot.hasSyntax q' <;> simp
  | false =>
      cases r.snapshot.hasSyntax q' with
      | true => simp
      | false => simp [Span.ofLength, hne]

/-- What is told about a syntax test: about its header, and about the lines behind it. -/
theorem assertionFindings_eq (hheader : header? t = some h) (hr : r.isEmpty = false) :
    assertionFindings t r =
      headerFindings t r ++ (lineStarts 0 t).flatMap (assertionLineFindings t h r) := by
  rw [assertionFindings, hheader, hr]
  rfl

/-- The finding about the syntax is the one with an invalid value. -/
theorem filter_invalidValue (hheader : header? t = some h) (hr : r.isEmpty = false) :
    (assertionFindings t r).filter (fun f => decide (f.code = .invalidValue)) =
      headerFindings t r := by
  rw [assertionFindings_eq hheader hr, List.filter_append, List.filter_eq_self.mpr,
    List.filter_eq_nil_iff.mpr, List.append_nil]
  · intro f hf
    obtain ⟨_, _, hf⟩ := List.mem_flatMap.mp hf
    rw [code_assertionLineFindings hf]
    decide
  · exact fun f hf => decide_eq_true (code_headerFindings hf)

/-- **The syntax under test.**  A header names one syntax, at one place.  The one that is looked up
is the first text between quotes: the same one at the same place when the comment token has no quote,
and else another one, which begins in the comment token or right behind it.  So an unknown syntax is told
as it should be if and only if the comment token has no quote or both texts are paths of
syntaxes. -/
theorem unknownSyntax_told_iff (hheader : header? t = some h) (hr : r.isEmpty = false) :
    ∃ front path k q, Heads (SyntaxTest.firstLine t) h front path ∧
      (∀ front' path', Heads (SyntaxTest.firstLine t) h front' path' →
        front' = front ∧ path' = path) ∧
      FirstQuoted (SyntaxTest.firstLine t) k q ∧
      (assertionFindings t r).filter (fun f => decide (f.code = .invalidValue)) =
        syntaxFindings r k q ∧
      (if CodeUnit.ofBasic '"' ∈ h.start then k ≤ h.start.length ∧ h.start.length < front.length
        else k = front.length ∧ q = path) ∧
      ((assertionFindings t r).filter (fun f => decide (f.code = .invalidValue)) =
          syntaxFindings r front.length path ↔
        (CodeUnit.ofBasic '"' ∈ h.start →
          r.snapshot.hasSyntax path = true ∧ r.snapshot.hasSyntax q = true)) := by
  obtain ⟨front, path, hh⟩ := SyntaxTest.exists_heads hheader
  obtain ⟨k, q, hq, hwhole, -⟩ := exists_firstQuoted_header hheader
  have htold : (assertionFindings t r).filter (fun f => decide (f.code = .invalidValue)) =
      syntaxFindings r k q := by
    rw [filter_invalidValue hheader hr, headerFindings_eq hwhole]
  refine ⟨front, path, k, q, hh, fun _ _ => hh.unique, hq, htold, ?_, ?_⟩
  · split
    · rename_i hstart
      exact ⟨hq.le_start hh hstart, start_length_lt hh⟩
    · rename_i hstart
      exact (firstQuoted_path hh hstart).unique hq
  · rw [htold]
    by_cases hstart : CodeUnit.ofBasic '"' ∈ h.start
    · have hk : k ≠ front.length :=
        Nat.ne_of_lt ((hq.le_start hh hstart).trans_lt (start_length_lt hh))
      rw [syntaxFindings_eq_iff hk, and_comm]
      exact ⟨fun hboth _ => hboth, fun hboth => hboth hstart⟩
    · obtain ⟨rfl, rfl⟩ := (firstQuoted_path hh hstart).unique hq
      exact iff_of_true rfl fun hquote => absurd hquote hstart

/-- The unknown syntax of a test in comments that begin with a number sign is told at its path. -/
theorem unknownSyntax_told_hash :
    let t : Text := "# SYNTAX TEST \"b\"\n"
    let h : Header := ⟨"#", none⟩
    let r := Registry.after [.replace "A" [⟨"a.sublime-syntax", "A", "scope: a"⟩]]
    header? t = some h ∧ r.isEmpty = false ∧
      Heads (SyntaxTest.firstLine t) h "# SYNTAX TEST \"" "b" ∧
      (assertionFindings t r).filter (fun f => decide (f.code = .invalidValue)) =
        [⟨⟨15, 16⟩, .hint, "Unknown syntax 'b'", .invalidValue⟩] := by
  intro t h r
  have hheader : header? t = some h := by decide
  have hr : r.isEmpty = false := by decide +kernel
  have hh : Heads (SyntaxTest.firstLine t) h "# SYNTAX TEST \"" "b" :=
    ⟨by decide, ⟨" ", " ", by decide, by decide, by decide⟩, by decide, by decide, nofun,
      [], nofun, by decide⟩
  obtain ⟨front, path, k, q, -, hunique, -, -, -, hiff⟩ := unknownSyntax_told_iff hheader hr
  obtain ⟨rfl, rfl⟩ := hunique _ _ hh
  refine ⟨hheader, hr, hh, (hiff.mpr fun hquote => ?_).trans (by decide +kernel)⟩
  exact absurd hquote (by decide)

/-- Where comments begin with a quote, what stands between the comment token and the path is told as an
unknown syntax, though there is a syntax with that path. -/
theorem unknownSyntax_told_quote :
    let t : Text := "\" SYNTAX TEST \"a.sublime-syntax\"\n"
    let h : Header := ⟨"\"", none⟩
    let r := Registry.after [.replace "A" [⟨"a.sublime-syntax", "A", "scope: a"⟩]]
    header? t = some h ∧ r.isEmpty = false ∧
      Heads (SyntaxTest.firstLine t) h "\" SYNTAX TEST \"" "a.sublime-syntax" ∧
      r.snapshot.hasSyntax "a.sublime-syntax" = true ∧
      (assertionFindings t r).filter (fun f => decide (f.code = .invalidValue)) =
        [⟨⟨1, 14⟩, .hint, "Unknown syntax ' SYNTAX TEST '", .invalidValue⟩] := by
  refine ⟨by decide, by decide +kernel, ?_, by decide +kernel, by decide +kernel⟩
  exact ⟨by decide, ⟨" ", " ", by decide, by decide, by decide⟩, by decide, by decide, nofun,
    [], nofun, by decide⟩

end Validation
end Scopewright
