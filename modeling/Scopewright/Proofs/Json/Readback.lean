import Scopewright.Proofs.Json.Quoted

/-! # What an escaped text reads back as

A body is read in three passes, and the first one takes escapes by number wherever it finds them, also
behind a backslash that is itself escaped.  So a text comes back changed when it has such an escape in
it (`Quoted.SpellsNumber`): the escape is read, together with the backslash that it begins with
(`Quoted.readLetters_readNumbers`).  The last pass removes a backslash at the end of the text.  Every
other text comes back as it is (`Quoted.unescape_escape_eq_iff`). -/

namespace Scopewright
namespace Json
namespace Quoted

/-! ### Escapes by number -/

/-- The unit of an escape by number whose backslash has been read, and what stands behind it. -/
def number? : Text → Option (CodeUnit × Text)
  | u :: h₁ :: h₂ :: h₃ :: h₄ :: r =>
    if u = 'u' ∧ [h₁, h₂, h₃, h₄].all CodeUnit.isHexDigit then
      some (.ofNat (Text.natValue [h₁, h₂, h₃, h₄] 16), r)
    else none
  | _ => none

/-- Replaces the escapes by number, each of them by a text for its unit. -/
def replaceNumbers (f : CodeUnit → Text) : Text → Text
  | a :: u :: h₁ :: h₂ :: h₃ :: h₄ :: r =>
    if a = backslash ∧ u = 'u' ∧ [h₁, h₂, h₃, h₄].all CodeUnit.isHexDigit then
      f (.ofNat (Text.natValue [h₁, h₂, h₃, h₄] 16)) ++ replaceNumbers f r
    else a :: replaceNumbers f (u :: h₁ :: h₂ :: h₃ :: h₄ :: r)
  | t => t

/-- An escape by number occurs in a text: a backslash, `u` and four digits of base sixteen. -/
def SpellsNumber (t : Text) : Prop :=
  ∃ digits : Text, digits.length = 4 ∧ digits.all CodeUnit.isHexDigit = true ∧
    (backslash :: ('u' : CodeUnit) :: digits) <:+: t

theorem readNumbers_eq (t : Text) : readNumbers t = replaceNumbers (fun c => [c]) t := by
  fun_induction readNumbers t with
  | case1 a u h₁ h₂ h₃ h₄ r h ih => rw [replaceNumbers, if_pos h, ih, List.singleton_append]
  | case2 a u h₁ h₂ h₃ h₄ r h ih => rw [replaceNumbers, if_neg h, ih]
  | case3 t h =>
      rw [replaceNumbers]
      exact h

theorem number?_eq_some {t r : Text} {d : CodeUnit} (h : number? t = some (d, r)) :
    ∃ digits : Text, digits.length = 4 ∧ digits.all CodeUnit.isHexDigit = true ∧
      t = ('u' : CodeUnit) :: (digits ++ r) ∧ d = .ofNat (Text.natValue digits 16) := by
  unfold number? at h
  split at h
  · rename_i u h₁ h₂ h₃ h₄ s
    split at h
    · rename_i hu
      obtain ⟨rfl, rfl⟩ := Prod.mk.inj (Option.some.inj h)
      exact ⟨[h₁, h₂, h₃, h₄], rfl, hu.2, by rw [hu.1]; rfl, rfl⟩
    · cases h
  · cases h

theorem number?_digits {digits : Text} (hlength : digits.length = 4)
    (hdigits : digits.all CodeUnit.isHexDigit = true) (r : Text) :
    number? (('u' : CodeUnit) :: (digits ++ r)) = some (.ofNat (Text.natValue digits 16), r) := by
  match digits, hlength with
  | [h₁, h₂, h₃, h₄], _ => exact if_pos ⟨rfl, hdigits⟩

variable {f : CodeUnit → Text}

theorem replaceNumbers_cons {c : CodeUnit} (h : c ≠ backslash) (s : Text) :
    replaceNumbers f (c :: s) = c :: replaceNumbers f s := by
  match s with
  | [] | [_] | [_, _] | [_, _, _] | [_, _, _, _] => rfl
  | u :: h₁ :: h₂ :: h₃ :: h₄ :: r =>
      rw [replaceNumbers, if_neg fun hc => h hc.1]

theorem replaceNumbers_number {s r : Text} {d : CodeUnit} (h : number? s = some (d, r)) :
    replaceNumbers f (backslash :: s) = f d ++ replaceNumbers f r := by
  obtain ⟨digits, hlength, hdigits, rfl, rfl⟩ := number?_eq_some h
  match digits, hlength with
  | [h₁, h₂, h₃, h₄], _ => exact if_pos ⟨rfl, rfl, hdigits⟩

theorem replaceNumbers_of_none {s : Text} (h : number? s = none) :
    replaceNumbers f (backslash :: s) = backslash :: replaceNumbers f s := by
  match s with
  | [] | [_] | [_, _] | [_, _, _] | [_, _, _, _] => rfl
  | u :: h₁ :: h₂ :: h₃ :: h₄ :: r =>
      rw [replaceNumbers, if_neg]
      rintro ⟨_, hu⟩
      rw [number?, if_pos hu] at h
      cases h

/-! ### Texts that spell an escape by number -/

theorem spellsNumber_cons_iff {c : CodeUnit} {t : Text} : SpellsNumber (c :: t) ↔
    (c = backslash ∧ (number? t).isSome) ∨ SpellsNumber t := by
  simp only [SpellsNumber, List.infix_cons_iff, List.cons_prefix_cons]
  constructor
  · rintro ⟨digits, hlength, hdigits, ⟨hc, s, hs⟩ | hin⟩
    · rw [List.cons_append] at hs
      exact .inl ⟨hc.symm, by rw [← hs, number?_digits hlength hdigits]; rfl⟩
    · exact .inr ⟨digits, hlength, hdigits, hin⟩
  · rintro (⟨rfl, hsome⟩ | ⟨digits, hlength, hdigits, hin⟩)
    · obtain ⟨⟨d, r⟩, hr⟩ := Option.isSome_iff_exists.mp hsome
      obtain ⟨digits, hlength, hdigits, rfl, _⟩ := number?_eq_some hr
      exact ⟨digits, hlength, hdigits, .inl ⟨rfl, r, rfl⟩⟩
    · exact ⟨digits, hlength, hdigits, .inr hin⟩

theorem replaceNumbers_of_not {t : Text} (h : ¬ SpellsNumber t) : replaceNumbers f t = t := by
  induction t with
  | nil => rfl
  | cons c t ih =>
      rw [spellsNumber_cons_iff, not_or] at h
      by_cases hc : c = backslash
      · have hnone : number? t = none := by
          rw [← Option.not_isSome_iff_eq_none]
          exact fun hsome => h.1 ⟨hc, hsome⟩
        rw [hc, replaceNumbers_of_none hnone, ih h.2]
      · rw [replaceNumbers_cons hc, ih h.2]

/-- Escapes have six units, so a text that has one becomes shorter by replacing it by less. -/
theorem length_replaceNumbers (hf : ∀ c, (f c).length < 6) (t : Text) :
    (replaceNumbers f t).length ≤ t.length ∧
      (SpellsNumber t → (replaceNumbers f t).length < t.length) := by
  induction ht : t.length using Nat.strongRecOn generalizing t with
  | ind n ih =>
    subst ht
    match t with
    | [] =>
        refine ⟨Nat.le_refl _, ?_⟩
        rintro ⟨_, _, _, hin⟩
        exact absurd (List.eq_nil_of_infix_nil hin) (by simp)
    | c :: t =>
      obtain ⟨hle, hlt⟩ := ih t.length (Nat.lt_succ_self _) t rfl
      rw [spellsNumber_cons_iff]
      by_cases hc : c = backslash
      · subst hc
        cases hr : number? t with
        | none =>
            rw [replaceNumbers_of_none hr]
            simpa using ⟨hle, hlt⟩
        | some dr =>
            obtain ⟨d, r⟩ := dr
            obtain ⟨digits, hlength, _, rfl, _⟩ := number?_eq_some hr
            have hd := hf d
            have hshort : r.length < (backslash :: CodeUnit.ofBasic 'u' :: (digits ++ r)).length := by
              simp only [List.length_cons, List.length_append]
              omega
            have hrest := (ih r.length hshort r rfl).1
            rw [replaceNumbers_number hr]
            simp only [List.length_cons, List.length_append]
            omega
      · rw [replaceNumbers_cons hc]
        simpa [hc] using ⟨hle, hlt⟩

/-! ### Reading what is written -/

/-- What a unit behind a backslash is read as; the backslash stays in front of the end of a line. -/
def behindBackslash (c : CodeUnit) : Text := if c.endsLine then [backslash, c] else [ofLetter c]

theorem readLetters_cons {c : CodeUnit} (h : c ≠ backslash) (s : Text) :
    readLetters (c :: s) = c :: readLetters s := by
  cases s with
  | nil => rfl
  | cons d s => rw [readLetters, if_neg h]

theorem readLetters_backslash (c : CodeUnit) (s : Text) :
    readLetters (backslash :: c :: s) = behindBackslash c ++ readLetters s := by
  rw [readLetters, if_pos rfl, behindBackslash]
  split
  · rename_i hc
    have hne : c ≠ backslash := by
      rintro rfl
      revert hc
      decide
    rw [readLetters_cons hne]
    rfl
  · rfl

theorem escapeUnit_of_isWord {c : CodeUnit} (h : c.isWord = true) : escapeUnit c = [c] := by
  have hquote : c ≠ quote := CodeUnit.ne_of_isWord h (by decide)
  have hback : c ≠ backslash := CodeUnit.ne_of_isWord h (by decide)
  have hfeed : c ≠ '\n' := CodeUnit.ne_of_isWord h (by decide)
  have hreturn : c ≠ '\r' := CodeUnit.ne_of_isWord h (by decide)
  have htab : c ≠ '\t' := CodeUnit.ne_of_isWord h (by decide)
  rw [CodeUnit.isWord_iff] at h
  have hlead : (CodeUnit.ofNat 0xD800).toNat = 0xD800 := rfl
  have htrail : (CodeUnit.ofNat 0xDC00).toNat = 0xDC00 := rfl
  rw [escapeUnit, if_neg hquote, if_neg hback, if_neg hfeed, if_neg hreturn, if_neg htab,
    if_neg (by omega), if_neg (by omega), if_neg]
  simp only [CodeUnit.isLeadSurrogate, CodeUnit.isTrailSurrogate, CodeUnit.within_iff]
  omega

theorem isWord_of_mem_number {digits : Text} (h : digits.all CodeUnit.isHexDigit = true) :
    ∀ c ∈ ('u' : CodeUnit) :: digits, c.isWord = true := by
  intro c hc
  rcases List.mem_cons.mp hc with rfl | hc
  · decide
  · exact CodeUnit.isWord_of_isHexDigit (List.all_eq_true.mp h c hc)

/-- A word is written as it is. -/
theorem spells_append {w : Text} (hw : ∀ c ∈ w, c.isWord = true) {r s : Text}
    (h : Text.Spells Piece (w ++ r) s) : ∃ s', s = w ++ s' ∧ Text.Spells Piece r s' := by
  induction w generalizing s with
  | nil => exact ⟨s, rfl, h⟩
  | cons c w ih =>
      have hc := escapeUnit_of_isWord (hw c List.mem_cons_self)
      cases h with
      | @cons _ p _ s hp ht =>
          have hpiece : p = [c] := by
            rcases hp with hp | hp
            · exact hp.trans hc
            · exact hp.1
          obtain ⟨s', rfl, hs⟩ := ih (fun d hd => hw d (List.mem_cons_of_mem c hd)) ht
          exact ⟨s', by rw [hpiece]; rfl, hs⟩

/-- A word in what is written stands for itself. -/
theorem spells_of_append {w : Text} (hw : ∀ c ∈ w, c.isWord = true) {r s : Text}
    (h : Text.Spells Piece r (w ++ s)) : ∃ r', r = w ++ r' ∧ Text.Spells Piece r' s := by
  induction w generalizing r with
  | nil => exact ⟨r, rfl, h⟩
  | cons c w ih =>
      have hc : c ≠ backslash := CodeUnit.ne_of_isWord (hw c List.mem_cons_self) (by decide)
      cases r with
      | nil => cases h
      | cons d r =>
          obtain ⟨s', hread, hs⟩ := h.read_cons separates_readUnit?
          rw [List.cons_append, readUnit?_cons hc] at hread
          obtain ⟨rfl, rfl⟩ := Prod.mk.inj (Option.some.inj hread)
          obtain ⟨r', rfl, hr⟩ := ih (fun e he => hw e (List.mem_cons_of_mem c he)) hs
          exact ⟨r', rfl, hr⟩

/-- An escape by number is written behind a backslash exactly when it is one in the text. -/
theorem number?_of_spells {r s : Text} (h : Text.Spells Piece r s) :
    number? s = none ∧ number? r = none ∨
    ∃ d r' s', number? r = some (d, r') ∧ number? s = some (d, s') ∧ Text.Spells Piece r' s' := by
  cases hr : number? r with
  | some dr =>
      obtain ⟨d, r'⟩ := dr
      obtain ⟨digits, hlength, hdigits, rfl, rfl⟩ := number?_eq_some hr
      obtain ⟨s', rfl, hs⟩ := spells_append (isWord_of_mem_number hdigits) (r := r') h
      exact .inr ⟨_, r', s', rfl, number?_digits hlength hdigits s', hs⟩
  | none =>
      refine .inl ⟨?_, rfl⟩
      cases hs : number? s with
      | none => rfl
      | some ds =>
          obtain ⟨d, s'⟩ := ds
          obtain ⟨digits, hlength, hdigits, rfl, _⟩ := number?_eq_some hs
          obtain ⟨r', rfl, _⟩ := spells_of_append (isWord_of_mem_number hdigits) (s := s') h
          rw [List.cons_append, number?_digits hlength hdigits] at hr
          cases hr

theorem number?_byNumber (c : CodeUnit) (s : Text) :
    ∃ r, byNumber c ++ s = backslash :: r ∧ number? r = some (c, s) := by
  have hlt : c.toNat < 65536 := c.code.toNat_lt
  have hdigits : [hexDigit (c.toNat / 4096), hexDigit (c.toNat / 256 % 16),
      hexDigit (c.toNat / 16 % 16), hexDigit (c.toNat % 16)].all CodeUnit.isHexDigit = true := by
    simp only [List.all_cons, List.all_nil, Bool.and_true, Bool.and_eq_true]
    exact ⟨isHexDigit_hexDigit _ (by omega), isHexDigit_hexDigit _ (by omega),
      isHexDigit_hexDigit _ (by omega), isHexDigit_hexDigit _ (by omega)⟩
  have hnumber := number?_digits rfl hdigits s
  rw [natValue_hexDigits, CodeUnit.ofNat_toNat] at hnumber
  exact ⟨_, rfl, hnumber⟩

/-- Only an escape by number begins with `u` behind its backslash. -/
theorem number?_cons_of_ne {c : CodeUnit} (h : c ≠ 'u') (s : Text) : number? (c :: s) = none := by
  cases hs : number? (c :: s) with
  | none => rfl
  | some dr =>
      obtain ⟨_, _, _, heq, _⟩ := number?_eq_some hs
      exact absurd (List.cons.inj heq).1 h

/-- The first two passes undo the piece of a unit that is no backslash. -/
theorem readLetters_readNumbers_piece {c : CodeUnit} (hc : c ≠ backslash) {p : Text}
    (hp : Piece c p) (s : Text) : readLetters (readNumbers (p ++ s)) =
      c :: readLetters (readNumbers s) := by
  simp only [readNumbers_eq]
  have hplain : readLetters (replaceNumbers (fun c => [c]) (c :: s)) =
      c :: readLetters (replaceNumbers (fun c => [c]) s) := by
    rw [replaceNumbers_cons hc, readLetters_cons hc]
  -- an escape by a letter, which is not that of escapes by number
  have hletter : ∀ d : CodeUnit, d ≠ 'u' → d ≠ backslash → behindBackslash d = [c] →
      readLetters (replaceNumbers (fun c => [c]) (backslash :: d :: s)) =
        c :: readLetters (replaceNumbers (fun c => [c]) s) := by
    intro d hu hd hread
    rw [replaceNumbers_of_none (number?_cons_of_ne hu s), replaceNumbers_cons hd,
      readLetters_backslash, hread]
    rfl
  rcases hp with rfl | ⟨rfl, _⟩
  · unfold escapeUnit
    split_ifs with hquote hfeed hreturn htab height htwelve hnumber
    · exact hletter _ (by decide) (by decide) (by rw [hquote]; decide)
    · exact hletter _ (by decide) (by decide) (by rw [hfeed]; decide)
    · exact hletter _ (by decide) (by decide) (by rw [hreturn]; decide)
    · exact hletter _ (by decide) (by decide) (by rw [htab]; decide)
    · exact hletter _ (by decide) (by decide) (by rw [← CodeUnit.ofNat_toNat c, height]; decide)
    · exact hletter _ (by decide) (by decide) (by rw [← CodeUnit.ofNat_toNat c, htwelve]; decide)
    · obtain ⟨r, hr, hnumber⟩ := number?_byNumber c s
      rw [hr, replaceNumbers_number hnumber, List.singleton_append, readLetters_cons hc]
    · exact hplain
  · exact hplain

/-- Of a text that is written, the first two passes read everything back but the escapes by number
that it spells. -/
theorem readLetters_readNumbers {t s : Text} (h : Text.Spells Piece t s) :
    readLetters (readNumbers s) = replaceNumbers behindBackslash t := by
  induction ht : t.length using Nat.strongRecOn generalizing t s with
  | ind n ih =>
    subst ht
    cases h with
    | nil => rfl
    | @cons c p t s hp hs =>
      by_cases hc : c = backslash
      · subst hc
        obtain rfl : p = [backslash, backslash] := by
          rcases hp with hp | hp
          · exact hp
          · exact absurd rfl hp.2
        have hnone : number? (backslash :: s) = none := number?_cons_of_ne (by decide) s
        rw [readNumbers_eq, List.cons_append, List.singleton_append, replaceNumbers_of_none hnone]
        rcases number?_of_spells hs with ⟨hs', ht⟩ | ⟨d, t', s', ht, hs', hspells⟩
        · rw [replaceNumbers_of_none hs', replaceNumbers_of_none ht, readLetters_backslash,
            ← readNumbers_eq, ih t.length (Nat.lt_succ_self _) hs rfl]
          rfl
        · have hlt : t'.length < t.length + 1 := by
            obtain ⟨digits, _, _, rfl, _⟩ := number?_eq_some ht
            simp only [List.length_cons, List.length_append]
            omega
          rw [replaceNumbers_number hs', replaceNumbers_number ht, List.singleton_append,
            readLetters_backslash, ← readNumbers_eq, ih t'.length hlt hspells rfl]
      · rw [readLetters_readNumbers_piece hc hp, replaceNumbers_cons hc,
          ih t.length (Nat.lt_succ_self _) hs rfl]

/-! ### The whole text -/

theorem length_dropOpenEscape_le (t : Text) : (dropOpenEscape t).length ≤ t.length := by
  unfold dropOpenEscape
  split
  · rw [List.length_dropLast]
    omega
  · exact Nat.le_refl _

theorem dropOpenEscape_eq_iff (t : Text) :
    dropOpenEscape t = t ↔ t.getLast? ≠ some backslash := by
  unfold dropOpenEscape
  split
  · rename_i h
    have hne : t ≠ [] := by
      rintro rfl
      cases h
    simp only [h, ne_eq, not_true_eq_false, iff_false]
    intro heq
    have hlength := congrArg List.length heq
    rw [List.length_dropLast] at hlength
    have := List.length_pos_iff.mpr hne
    omega
  · rename_i h
    exact iff_of_true rfl h

theorem length_behindBackslash_lt (c : CodeUnit) : (behindBackslash c).length < 6 := by
  unfold behindBackslash
  split <;> simp

/-- **Reading back.**  An escaped text reads back as the text with its escapes by number read, and
without a backslash at its end.  So it reads back as the text exactly when no escape by number occurs
in the text and it does not end with a backslash. -/
theorem unescape_escape_eq_iff (t : Text) :
    unescape (escape t) = dropOpenEscape (replaceNumbers behindBackslash t) ∧
      (unescape (escape t) = t ↔ ¬ SpellsNumber t ∧ t.getLast? ≠ some backslash) := by
  have hread : unescape (escape t) = dropOpenEscape (replaceNumbers behindBackslash t) := by
    rw [unescape, readLetters_readNumbers (spells_escape t)]
  refine ⟨hread, ?_⟩
  rw [hread]
  by_cases h : SpellsNumber t
  · have hlt := (length_replaceNumbers length_behindBackslash_lt t).2 h
    have hle := length_dropOpenEscape_le (replaceNumbers behindBackslash t)
    refine iff_of_false (fun heq => ?_) fun hn => hn.1 h
    rw [heq] at hle
    omega
  · rw [replaceNumbers_of_not h, dropOpenEscape_eq_iff]
    exact (and_iff_right h).symm

/-- An escape by number is read although its backslash is escaped, and a backslash at the end is
lost. -/
theorem unescape_escape_number :
    unescape (escape "\\u0041") = ("A" : Text) ∧ unescape (escape "\\") = [] ∧
      ¬ ∀ t, unescape (escape t) = t := by
  have hnumber : unescape (escape "\\u0041") = ("A" : Text) := by decide
  refine ⟨hnumber, by decide, fun h => ?_⟩
  rw [h] at hnumber
  revert hnumber
  decide

end Quoted
end Json
end Scopewright
