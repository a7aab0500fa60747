import Mathlib.Data.List.TakeWhile
import Mathlib.Tactic.SplitIfs
import Scopewright.Document.Yaml
import Scopewright.Proofs.Table
import Scopewright.Proofs.Text.Class
import Scopewright.Proofs.Text.Find

/-! # The forms of the core schema

A plain scalar is a string unless it has the form of another value (`Yaml.CoreForm`): a word for
null or for a boolean, digits of a base, a numeral with a sign, a point and an exponent, or a word
for infinity or for what is not a number.  The reader knows just these forms
(`Number.decimal?_isSome_iff`, `Yaml.ofDatum_readPlain_iff`). -/

namespace Scopewright

namespace CodeUnit

/-- The decimal digits among the hexadecimal ones. -/
theorem isHexDigit_and_hexValue (c : CodeUnit) :
    (c.isHexDigit && decide (c.hexValue < 10)) = c.isDigit := by
  cases hc : c.isDigit with
  | true =>
      have hrange : 48 ≤ c.toNat ∧ c.toNat ≤ 57 := within_iff.mp hc
      have hvalue : c.hexValue < 10 := by
        rw [hexValue, if_pos hc]
        omega
      rw [isHexDigit, hc, decide_eq_true hvalue]
      rfl
  | false =>
      rw [Bool.and_eq_false_imp]
      intro hhex
      refine decide_eq_false ?_
      rw [isHexDigit, hc, Bool.false_or, Bool.or_eq_true] at hhex
      rw [hexValue, if_neg (by rw [hc]; exact Bool.false_ne_true)]
      split_ifs with hlower hupper
      · have hrange : 97 ≤ c.toNat ∧ c.toNat ≤ 102 := within_iff.mp hlower
        omega
      · have hrange : 65 ≤ c.toNat ∧ c.toNat ≤ 70 := within_iff.mp hupper
        omega
      · exact absurd hhex (not_or.mpr ⟨hlower, hupper⟩)

end CodeUnit

namespace Number

/-- A sign, or nothing. -/
inductive IsSign : Text → Prop
  | none : IsSign []
  | minus : IsSign "-"
  | plus : IsSign "+"

/-- Digits, or nothing. -/
def IsDigits (t : Text) : Prop := ∀ c ∈ t, c.isDigit = true

/-- An exponent, or nothing. -/
inductive IsExponent : Text → Prop
  | none : IsExponent []
  | marked {mark : CodeUnit} {sign digits : Text}
      (hmark : mark = CodeUnit.ofBasic 'e' ∨ mark = CodeUnit.ofBasic 'E') (hsign : IsSign sign)
      (hdigits : IsDigits digits) (hne : digits ≠ []) : IsExponent (mark :: (sign ++ digits))

/-- A numeral without a sign. -/
inductive IsDecimal : Text → Prop
  | whole {whole exponent : Text} (hwhole : IsDigits whole) (hne : whole ≠ [])
      (hexponent : IsExponent exponent) : IsDecimal (whole ++ exponent)
  | point {whole fraction exponent : Text} (hwhole : IsDigits whole) (hfraction : IsDigits fraction)
      (hne : whole ≠ [] ∨ fraction ≠ []) (hexponent : IsExponent exponent) :
      IsDecimal (whole ++ CodeUnit.ofBasic '.' :: (fraction ++ exponent))

variable {t : Text} {c : CodeUnit}

theorem isDigits_iff : t.all CodeUnit.isDigit = true ↔ IsDigits t := List.all_eq_true

theorem isDigits_takeWhile (t : Text) : IsDigits (t.takeWhile CodeUnit.isDigit) :=
  fun _ hc => List.mem_takeWhile_imp hc

theorem IsExponent.head (h : IsExponent t) :
    ∀ c ∈ t.head?, c.isDigit = false ∧ c ≠ CodeUnit.ofBasic '.' := by
  intro c hc
  cases h with
  | none => cases hc
  | marked hmark _ _ _ =>
      cases hc
      rcases hmark with rfl | rfl <;> exact ⟨rfl, by decide⟩

/-- A numeral begins with a digit or a point. -/
theorem IsDecimal.head (h : IsDecimal t) :
    ∃ c, t.head? = some c ∧ (c.isDigit = true ∨ c = CodeUnit.ofBasic '.') := by
  cases h with
  | @whole whole exponent hwhole hne =>
      obtain ⟨c, r, rfl⟩ := List.exists_cons_of_ne_nil hne
      exact ⟨c, rfl, .inl (hwhole c List.mem_cons_self)⟩
  | @point whole fraction exponent hwhole =>
      cases whole with
      | nil => exact ⟨_, rfl, .inr rfl⟩
      | cons c r => exact ⟨c, rfl, .inl (hwhole c List.mem_cons_self)⟩

theorem ne_of_isDigit (h : c.isDigit = true) {d : CodeUnit} (hd : d.isDigit = false) : c ≠ d := by
  rintro rfl
  rw [h] at hd
  cases hd

/-- A sign is split off. -/
theorem splitSign_cases (t : Text) :
    ∃ sign, IsSign sign ∧ t = sign ++ (Yaml.splitSign t).2 := by
  cases t with
  | nil => exact ⟨[], .none, rfl⟩
  | cons c r =>
      unfold Yaml.splitSign
      dsimp only
      split_ifs with hminus hplus
      · exact ⟨_, .minus, by rw [hminus]; rfl⟩
      · exact ⟨_, .plus, by rw [hplus]; rfl⟩
      · exact ⟨[], .none, rfl⟩

/-- What stands behind a sign and does not begin with one is split off. -/
theorem splitSign_append {sign : Text} (h : IsSign sign) {rest : Text}
    (hrest : ∀ c ∈ rest.head?, c ≠ CodeUnit.ofBasic '-' ∧ c ≠ CodeUnit.ofBasic '+') :
    (Yaml.splitSign (sign ++ rest)).2 = rest := by
  cases h with
  | minus => rfl
  | plus => rfl
  | none =>
      cases rest with
      | nil => rfl
      | cons c r =>
          obtain ⟨hminus, hplus⟩ := hrest c rfl
          rw [List.nil_append, Yaml.splitSign, if_neg hminus, if_neg hplus]

theorem exponent?_cons (mark : CodeUnit) (r : Text) : (exponent? (mark :: r)).isSome = true ↔
    (mark = CodeUnit.ofBasic 'e' ∨ mark = CodeUnit.ofBasic 'E') ∧
      (Yaml.splitSign r).2 ≠ [] ∧ IsDigits (Yaml.splitSign r).2 := by
  have hsplit : exponent? (mark :: r) =
      if mark = CodeUnit.ofBasic 'e' ∨ mark = CodeUnit.ofBasic 'E' then
        if (Yaml.splitSign r).2.isEmpty ∨ !(Yaml.splitSign r).2.all CodeUnit.isDigit then none
        else some (if (Yaml.splitSign r).1 then -(Text.natValue (Yaml.splitSign r).2 10 : Int)
          else Text.natValue (Yaml.splitSign r).2 10)
      else none := by
    cases r <;> rfl
  rw [hsplit, ← isDigits_iff]
  by_cases hmark : mark = CodeUnit.ofBasic 'e' ∨ mark = CodeUnit.ofBasic 'E'
  · rw [if_pos hmark]
    by_cases hbad : (Yaml.splitSign r).2.isEmpty ∨ !(Yaml.splitSign r).2.all CodeUnit.isDigit
    · rw [if_pos hbad]
      refine iff_of_false nofun ?_
      rintro ⟨-, hne, hall⟩
      rw [hall, List.isEmpty_iff] at hbad
      exact hbad.elim hne nofun
    · rw [if_neg hbad]
      rw [not_or, List.isEmpty_iff] at hbad
      exact iff_of_true rfl ⟨hmark, hbad.1, by simpa using hbad.2⟩
  · rw [if_neg hmark]
    exact iff_of_false nofun fun h => hmark h.1

theorem exponent?_isSome_iff : (exponent? t).isSome = true ↔ IsExponent t := by
  constructor
  · intro h
    cases t with
    | nil => exact .none
    | cons mark r =>
        obtain ⟨hmark, hne, hdigits⟩ := (exponent?_cons mark r).mp h
        obtain ⟨sign, hsign, hr⟩ := splitSign_cases r
        rw [hr]
        exact .marked hmark hsign hdigits hne
  · intro h
    cases h with
    | none => rfl
    | @marked mark sign digits hmark hsign hdigits hne =>
        have hrest : (Yaml.splitSign (sign ++ digits)).2 = digits := by
          refine splitSign_append hsign fun c hc => ?_
          have hdigit := hdigits c (List.mem_of_mem_head? hc)
          exact ⟨ne_of_isDigit hdigit rfl, ne_of_isDigit hdigit rfl⟩
        rw [exponent?_cons, hrest]
        exact ⟨hmark, hne, hdigits⟩

/-- The digits behind a point, and what follows them; nothing without a point. -/
def splitPoint : Text → Text × Text
  | [] => ([], [])
  | c :: r =>
    if c = '.' then (r.takeWhile CodeUnit.isDigit, r.dropWhile CodeUnit.isDigit) else ([], c :: r)

theorem splitPoint_point {fraction rest : Text} (hfraction : IsDigits fraction)
    (hrest : ∀ c ∈ rest.head?, c.isDigit = false) :
    splitPoint (CodeUnit.ofBasic '.' :: (fraction ++ rest)) = (fraction, rest) := by
  obtain ⟨htake, hdrop⟩ := Text.span_append hfraction hrest
  rw [splitPoint, if_pos rfl, htake, hdrop]

theorem splitPoint_of_ne {rest : Text} (h : ∀ c ∈ rest.head?, c ≠ CodeUnit.ofBasic '.') :
    splitPoint rest = ([], rest) := by
  cases rest with
  | nil => rfl
  | cons c r => exact if_neg (h c rfl)

theorem decimal?_append {whole rest : Text} (hwhole : IsDigits whole)
    (hrest : ∀ c ∈ rest.head?, c.isDigit = false) :
    (decimal? (whole ++ rest)).isSome = true ↔
      (whole ≠ [] ∨ (splitPoint rest).1 ≠ []) ∧ IsExponent (splitPoint rest).2 := by
  obtain ⟨htake, hdrop⟩ := Text.span_append hwhole hrest
  have hvalue : decimal? (whole ++ rest) =
      if whole.isEmpty ∧ (splitPoint rest).1.isEmpty then none
      else (exponent? (splitPoint rest).2).map (ofParts whole (splitPoint rest).1) := by
    unfold decimal?
    rw [htake, hdrop]
    rfl
  rw [hvalue, ← not_and_or, ← List.isEmpty_iff, ← List.isEmpty_iff]
  by_cases hempty : whole.isEmpty ∧ (splitPoint rest).1.isEmpty
  · rw [if_pos hempty]
    exact iff_of_false nofun fun h => h.1 hempty
  · rw [if_neg hempty, Option.isSome_map, exponent?_isSome_iff, and_iff_right hempty]

/-- A text is read as a numeral exactly when it is one. -/
theorem decimal?_isSome_iff : (decimal? t).isSome = true ↔ IsDecimal t := by
  have hnext := Text.head_dropWhile CodeUnit.isDigit
  constructor
  · intro h
    rw [← List.takeWhile_append_dropWhile (p := CodeUnit.isDigit) (l := t)] at h ⊢
    have hwhole := isDigits_takeWhile t
    obtain ⟨hne, hexponent⟩ := (decimal?_append hwhole (hnext t)).mp h
    by_cases hpoint : (t.dropWhile CodeUnit.isDigit).head? = some (CodeUnit.ofBasic '.')
    · obtain ⟨r, hr⟩ := List.head?_eq_some_iff.mp hpoint
      have hfraction := isDigits_takeWhile r
      rw [hr, ← List.takeWhile_append_dropWhile (p := CodeUnit.isDigit) (l := r)] at hne hexponent ⊢
      rw [splitPoint_point hfraction (hnext r)] at hne hexponent
      exact .point hwhole hfraction hne hexponent
    · rw [splitPoint_of_ne fun c hc heq => hpoint (heq ▸ hc)] at hne hexponent
      exact .whole hwhole (hne.resolve_right fun h => h rfl) hexponent
  · intro h
    cases h with
    | whole hwhole hne hexponent =>
        rw [decimal?_append hwhole fun c hc => (hexponent.head c hc).1,
          splitPoint_of_ne fun c hc => (hexponent.head c hc).2]
        exact ⟨.inl hne, hexponent⟩
    | point hwhole hfraction hne hexponent =>
        rw [decimal?_append hwhole (by rintro c ⟨⟩; rfl),
          splitPoint_point hfraction fun c hc => (hexponent.head c hc).1]
        exact ⟨hne, hexponent⟩

end Number

namespace Yaml

variable {t : Text}

/-! ### Signs and prefixes -/

theorem areDigits_ten : areDigits 10 false t = true ↔ t ≠ [] ∧ Number.IsDigits t := by
  unfold areDigits
  simp only [CodeUnit.isHexDigit_and_hexValue, Bool.false_and, Bool.or_false]
  rw [Bool.and_eq_true, ← Number.isDigits_iff, Bool.not_eq_true', List.isEmpty_eq_false_iff]

/-- Digits of a base behind a mark. -/
def IsMarked (mark : Text) (base : ℕ) (t : Text) : Prop :=
  ∃ digits, areDigits base false digits = true ∧ t = mark ++ digits

theorem isMarked_iff {mark : Text} {base : ℕ} :
    IsMarked mark base t ↔ mark.isPrefixOf t ∧ areDigits base false (t.drop mark.length) := by
  rw [List.isPrefixOf_iff_prefix]
  constructor
  · rintro ⟨digits, h, rfl⟩
    rw [List.drop_left]
    exact ⟨⟨digits, rfl⟩, h⟩
  · rintro ⟨⟨digits, rfl⟩, h⟩
    rw [List.drop_left] at h
    exact ⟨digits, h, rfl⟩

/-- A text with a property behind a sign, or by itself. -/
def IsSigned (p : Text → Prop) (t : Text) : Prop :=
  ∃ sign s, Number.IsSign sign ∧ p s ∧ t = sign ++ s

/-- The sign is told when the text behind it cannot begin with one. -/
theorem isSigned_iff {p : Text → Prop} (h : ∀ s, p s → ∃ c, s.head? = some c ∧
    (c.isDigit = true ∨ c = CodeUnit.ofBasic '.')) : IsSigned p t ↔ p (splitSign t).2 := by
  constructor
  · rintro ⟨sign, s, hsign, hp, rfl⟩
    rwa [Number.splitSign_append hsign]
    intro c hc
    obtain ⟨d, hd, hcase⟩ := h s hp
    cases hd.symm.trans hc
    rcases hcase with hdigit | rfl
    · exact ⟨Number.ne_of_isDigit hdigit rfl, Number.ne_of_isDigit hdigit rfl⟩
    · exact ⟨by decide, by decide⟩
  · intro hp
    obtain ⟨sign, hsign, ht⟩ := Number.splitSign_cases t
    exact ⟨sign, _, hsign, hp, ht⟩

/-! ### The forms and their readers -/

/-- The words for infinity. -/
def infinityWords : List Text := [".inf", ".Inf", ".INF"]

/-- The words for what is not a number. -/
def notANumberWords : List Text := [".nan", ".NaN", ".NAN"]

/-- The forms of numbers: digits of a base, a numeral, or a word. -/
def NumberForm (t : Text) : Prop :=
  IsMarked "0o" 8 t ∨ IsMarked "0x" 16 t ∨ IsSigned Number.IsDecimal t ∨
    IsSigned (· ∈ infinityWords) t ∨ t ∈ notANumberWords

/-- The forms of plain scalars that are no strings. -/
def CoreForm (t : Text) : Prop :=
  t ∈ nullWords ∨ t ∈ boolWords.map Prod.fst ∨ NumberForm t

theorem isSigned_decimal_iff :
    IsSigned Number.IsDecimal t ↔ Number.IsDecimal (splitSign t).2 :=
  isSigned_iff fun _ h => h.head

theorem isSigned_infinity_iff :
    IsSigned (· ∈ infinityWords) t ↔ (splitSign t).2 ∈ infinityWords := by
  refine isSigned_iff fun s h => ?_
  simp only [infinityWords, List.mem_cons, List.not_mem_nil, or_false] at h
  rcases h with rfl | rfl | rfl <;> exact ⟨_, rfl, .inr rfl⟩

theorem int?_isSome_iff : (Version.v12.int? t).isSome = true ↔
    IsMarked "0o" 8 t ∨ IsMarked "0x" 16 t ∨ areDigits 10 false (splitSign t).2 = true := by
  rw [isMarked_iff, isMarked_iff]
  change (if _ then _ else if _ then _ else if _ then _ else _ : Option Float).isSome = true ↔ _
  split_ifs with hoctal hhex hten
  · exact iff_of_true rfl (.inl hoctal)
  · exact iff_of_true rfl (.inr (.inl hhex))
  · exact iff_of_true rfl (.inr (.inr hten))
  · exact iff_of_false nofun (not_or.mpr ⟨hoctal, not_or.mpr ⟨hhex, hten⟩⟩)

theorem wordFloat?_isSome_iff : (wordFloat? t).isSome = true ↔
    t ∈ notANumberWords ∨ (splitSign t).2 ∈ infinityWords := by
  have hnan : t ∈ notANumberWords ↔ t = ".nan" ∨ t = ".NaN" ∨ t = ".NAN" := by
    simp [notANumberWords]
  have hinf : (splitSign t).2 ∈ infinityWords ↔
      (splitSign t).2 = ".inf" ∨ (splitSign t).2 = ".Inf" ∨ (splitSign t).2 = ".INF" := by
    simp [infinityWords]
  rw [hnan, hinf]
  change (if _ then _ else if _ then _ else _ : Option Float).isSome = true ↔ _
  split_ifs with h h'
  · exact iff_of_true rfl (.inl h)
  · exact iff_of_true rfl (.inr h')
  · exact iff_of_false nofun (not_or.mpr ⟨h, h'⟩)

theorem float?_isSome_iff : (Version.v12.float? t).isSome = true ↔
    (wordFloat? t).isSome = true ∨
      (¬ areDigits 10 false (splitSign t).2 = true ∧ Number.IsDecimal (splitSign t).2) := by
  unfold Version.float?
  cases wordFloat? t with
  | some x => exact iff_of_true rfl (.inl rfl)
  | none =>
      dsimp only
      rw [or_iff_right (by exact nofun), ← Number.decimal?_isSome_iff]
      split_ifs with hhead
      · rw [Option.isSome_map, and_iff_right (by simpa using hhead.2)]
      · refine iff_of_false nofun ?_
        rintro ⟨hdigits, hdecimal⟩
        obtain ⟨c, hc, hcase⟩ := (Number.decimal?_isSome_iff.mp hdecimal).head
        refine hhead ⟨?_, by simpa using hdigits⟩
        rw [hc, Option.any_some, Bool.or_eq_true, decide_eq_true_eq]
        exact hcase

/-- Digits alone are a numeral, too. -/
theorem isDecimal_of_areDigits (h : areDigits 10 false t = true) : Number.IsDecimal t := by
  obtain ⟨hne, hdigits⟩ := areDigits_ten.mp h
  rw [← List.append_nil t]
  exact .whole hdigits hne .none

/-- The two readers of numbers know the forms of numbers. -/
theorem number_isSome_iff : ((Version.v12.int? t).isSome = true ∨
    (Version.v12.float? t).isSome = true) ↔ NumberForm t := by
  rw [NumberForm, int?_isSome_iff, float?_isSome_iff, wordFloat?_isSome_iff, isSigned_decimal_iff,
    isSigned_infinity_iff]
  by_cases hdigits : areDigits 10 false (splitSign t).2 = true
  · have hdecimal := isDecimal_of_areDigits hdigits
    simp [hdigits, hdecimal]
  · grind

theorem bool?_isSome_iff :
    (Version.v12.bool? t).isSome = true ↔ t ∈ boolWords.map Prod.fst :=
  Table.get?_isSome_iff (t := boolWords)

/-- The families of plain scalars. -/
def coreFamilies : List Family := [.null, .bool, .int, .float]

theorem ofDatum_ne_string {f : Family} (hf : f ∈ coreFamilies) {d : Datum}
    (h : Version.v12.read? t f = some d) : Document.Scalar.ofDatum d ≠ .string t := by
  simp only [coreFamilies, List.mem_cons, List.not_mem_nil, or_false] at hf
  rcases hf with rfl | rfl | rfl | rfl
  · obtain ⟨-, hd⟩ := Option.ite_none_right_eq_some.mp h
    cases hd
    exact nofun
  all_goals
    obtain ⟨x, -, rfl⟩ := Option.map_eq_some_iff.mp h
    exact nofun

/-- A text is a member of none of the families exactly when it has none of the forms. -/
theorem read?_eq_none_iff :
    (∀ f ∈ coreFamilies, Version.v12.read? t f = none) ↔ ¬ CoreForm t := by
  rw [CoreForm, ← number_isSome_iff, ← bool?_isSome_iff]
  simp [coreFamilies, Version.read?]

/-- **Which plain scalars are strings.**  A plain scalar is read as its own text unless it has the
form of another value. -/
theorem ofDatum_readPlain_iff (isKey : Bool) (t : Text) :
    Document.Scalar.ofDatum (Version.v12.readPlain isKey t) = .string t ↔ ¬ CoreForm t := by
  rw [← read?_eq_none_iff]
  change Document.Scalar.ofDatum ((coreFamilies.findSome? (Version.v12.read? t)).getD _) = _ ↔ _
  cases hfound : coreFamilies.findSome? (Version.v12.read? t) with
  | none => exact iff_of_true rfl (List.findSome?_eq_none_iff.mp hfound)
  | some d =>
      obtain ⟨f, hf, hread⟩ := List.exists_of_findSome?_eq_some hfound
      refine iff_of_false (ofDatum_ne_string hf hread) fun hnone => ?_
      rw [hnone f hf] at hread
      cases hread

end Yaml
end Scopewright
