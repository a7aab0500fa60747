import Scopewright.Document.Read
import Scopewright.Proofs.Completion.Insertion
import Scopewright.Proofs.Yaml.CoreSchema
import Scopewright.Proofs.Yaml.Entry

/-! # Values in place of a bare YAML token

A value that replaces a whole bare token is put between quotes when it would break as a plain scalar
(`Completion.needsYamlQuotes`), and then it reads back.  One that stays plain is read as a whole,
too, but as what its form says: the words for null and for booleans and the numerals are not quoted
and come back as values of other types.  So a value reads back as a string exactly when it is quoted
or has none of these forms (`Completion.read_insertion`). -/

namespace Scopewright
namespace Completion

open CodeUnit (ofBasic)

/-! ### Between quotes -/

theorem joinQuotes_cons {c : CodeUnit} (h : c ≠ ofBasic '\'') (t : Text) :
    Yaml.joinQuotes (c :: t) = c :: Yaml.joinQuotes t := by
  cases t with
  | nil => rfl
  | cons d r => rw [Yaml.joinQuotes, if_neg fun hc => h hc.1]

theorem joinQuotes_doubleQuotes (t : Text) : Yaml.joinQuotes (doubleQuotes t) = t := by
  induction t with
  | nil => rfl
  | cons c r ih =>
      rw [doubleQuotes_cons]
      split_ifs with hc
      · rw [hc]
        change Yaml.joinQuotes (ofBasic '\'' :: ofBasic '\'' :: doubleQuotes r) = _
        rw [Yaml.joinQuotes, if_pos ⟨rfl, rfl⟩, ih]
      · rw [List.singleton_append, joinQuotes_cons hc, ih]

theorem singleQuotedEnd_cons {c : CodeUnit} (h : c ≠ ofBasic '\'') (t : Text) :
    Yaml.singleQuotedEnd (c :: t) = (Yaml.singleQuotedEnd t).map (· + 1) := by
  cases t with
  | nil => exact if_neg h
  | cons d r => rw [Yaml.singleQuotedEnd, if_neg h]

/-- The quote that closes is the first one that is not doubled. -/
theorem singleQuotedEnd_doubleQuotes (t : Text) :
    Yaml.singleQuotedEnd (doubleQuotes t ++ [ofBasic '\'']) =
      some ((doubleQuotes t).length + 1) := by
  induction t with
  | nil => rfl
  | cons c r ih =>
      rw [doubleQuotes_cons]
      split_ifs with hc
      · change Yaml.singleQuotedEnd
          (ofBasic '\'' :: ofBasic '\'' :: (doubleQuotes r ++ [ofBasic '\''])) = _
        rw [Yaml.singleQuotedEnd, if_pos rfl, if_pos rfl, ih]
        rfl
      · rw [List.singleton_append, List.cons_append, singleQuotedEnd_cons hc, ih]
        rfl

/-! ### Without quotes -/

theorem isBlank_of_isWhite {c : CodeUnit} (h : Yaml.isWhite c = true) : c.isBlank = true := by
  simp only [Yaml.isWhite, Bool.or_eq_true, decide_eq_true_eq, or_assoc] at h
  rcases h with rfl | rfl | rfl | rfl <;> rfl

theorem isWhite_of_isBlank {c : CodeUnit} (h : c.isBlank = false) : Yaml.isWhite c = false := by
  rw [Bool.eq_false_iff] at h ⊢
  exact fun hwhite => h (isBlank_of_isWhite hwhite)

theorem breaksPlain_of_breaks {t : Text} (h : Yaml.Breaks t) : breaksPlain t = true := by
  induction t with
  | nil => exact h.elim
  | cons c r ih =>
      cases r with
      | nil =>
          rcases h with ⟨hc, -⟩ | ⟨-, h⟩ | h
          · exact decide_eq_true hc
          · cases h
          · exact h.elim
      | cons d r =>
          rw [breaksPlain, Bool.or_eq_true, Bool.or_eq_true, Bool.and_eq_true, Bool.and_eq_true,
            decide_eq_true_eq, decide_eq_true_eq]
          rcases h with ⟨hc, h⟩ | ⟨hc, h⟩ | h
          · exact .inl (.inl ⟨hc, isBlank_of_isWhite h⟩)
          · exact .inl (.inr ⟨isBlank_of_isWhite hc, Option.some.inj h⟩)
          · exact .inr (ih h)

theorem head_isBlank {t : Text} (h : t.dropWhile CodeUnit.isBlank = t) :
    ∀ c ∈ t.head?, c.isBlank = false := by
  have hhead := Text.head_dropWhile CodeUnit.isBlank t
  rwa [h] at hhead

/-- A trimmed text has no white space at its ends. -/
theorem ends_of_trim {t : Text} (h : t.trim = t) :
    (∀ c ∈ t.head?, c.isBlank = false) ∧ Yaml.EndsPlain t := by
  have hsuffix : t.trimStart <:+ t := List.dropWhile_suffix _
  have hlength : t.length ≤ t.trimStart.length := by
    have hle : t.trim.length ≤ t.trimStart.length := by
      rw [Text.trim, Text.trimEnd, List.length_reverse]
      exact (List.dropWhile_sublist _).length_le.trans_eq List.length_reverse
    rwa [h] at hle
  have hstart : t.trimStart = t := hsuffix.eq_of_length_le hlength
  have hend : t.reverse.dropWhile CodeUnit.isBlank = t.reverse := by
    rw [Text.trim, hstart, Text.trimEnd] at h
    rw [← List.reverse_inj, h, List.reverse_reverse]
  refine ⟨head_isBlank hstart, fun c hc => ?_⟩
  rw [← List.head?_reverse] at hc
  exact isWhite_of_isBlank (head_isBlank hend c hc)

/-- What is not quoted is a plain scalar of which the reader takes all. -/
theorem plain_of_needsYamlQuotes {value : Text} (h : needsYamlQuotes value = false) :
    ∃ c r, value = c :: r ∧ c.isBlank = false ∧ isYamlIndicator c = false ∧
      ¬ Yaml.Breaks value ∧ Yaml.EndsPlain value := by
  simp only [needsYamlQuotes, Bool.or_eq_false_iff, decide_eq_false_iff_not, not_not] at h
  obtain ⟨⟨⟨hne, htrim⟩, hindicator⟩, hbreaks⟩ := h
  obtain ⟨c, r, rfl⟩ := List.exists_cons_of_ne_nil (List.isEmpty_eq_false_iff.mp hne)
  obtain ⟨hblank, hends⟩ := ends_of_trim htrim.symm
  refine ⟨c, r, rfl, hblank c rfl, hindicator, fun hbreak => ?_, hends⟩
  rw [breaksPlain_of_breaks hbreak] at hbreaks
  cases hbreaks

/-- The indicators but for the grave accent. -/
def indicators : Text := "-?:,[]\x7b\x7d#&*!|>'\"%@"

theorem isYamlIndicator_eq_false {c : CodeUnit} (h : isYamlIndicator c = false) :
    c ∉ indicators ∧ c.toNat ≠ 96 := by
  obtain ⟨hcontains, haccent⟩ := Bool.or_eq_false_iff.mp h
  refine ⟨fun hc => ?_, of_decide_eq_false haccent⟩
  exact Bool.false_ne_true (hcontains.symm.trans (Text.contains_iff.mpr hc))

theorem badStart?_eq_none {c : CodeUnit} (hblank : c.isBlank = false)
    (h : isYamlIndicator c = false) : Yaml.badStart? c = none := by
  obtain ⟨hindicator, haccent⟩ := isYamlIndicator_eq_false h
  have hne {d : CodeUnit} (hd : d ∈ indicators) : c ≠ d := fun hc => hindicator (hc ▸ hd)
  have htab : c ≠ ofBasic '\t' := by
    rintro rfl
    cases hblank
  unfold Yaml.badStart?
  rw [if_neg htab, if_neg (hne (by decide)), if_neg (hne (by decide)),
    if_neg (not_or.mpr ⟨hne (by decide), hne (by decide)⟩),
    if_neg (not_or.mpr ⟨hne (by decide), haccent⟩)]

/-- The tree of an entry whose value is written without quotes. -/
theorem yamlTree_bare {value : Text} (hbreak : ofBasic '\n' ∉ value)
    (h : needsYamlQuotes value = false) :
    Document.yamlTree (Yaml.keyFront ++ value) =
      Yaml.entryTree value.length (.ofDatum (Yaml.Version.v12.readPlain false value)) := by
  obtain ⟨c, r, rfl, hblank, hindicator, hbreaks, hends⟩ := plain_of_needsYamlQuotes h
  have hnotMem := (isYamlIndicator_eq_false hindicator).1
  have hwhite := isWhite_of_isBlank hblank
  have hinline : Yaml.isInline c = false := by
    rw [Yaml.isWhite, ← Yaml.isInline, Bool.or_eq_false_iff, Bool.or_eq_false_iff] at hwhite
    exact hwhite.1.1
  have hstart : Text.contains "!&-?:#[]\x7b\x7d*\"|>" c = false := by
    rw [Bool.eq_false_iff, Ne, Text.contains_iff]
    have hsub : ∀ d ∈ Text.ofString "!&-?:#[]\x7b\x7d*\"|>", d ∈ indicators := by decide
    exact fun hc => hnotMem (hsub c hc)
  have hquote : c ≠ ofBasic '\'' := by
    rintro rfl
    exact hnotMem (by decide)
  exact Yaml.yamlTree_plain hinline hstart hquote (badStart?_eq_none hblank hindicator) hbreak
    hbreaks hends

/-- The tree of an entry whose value is written in quotes. -/
theorem yamlTree_doubleQuotes {value : Text} (hbreak : ofBasic '\n' ∉ value) :
    Document.yamlTree (Yaml.keyFront ++ ofBasic '\'' :: (doubleQuotes value ++ [ofBasic '\''])) =
      Yaml.entryTree ((doubleQuotes value).length + 2) (.string value) := by
  rw [Yaml.yamlTree_quoted (notMem_doubleQuotes hbreak (by decide))
    (singleQuotedEnd_doubleQuotes value), joinQuotes_doubleQuotes]

theorem entryTree_inj {length : ℕ} {a b : Document.Scalar} :
    Yaml.entryTree length a = Yaml.entryTree length b ↔ a = b := by
  constructor
  · intro h
    injection h with h
    injection h with h
    injection h with _ h
    injection h with h
    injection h with _ h
    injection h
  · rintro rfl
    rfl

/-- In place of a whole bare token a value stands between quotes, if it needs them. -/
theorem insertion_bare {token : Cursor.Token} (h : token.quote = none) (value : Text) :
    insertion value token .yaml ⟨true, false⟩ =
      if needsYamlQuotes value then ofBasic '\'' :: (doubleQuotes value ++ [ofBasic '\''])
      else value := by
  unfold insertion
  dsimp only
  rw [h]
  rfl

/-- **Values in place of a bare token.**  A value that replaces a whole bare token of an entry is
read as a whole and without problems: as a string if it is quoted, and else as what its form says.
So it reads back exactly when it is quoted or has no form of another value. -/
theorem read_insertion {value : Text} (hbreak : ofBasic '\n' ∉ value) {token : Cursor.Token}
    (htoken : token.quote = none) :
    let written := insertion value token .yaml ⟨true, false⟩
    let tree := Document.read (Yaml.keyFront ++ written) .yaml
    tree = Yaml.entryTree written.length
        (if needsYamlQuotes value then .string value
          else .ofDatum (Yaml.Version.v12.readPlain false value)) ∧
      (tree = Yaml.entryTree written.length (.string value) ↔
        needsYamlQuotes value = true ∨ ¬ Yaml.CoreForm value) := by
  intro written tree
  have hwritten : written = _ := insertion_bare htoken value
  have htree : tree = Yaml.entryTree written.length
      (if needsYamlQuotes value then .string value
        else .ofDatum (Yaml.Version.v12.readPlain false value)) := by
    change Document.yamlTree (Yaml.keyFront ++ written) = _
    cases hquotes : needsYamlQuotes value with
    | true =>
        rw [hquotes, if_pos rfl] at hwritten
        have hlength : written.length = (doubleQuotes value).length + 2 := by
          rw [hwritten, List.length_cons, List.length_append]
          rfl
        rw [hlength, if_pos rfl, hwritten, yamlTree_doubleQuotes hbreak]
    | false =>
        rw [hquotes, if_neg Bool.false_ne_true] at hwritten
        rw [hwritten, if_neg Bool.false_ne_true, yamlTree_bare hbreak hquotes]
  refine ⟨htree, ?_⟩
  rw [htree, entryTree_inj]
  cases hquotes : needsYamlQuotes value with
  | true => exact iff_of_true rfl (.inl rfl)
  | false => exact (Yaml.ofDatum_readPlain_iff false value).trans (or_iff_right nofun).symm

/-- The token behind the key of an entry that nothing has been typed of. -/
def bareToken : Cursor.Token := .plain [] 5 5 none .value none

theorem read_insertion_colon :
    ofBasic '\n' ∉ ("a: b" : Text) ∧ bareToken.quote = none ∧
      Document.read (Yaml.keyFront ++ insertion "a: b" bareToken .yaml ⟨true, false⟩) .yaml =
        Yaml.entryTree 6 (.string "a: b") :=
  have hline : ofBasic '\n' ∉ ("a: b" : Text) := by decide
  have htoken : bareToken.quote = none := rfl
  ⟨hline, htoken, (read_insertion hline htoken).2.mpr (.inl (by decide))⟩

/-- The word for the boolean is not quoted and does not come back as a string. -/
theorem read_insertion_true :
    insertion "true" bareToken .yaml ⟨true, false⟩ = "true" ∧
      Document.read (Yaml.keyFront ++ ("true" : Text)) .yaml = Yaml.entryTree 4 (.bool true) ∧
      Yaml.entryTree 4 (.bool true) ≠ Yaml.entryTree 4 (.string "true") := by
  refine ⟨by decide, yamlTree_bare (by decide) (by decide), ?_⟩
  rw [Ne, entryTree_inj]
  exact nofun

end Completion
end Scopewright
