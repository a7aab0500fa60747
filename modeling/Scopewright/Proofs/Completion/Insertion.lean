import Scopewright.Completion.Insertion
import Scopewright.Proofs.Json.Quoted

/-! # Inserted texts can be told apart

Two values are never put into a document as the same text (`Completion.insertion_injective`).  Inside
a string and in character data each unit has a piece of its own, and delimiters are the same for all
values.  In a plain YAML scalar some values are quoted and some are not, and none that is not quoted
begins with a quote. -/

namespace Scopewright

namespace Markup
namespace Reference

/-- The unit that escaped character data begins with, and what stands behind it. -/
def readEscape? : Text → Option (CodeUnit × Text)
  | [] => none
  | c :: r =>
    if c = '&' then
      if r.head? = some (CodeUnit.ofBasic 'a') then some ('&', r.drop 4)
      else if r.head? = some (CodeUnit.ofBasic 'l') then some ('<', r.drop 3)
      else some ('>', r.drop 3)
    else some (c, r)

theorem escape_injective : Function.Injective escape := by
  refine Text.flatMap_injective readEscape? ⟨rfl, ?_⟩
  rintro c p s rfl
  split_ifs with hamp hlt hgt
  · rw [hamp]
    rfl
  · rw [hlt]
    rfl
  · rw [hgt]
    rfl
  · exact if_neg hamp

end Reference
end Markup

namespace Completion

theorem doubleQuotes_cons (c : CodeUnit) (t : Text) :
    doubleQuotes (c :: t) =
      (if c = CodeUnit.ofBasic '\'' then ("''" : Text) else [c]) ++ doubleQuotes t := rfl

theorem notMem_doubleQuotes {t : Text} {c : CodeUnit} (h : c ∉ t)
    (hc : c ≠ CodeUnit.ofBasic '\'') : c ∉ doubleQuotes t := by
  intro hmem
  obtain ⟨d, hd, hcd⟩ := List.mem_flatMap.mp hmem
  split_ifs at hcd with hquote
  · exact hc (List.eq_of_mem_replicate (n := 2) hcd)
  · exact h (List.mem_singleton.mp hcd ▸ hd)

/-- The unit that the body of a single-quoted scalar begins with, and what stands behind it. -/
def readDoubled? : Text → Option (CodeUnit × Text)
  | [] => none
  | c :: r => some (c, if c = '\'' then r.drop 1 else r)

theorem doubleQuotes_injective : Function.Injective doubleQuotes := by
  refine Text.flatMap_injective readDoubled? ⟨rfl, ?_⟩
  rintro c p s rfl
  split_ifs with hquote
  · rw [hquote]
    rfl
  · exact congrArg (fun r => some (c, r)) (if_neg hquote)

/-- What begins with a quote is not written without quotes. -/
theorem needsYamlQuotes_quote (t : Text) : needsYamlQuotes ('\'' :: t) = true := by
  have hhead : (List.head? ('\'' :: t : Text)).any isYamlIndicator = true := by
    rw [List.head?_cons, Option.any_some]
    decide
  rw [needsYamlQuotes, hhead, Bool.or_true, Bool.true_or]

/-- An element is told by its body. -/
theorem element_injective (name : Text) : Function.Injective (element name) := by
  intro t u h
  simp only [element, List.append_assoc, List.append_cancel_left_eq] at h
  simpa only [← List.append_assoc, List.append_cancel_right_eq] using h

/-- An empty element is told by its name. -/
theorem element_nil_injective : Function.Injective fun name => element name [] := by
  intro t u h
  have hlength := congrArg List.length h
  simp only [element, List.length_append] at hlength
  simp only [element, List.append_assoc, List.append_cancel_left_eq] at h
  exact List.append_inj_left h (by omega)

/-- **Inserted texts can be told apart.**  Each token, format and mode has a text of its own for
each value. -/
theorem insertion_injective (token : Cursor.Token) (format : Format) (mode : InsertionMode) :
    Function.Injective fun value => insertion value token format mode := by
  have hjson := Json.Quoted.escape_injective
  have hmarkup := Markup.Reference.escape_injective
  intro v w h
  simp only [insertion] at h
  cases format with
  | json =>
      simp only at h
      split_ifs at h
      · exact hjson h
      · exact Json.Quoted.encode_injective h
      · exact h
  | yaml =>
      simp only at h
      split at h
      · exact doubleQuotes_injective h
      · exact hjson h
      · by_cases hmode : (mode.wholeToken && !mode.literal) = true
        · simp only [hmode, Bool.true_and] at h
          by_cases hv : needsYamlQuotes v = true <;> by_cases hw : needsYamlQuotes w = true
          · rw [if_pos hv, if_pos hw, List.append_cancel_right_eq, List.append_cancel_left_eq] at h
            exact doubleQuotes_injective h
          · rw [if_pos hv, if_neg hw] at h
            exact absurd (h ▸ needsYamlQuotes_quote _) hw
          · rw [if_neg hv, if_pos hw] at h
            exact absurd (h ▸ needsYamlQuotes_quote _) hv
          · rwa [if_neg hv, if_neg hw] at h
        · simpa only [hmode, Bool.false_and, Bool.false_eq_true, if_false] using h
  | plist =>
      simp only at h
      split_ifs at h
      · exact hmarkup h
      · exact hmarkup (element_injective _ h)
      · rw [List.append_cancel_right_eq, List.append_cancel_left_eq] at h
        exact hmarkup h
      · exact hmarkup (element_injective _ h)
  | xml =>
      simp only at h
      split_ifs at h
      · exact hmarkup h
      · exact hmarkup (element_nil_injective h)
  | text => exact h

end Completion
end Scopewright
