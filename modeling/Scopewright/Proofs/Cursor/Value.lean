import Scopewright.Proofs.Cursor.Source
import Scopewright.Proofs.Cursor.Upward
import Scopewright.Proofs.Text.Split
import Scopewright.Proofs.Yaml.Key

/-! # Values typed behind a key

What is typed behind the colon of a key changes nothing of what stands before it
(`Cursor.Yaml.inner_append`).  So a cursor behind it has the path of the key, perhaps with the place
of an item, and the token that the value alone tells (`Cursor.Yaml.resolve_behindColon`). -/

namespace Scopewright
namespace Cursor
namespace Yaml

open Scopewright.Yaml

/-! ### The line -/

theorem dashes_append {col : ℕ} {t : Text} (h : (dashes col t).content ≠ []) (s : Text) :
    dashes col (t ++ s) =
      ⟨(dashes col t).cols, (dashes col t).contentCol, (dashes col t).content ++ s⟩ := by
  fun_induction dashes col t with
  | case1 col => exact absurd rfl h
  | case2 col c r hitem rest inner ih =>
      have hrest : r.dropWhile CodeUnit.isBlank ≠ [] := by
        intro hnil
        have hinner : inner.content = [] := by
          show (dashes _ (r.dropWhile CodeUnit.isBlank)).content = []
          rw [hnil, dashes]
        exact h hinner
      have hdrop : (r ++ s).dropWhile CodeUnit.isBlank = r.dropWhile CodeUnit.isBlank ++ s := by
        rw [List.dropWhile_append, if_neg (by simpa using hrest)]
      have hitem' : beginsItem (c :: (r ++ s)) = true := by
        cases r with
        | nil => exact absurd rfl hrest
        | cons d r => exact hitem
      rw [List.cons_append, dashes, if_pos hitem']
      simp only [hdrop, List.length_append, Nat.add_sub_add_right]
      exact congrArg (fun d : Dashes => Dashes.mk (col :: d.cols) d.contentCol d.content) (ih h)
  | case3 col c r hitem =>
      have hitem' : ¬ beginsItem (c :: (r ++ s)) = true := by
        cases r with
        | cons d r => exact hitem
        | nil =>
            intro hdash
            refine hitem ?_
            rw [beginsItem, Bool.and_eq_true] at hdash ⊢
            exact ⟨hdash.1, rfl⟩
      rw [List.cons_append, dashes, if_neg hitem']

theorem inner_append {line : Text} (h : (inner line).content ≠ []) (s : Text) :
    inner (line ++ s) =
      ⟨(inner line).cols, (inner line).contentCol, (inner line).content ++ s⟩ := by
  have hne : line.drop (indentOf line) ≠ [] := by
    intro hnil
    rw [inner, hnil, dashes] at h
    exact h rfl
  have hle : indentOf line < line.length := by
    rw [Ne, List.drop_eq_nil_iff] at hne
    omega
  have hindent : indentOf (line ++ s) = indentOf line := by
    rw [indentOf] at hle
    rw [indentOf, indentOf, List.takeWhile_append, if_neg (Nat.ne_of_lt hle)]
  rw [inner, hindent, List.drop_append_of_le_length (Nat.le_of_lt hle)]
  exact dashes_append h s

theorem around_append {s : Text} (hs : CodeUnit.ofBasic '\n' ∉ s) (t rest : Text) :
    ∃ below, Lines.around (t ++ s ++ rest) (t.length + s.length) =
      ⟨(Lines.around t t.length).above, (Lines.around t t.length).before ++ s, below⟩ := by
  have htake : (t ++ s ++ rest).take (t.length + s.length) = t ++ s :=
    List.take_left' List.length_append
  obtain ⟨lines, line, hlines⟩ : ∃ lines line, Text.splitOn '\n' t = lines ++ [line] := by
    rcases List.eq_nil_or_concat (Text.splitOn '\n' t) with hnil | ⟨lines, line, hlines⟩
    · exact absurd hnil (Text.splitOn_ne_nil t)
    · exact ⟨lines, line, by rw [hlines, List.concat_eq_append]⟩
  rw [Lines.around, Lines.around, htake, List.take_length, hlines,
    Text.splitOn_append_last hs hlines]
  simp only [List.reverse_concat]
  exact ⟨_, rfl⟩

/-! ### Behind a colon -/

/-- The last line of the text ends with the colon of its key, and is no text of a value. -/
structure EndsWithColon (t : Text) : Prop where
  key : (keyHead? (inner (Lines.around t t.length).before).content).map KeyHead.length =
    some (inner (Lines.around t t.length).before).content.length
  noText : inText (need (inner (Lines.around t t.length).before)) (Lines.around t t.length).above =
    false

/-- Behind a colon the cursor has the path of the key, and what the value tells. -/
theorem resolve_behindColon {t s : Text} (h : EndsWithColon t)
    (hblank : s.head?.all CodeUnit.isBlank = true) (hline : CodeUnit.ofBasic '\n' ∉ s)
    (rest : Text) :
    (resolve (t ++ s ++ rest) (t.length + s.length)).path =
        (resolve t t.length).path ++ ((valueToken s t.length).2.map Segment.index).toList ∧
      (resolve (t ++ s ++ rest) (t.length + s.length)).token = (valueToken s t.length).1 := by
  obtain ⟨hkey, htext⟩ := h
  obtain ⟨k, hk, hlength⟩ := Option.map_eq_some_iff.mp hkey
  obtain ⟨below, haround⟩ := around_append hline t rest
  have hne : (inner (Lines.around t t.length).before).content ≠ [] := by
    intro hnil
    rw [hnil] at hk
    cases hk
  have hle : (inner (Lines.around t t.length).before).content.length ≤ t.length := by
    have hsuffix : (inner (Lines.around t t.length).before).content <:+ t.take t.length :=
      (dashes_suffix _ _).trans ((List.drop_suffix _ _).trans (before_suffix t t.length))
    rw [List.take_length] at hsuffix
    exact hsuffix.length_le
  have hinner := inner_append hne s
  rw [resolve_eq, resolve_eq, haround]
  simp only [ascend, hinner]
  generalize inner (Lines.around t t.length).before = d at *
  generalize (Lines.around t t.length).above = above at *
  obtain ⟨p, broken, hclimb⟩ := exists_climb (need d) above
  have hneed : need ⟨d.cols, d.contentCol, d.content ++ s⟩ = need d := rfl
  have hhere : (onLine d t.length).1 = [.key (keyName k.source)] := by
    rw [onLine, hk]
    simp only [hlength, List.drop_length]
    rfl
  have hbehind : onLine ⟨d.cols, d.contentCol, d.content ++ s⟩ (t.length + s.length) =
      (.key (keyName k.source) :: ((valueToken s t.length).2.map Segment.index).toList,
        (valueToken s t.length).1) := by
    have hstart : t.length + s.length - (d.content ++ s).length + d.content.length = t.length := by
      rw [List.length_append]
      omega
    rw [onLine, keyHead?_append hk hlength hblank]
    simp only [hlength, List.drop_left, hstart]
  rw [hneed, hclimb, hclimb, htext]
  simp only [outset, hhere, hbehind, Bool.false_eq_true, if_false, List.append_assoc,
    List.singleton_append, and_self]

end Yaml
end Cursor
end Scopewright
