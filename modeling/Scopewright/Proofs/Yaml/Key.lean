import Mathlib.Data.List.Basic
import Scopewright.Yaml.Line

/-! # Reading keys

How far a quoted string at the front of a text goes, unit by unit.  What stands behind the colon of
a key changes nothing of it (`Yaml.keyHead?_append`). -/

namespace Scopewright
namespace Yaml

variable {c : CodeUnit}

theorem doubleQuotedLength_quote (r : Text) :
    doubleQuotedLength (CodeUnit.ofBasic '"' :: r) = some 1 := by
  cases r with
  | nil => rfl
  | cons d r => rfl

theorem doubleQuotedLength_escape (d : CodeUnit) (r : Text) :
    doubleQuotedLength (CodeUnit.ofBasic '\\' :: d :: r) =
      if d.endsLine then none else (doubleQuotedLength r).map (· + 2) := rfl

theorem doubleQuotedLength_cons (hq : c ≠ CodeUnit.ofBasic '"') (hs : c ≠ CodeUnit.ofBasic '\\')
    (r : Text) : doubleQuotedLength (c :: r) = (doubleQuotedLength r).map (· + 1) := by
  cases r with
  | nil => simp [doubleQuotedLength, hq, hs]
  | cons d r => simp [doubleQuotedLength, hq, hs]

theorem singleQuotedLength_quote {r : Text} (h : r.head? ≠ some (CodeUnit.ofBasic '\'')) :
    singleQuotedLength (CodeUnit.ofBasic '\'' :: r) = some 1 := by
  cases r with
  | nil => rfl
  | cons d r =>
      have hd : ¬ d = CodeUnit.ofBasic '\'' := fun hd => h (congrArg some hd)
      simp [singleQuotedLength, hd]

theorem singleQuotedLength_doubled (r : Text) :
    singleQuotedLength (CodeUnit.ofBasic '\'' :: CodeUnit.ofBasic '\'' :: r) =
      (singleQuotedLength r).map (· + 2) := rfl

theorem singleQuotedLength_cons (hc : c ≠ CodeUnit.ofBasic '\'') (r : Text) :
    singleQuotedLength (c :: r) = (singleQuotedLength r).map (· + 1) := by
  cases r with
  | nil => simp [singleQuotedLength, hc]
  | cons d r => simp [singleQuotedLength, hc]

/-! ### Behind the colon -/

theorem doubleQuotedLength_append {t : Text} {n : ℕ} (h : doubleQuotedLength t = some n)
    (s : Text) :
    doubleQuotedLength (t ++ s) = some n := by
  fun_induction doubleQuotedLength t generalizing n with
  | case1 => cases h
  | case2 r => exact (doubleQuotedLength_quote _).trans h
  | case3 => cases h
  | case4 d r hd _ => cases h
  | case5 d r hd _ ih =>
      obtain ⟨m, hm, rfl⟩ := Option.map_eq_some_iff.mp h
      rw [List.cons_append, List.cons_append, doubleQuotedLength_escape, if_neg hd, ih hm]
      rfl
  | case6 c r hq hs ih =>
      obtain ⟨m, hm, rfl⟩ := Option.map_eq_some_iff.mp h
      rw [List.cons_append, doubleQuotedLength_cons hq hs, ih hm]
      rfl

theorem singleQuotedLength_append {t s : Text} {n : ℕ} (h : singleQuotedLength t = some n)
    (hs : s.head? ≠ some (CodeUnit.ofBasic '\'')) : singleQuotedLength (t ++ s) = some n := by
  fun_induction singleQuotedLength t generalizing n with
  | case1 => cases h
  | case2 => exact (singleQuotedLength_quote hs).trans h
  | case3 c hc => cases h
  | case4 r ih =>
      obtain ⟨m, hm, rfl⟩ := Option.map_eq_some_iff.mp h
      rw [List.cons_append, List.cons_append, singleQuotedLength_doubled, ih hm]
      rfl
  | case5 d r hd =>
      have hquote : (d :: (r ++ s)).head? ≠ some (CodeUnit.ofBasic '\'') :=
        fun hquote => hd (Option.some.inj hquote)
      exact (singleQuotedLength_quote hquote).trans h
  | case6 c d r hc ih =>
      obtain ⟨m, hm, rfl⟩ := Option.map_eq_some_iff.mp h
      rw [List.cons_append, singleQuotedLength_cons hc, ih hm]
      rfl

/-- A colon at the end of a text, perhaps behind white space, is one when white space follows. -/
theorem colonLength?_append {t s : Text} (h : colonLength? t = some t.length)
    (hs : s.head?.all CodeUnit.isBlank = true) : colonLength? (t ++ s) = some t.length := by
  rw [colonLength?] at h
  cases hdrop : t.dropWhile CodeUnit.isBlank with
  | nil =>
      rw [hdrop] at h
      cases h
  | cons c r =>
      rw [hdrop] at h
      simp only at h
      split at h
      · rename_i hcolon
        have hlength := (List.dropWhile_sublist CodeUnit.isBlank (l := t)).length_le
        rw [hdrop, List.length_cons] at hlength
        have hr : r = [] := List.eq_nil_of_length_eq_zero (by have := Option.some.inj h; omega)
        subst hr
        have happend : (t ++ s).dropWhile CodeUnit.isBlank = c :: s := by
          rw [List.dropWhile_append, hdrop]
          rfl
        rw [colonLength?, happend]
        simp only [hcolon.1, hs, and_self, if_true, List.length_append, Nat.add_sub_cancel]
      · cases h

theorem colonLength?_drop_append {t s : Text} {n m : ℕ} (h : colonLength? (t.drop n) = some m)
    (hlength : n + m = t.length) (hs : s.head?.all CodeUnit.isBlank = true) :
    colonLength? ((t ++ s).drop n) = some m := by
  have hdrop : m = (t.drop n).length := by
    rw [List.length_drop]
    omega
  rw [hdrop] at h ⊢
  rw [List.drop_append_of_le_length (by omega), colonLength?_append h hs]

theorem quotedHead?_append {t s : Text} {n : ℕ} {k : KeyHead} (h : quotedHead? t n = some k)
    (hk : k.length = t.length) (hs : s.head?.all CodeUnit.isBlank = true) :
    quotedHead? (t ++ s) n = some k := by
  obtain ⟨m, hm, rfl⟩ := Option.map_eq_some_iff.mp h
  have hlength : n + m = t.length := hk
  rw [quotedHead?, colonLength?_drop_append hm hlength hs,
    List.take_append_of_le_length (by omega)]
  rfl

theorem beginsPlainKey_append {t : Text} (h : beginsPlainKey t = true) (s : Text) :
    beginsPlainKey (t ++ s) = true := by
  cases t with
  | nil => cases h
  | cons c r =>
      cases r with
      | cons d r => exact h
      | nil =>
          rw [beginsPlainKey] at h
          rw [List.cons_append, beginsPlainKey]
          split at h
          · cases h
          · rename_i hc
            rw [if_neg hc]
            exact h

/-- A key that a text ends with stays the key when white space follows. -/
theorem keyHead?_append {t s : Text} {k : KeyHead} (h : keyHead? t = some k)
    (hk : k.length = t.length) (hs : s.head?.all CodeUnit.isBlank = true) :
    keyHead? (t ++ s) = some k := by
  have hsingle : s.head? ≠ some (CodeUnit.ofBasic '\'') := by
    intro hhead
    rw [hhead] at hs
    cases hs
  cases t with
  | nil => cases h
  | cons c r =>
      rw [keyHead?] at h
      rw [List.cons_append, keyHead?, ← List.cons_append]
      by_cases hdouble : c = '"'
      · rw [if_pos hdouble] at h ⊢
        obtain ⟨n, hn, hquoted⟩ := Option.bind_eq_some_iff.mp h
        rw [doubleQuotedLength_append hn]
        exact quotedHead?_append hquoted hk hs
      rw [if_neg hdouble] at h ⊢
      by_cases hquote : c = '\''
      · rw [if_pos hquote] at h ⊢
        obtain ⟨n, hn, hquoted⟩ := Option.bind_eq_some_iff.mp h
        rw [singleQuotedLength_append hn hsingle]
        exact quotedHead?_append hquoted hk hs
      rw [if_neg hquote] at h ⊢
      split at h
      · rename_i hplain
        obtain ⟨m, hm, rfl⟩ := Option.map_eq_some_iff.mp h
        have hne : ((c :: r).takeWhile isPlainKeyUnit).length ≠ (c :: r).length := by
          intro hall
          rw [hall, List.drop_length] at hm
          cases hm
        have htake : ((c :: r) ++ s).takeWhile isPlainKeyUnit =
            (c :: r).takeWhile isPlainKeyUnit := by
          rw [List.takeWhile_append, if_neg hne]
        rw [if_pos (beginsPlainKey_append hplain s), htake]
        simp only [colonLength?_drop_append hm hk hs, Option.map_some]
      · cases h

end Yaml
end Scopewright
