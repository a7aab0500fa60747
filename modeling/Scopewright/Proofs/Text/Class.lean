import Scopewright.Text.Class

/-! # Units by number

The classes of units are told by numbers (`CodeUnit.isBlank_iff`, `CodeUnit.isWord_iff`), so that
arithmetic decides which of them meet. -/

namespace Scopewright
namespace CodeUnit

variable {c d : CodeUnit}

theorem toNat_inj : c.toNat = d.toNat ↔ c = d := by
  constructor
  · intro h
    cases c
    cases d
    exact congrArg CodeUnit.mk (UInt16.toNat_inj.mp h)
  · rintro rfl
    rfl

theorem ofNat_toNat (c : CodeUnit) : ofNat c.toNat = c := by
  cases c
  exact congrArg CodeUnit.mk UInt16.ofNat_toNat

theorem toNat_ofNat {n : Nat} (h : n < 0x10000) : (ofNat n).toNat = n :=
  Nat.mod_eq_of_lt h

theorem le_iff : c ≤ d ↔ c.toNat ≤ d.toNat := UInt16.le_iff_toNat_le

theorem within_iff {lo hi : CodeUnit} :
    c.within lo hi = true ↔ lo.toNat ≤ c.toNat ∧ c.toNat ≤ hi.toNat := by
  simp only [within, Bool.and_eq_true, decide_eq_true_eq, le_iff]

theorem isWord_iff : c.isWord = true ↔
    (97 ≤ c.toNat ∧ c.toNat ≤ 122) ∨ (65 ≤ c.toNat ∧ c.toNat ≤ 90) ∨
      (48 ≤ c.toNat ∧ c.toNat ≤ 57) ∨ c.toNat = 95 := by
  simp only [isWord, isLetter, isDigit, Bool.or_eq_true, within_iff, decide_eq_true_eq,
    ← toNat_inj, or_assoc]
  exact Iff.rfl

theorem isBlank_iff : c.isBlank = true ↔
    (9 ≤ c.toNat ∧ c.toNat ≤ 13) ∨ c.toNat = 32 ∨ c.toNat = 0xA0 ∨ c.toNat = 0x1680 ∨
      (0x2000 ≤ c.toNat ∧ c.toNat ≤ 0x200A) ∨ c.toNat = 0x2028 ∨ c.toNat = 0x2029 ∨
      c.toNat = 0x202F ∨ c.toNat = 0x205F ∨ c.toNat = 0x3000 ∨ c.toNat = 0xFEFF := by
  simp only [isBlank, Bool.or_eq_true, within_iff, decide_eq_true_eq, ← toNat_inj, or_assoc]
  exact Iff.rfl

theorem isWord_of_isDigit (h : c.isDigit = true) : c.isWord = true := by
  rw [isWord, h, Bool.or_true, Bool.true_or]

theorem isWord_of_isHexDigit (h : c.isHexDigit = true) : c.isWord = true := by
  simp only [isHexDigit, isWord, isDigit, isLetter, Bool.or_eq_true, within_iff] at h ⊢
  have hf : (ofBasic 'f').toNat = 102 ∧ (ofBasic 'z').toNat = 122 := ⟨rfl, rfl⟩
  have hF : (ofBasic 'F').toNat = 70 ∧ (ofBasic 'Z').toNat = 90 := ⟨rfl, rfl⟩
  omega

/-- A unit of a class is none that the class lacks. -/
theorem ne_of_class {p : CodeUnit → Bool} (h : p c = true) (hd : p d = false) : c ≠ d := by
  rintro rfl
  rw [h] at hd
  cases hd

theorem ne_of_isWord (h : c.isWord = true) (hd : d.isWord = false) : c ≠ d := ne_of_class h hd

theorem isBlank_of_isWord (h : c.isWord = true) : c.isBlank = false := by
  rw [isWord_iff] at h
  rw [Bool.eq_false_iff, Ne, isBlank_iff]
  omega

end CodeUnit
end Scopewright
