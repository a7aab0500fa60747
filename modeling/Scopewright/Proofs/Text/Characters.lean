import Mathlib.Data.List.Flatten
import Mathlib.Data.List.Infix
import Scopewright.Proofs.Text.Class

/-! # Units of characters

A character of the basic plane is one unit, which is no surrogate; any other one is a pair of them
(`CodeUnit.ofChar_cases`).  A character is therefore read off the units that it begins
(`CodeUnit.ofChar_append_inj`), and no character begins inside another one.  So one sequence of
characters stands at the front of another one, or inside it, just when its units do
(`Text.units_prefix_iff`, `Text.units_infix_iff`).

What is left of a text without its pairs of surrogates (`Text.singles`) are the units of its characters
of the basic plane (`Text.singles_units`). -/

namespace Scopewright

namespace CodeUnit

/-- A character of the basic plane. -/
def InBasicPlane (c : Char) : Prop := c.toNat < 0x10000

instance : DecidablePred InBasicPlane := fun c => inferInstanceAs (Decidable (c.toNat < 0x10000))

theorem isLeadSurrogate_iff {c : CodeUnit} :
    c.isLeadSurrogate = true ↔ 0xD800 ≤ c.toNat ∧ c.toNat ≤ 0xDBFF := by
  rw [isLeadSurrogate, within_iff, toNat_ofNat (by decide), toNat_ofNat (by decide)]

theorem isTrailSurrogate_iff {c : CodeUnit} :
    c.isTrailSurrogate = true ↔ 0xDC00 ≤ c.toNat ∧ c.toNat ≤ 0xDFFF := by
  rw [isTrailSurrogate, within_iff, toNat_ofNat (by decide), toNat_ofNat (by decide)]

/-- No character has the number of a surrogate. -/
theorem toNat_cases (c : Char) :
    c.toNat < 0xD800 ∨ (0xDFFF < c.toNat ∧ c.toNat < 0x110000) := by
  rcases c.valid with h | h
  · exact .inl h
  · exact .inr h

/-- One unit that is no surrogate, or a pair of surrogates. -/
theorem ofChar_cases (c : Char) :
    (InBasicPlane c ∧ ∃ u, ofChar c = [u] ∧ u.toNat = c.toNat ∧ u.isLeadSurrogate = false ∧
      u.isTrailSurrogate = false) ∨
    (¬ InBasicPlane c ∧ ∃ u v, ofChar c = [u, v] ∧ u.isLeadSurrogate = true ∧
      v.isTrailSurrogate = true ∧
      c.toNat = 0x10000 + (u.toNat - 0xD800) * 0x400 + (v.toNat - 0xDC00)) := by
  have hchar := toNat_cases c
  by_cases hc : InBasicPlane c
  · have hnat : (ofNat c.toNat).toNat = c.toNat := toNat_ofNat hc
    refine .inl ⟨hc, ofNat c.toNat, if_pos hc, hnat, ?_, ?_⟩
    · rw [Bool.eq_false_iff, Ne, isLeadSurrogate_iff, hnat]
      omega
    · rw [Bool.eq_false_iff, Ne, isTrailSurrogate_iff, hnat]
      omega
  · have hlarge : 0x10000 ≤ c.toNat := Nat.not_lt.mp hc
    have hlead : (ofNat (0xD800 + (c.toNat - 0x10000) / 0x400)).toNat =
        0xD800 + (c.toNat - 0x10000) / 0x400 := toNat_ofNat (by omega)
    have htrail : (ofNat (0xDC00 + (c.toNat - 0x10000) % 0x400)).toNat =
        0xDC00 + (c.toNat - 0x10000) % 0x400 := toNat_ofNat (by omega)
    refine .inr ⟨hc, _, _, if_neg hc, ?_, ?_, ?_⟩
    · rw [isLeadSurrogate_iff, hlead]
      omega
    · rw [isTrailSurrogate_iff, htrail]
      omega
    · rw [hlead, htrail]
      omega

/-- A character is read off its units, whatever follows. -/
theorem ofChar_append_inj {c d : Char} {s t : List CodeUnit}
    (h : ofChar c ++ s = ofChar d ++ t) : c = d ∧ s = t := by
  have hchar : c.toNat = d.toNat ∧ s = t := by
    rcases ofChar_cases c with ⟨-, u, hc, hu, hlead, -⟩ | ⟨-, u, v, hc, hlead, -, hu⟩ <;>
      rcases ofChar_cases d with ⟨-, u', hd, hu', hlead', -⟩ | ⟨-, u', v', hd, hlead', -, hu'⟩ <;>
      rw [hc, hd] at h
    · obtain ⟨rfl, hst⟩ := List.cons.inj h
      exact ⟨hu.symm.trans hu', hst⟩
    · obtain ⟨rfl, -⟩ := List.cons.inj h
      rw [hlead] at hlead'
      cases hlead'
    · obtain ⟨rfl, -⟩ := List.cons.inj h
      rw [hlead] at hlead'
      cases hlead'
    · obtain ⟨rfl, hrest⟩ := List.cons.inj h
      obtain ⟨rfl, hst⟩ := List.cons.inj hrest
      exact ⟨hu.trans hu'.symm, hst⟩
  exact ⟨Char.toNat_inj.mp hchar.1, hchar.2⟩

end CodeUnit

namespace Text

open CodeUnit (InBasicPlane ofChar ofChar_append_inj ofChar_cases)

variable {w l : List Char}

/-- The units of a sequence of characters. -/
def units (cs : List Char) : Text := cs.flatMap ofChar

theorem ofString_eq (s : String) : ofString s = units s.toList := rfl

theorem units_cons (c : Char) (cs : List Char) : units (c :: cs) = ofChar c ++ units cs := rfl

theorem ofChar_ne_nil (c : Char) : ofChar c ≠ [] := by
  rcases ofChar_cases c with ⟨-, u, hc, -⟩ | ⟨-, u, v, hc, -⟩ <;> rw [hc] <;>
    exact List.cons_ne_nil _ _

theorem units_prefix_iff : units w <+: units l ↔ w <+: l := by
  constructor
  · intro h
    induction w generalizing l with
    | nil => exact List.nil_prefix
    | cons c w ih =>
        obtain ⟨s, hs⟩ := h
        rw [units_cons, List.append_assoc] at hs
        cases l with
        | nil => exact absurd (List.append_eq_nil_iff.mp hs).1 (ofChar_ne_nil c)
        | cons d l =>
            obtain ⟨rfl, hrest⟩ := ofChar_append_inj hs
            exact List.cons_prefix_cons.mpr ⟨rfl, ih ⟨s, hrest⟩⟩
  · rintro ⟨r, rfl⟩
    exact ⟨units r, List.flatMap_append.symm⟩

theorem units_injective : Function.Injective units := by
  intro w l h
  have hwl : w <+: l := units_prefix_iff.mp (h ▸ List.prefix_refl _)
  have hlw : l <+: w := units_prefix_iff.mp (h ▸ List.prefix_refl _)
  exact hwl.eq_of_length_le hlw.length_le

/-- No character begins with the second unit of a pair. -/
theorem not_units_prefix_trail {v : CodeUnit} (hv : v.isTrailSurrogate = true) {t : Text}
    (h : units w <+: v :: t) : w = [] := by
  cases w with
  | nil => rfl
  | cons c w =>
      obtain ⟨s, hs⟩ := h
      rw [units_cons] at hs
      rcases ofChar_cases c with ⟨-, u, hc, -, -, htrail⟩ | ⟨-, u, u', hc, hlead, -⟩
      · rw [hc] at hs
        obtain ⟨rfl, -⟩ := List.cons.inj hs
        rw [hv] at htrail
        cases htrail
      · rw [hc] at hs
        obtain ⟨rfl, -⟩ := List.cons.inj hs
        rw [CodeUnit.isLeadSurrogate_iff] at hlead
        rw [CodeUnit.isTrailSurrogate_iff] at hv
        omega

theorem units_infix_iff : units w <:+: units l ↔ w <:+: l := by
  constructor
  · intro h
    induction l with
    | nil =>
        have hnil : units w = units [] := List.eq_nil_of_infix_nil h
        exact units_injective hnil ▸ List.infix_rfl
    | cons d l ih =>
        -- what stands at the front of all units is a sequence of characters there
        have hfront : units w <+: units (d :: l) → w <:+: d :: l := fun hw =>
          (units_prefix_iff.mp hw).isInfix
        rw [units_cons] at h hfront
        rcases ofChar_cases d with ⟨-, u, hd, -⟩ | ⟨-, u, v, hd, -, htrail, -⟩ <;> rw [hd] at h hfront
        · rcases List.infix_cons_iff.mp h with hw | hw
          · exact hfront hw
          · exact List.infix_cons (ih hw)
        · rcases List.infix_cons_iff.mp h with hw | hw
          · exact hfront hw
          · rcases List.infix_cons_iff.mp hw with hw | hw
            · exact not_units_prefix_trail htrail hw ▸ List.nil_infix
            · exact List.infix_cons (ih hw)
  · rintro ⟨before, behind, rfl⟩
    refine ⟨units before, units behind, ?_⟩
    rw [units, units, units, units, List.flatMap_append, List.flatMap_append]

/-! ### Characters of one unit -/

/-- A text without its pairs of surrogates. -/
def singles : Text → Text
  | [] => []
  | [c] => [c]
  | c :: d :: r =>
    if c.isLeadSurrogate && d.isTrailSurrogate then singles r else c :: singles (d :: r)

theorem singles_cons {c : CodeUnit} (h : c.isLeadSurrogate = false) (t : Text) :
    singles (c :: t) = c :: singles t := by
  cases t with
  | nil => rfl
  | cons d r => rw [singles, h, Bool.false_and, if_neg Bool.false_ne_true]

theorem singles_units (cs : List Char) :
    singles (units cs) = units (cs.filter fun c => decide (InBasicPlane c)) := by
  induction cs with
  | nil => rfl
  | cons c cs ih =>
      rw [units_cons]
      rcases ofChar_cases c with ⟨hbasic, u, hc, -, hlead, -⟩ | ⟨hbasic, u, v, hc, hlead, htrail, -⟩
      · rw [List.filter_cons_of_pos (by simpa using hbasic), units_cons, hc, List.singleton_append,
          singles_cons hlead, ih, List.singleton_append]
      · rw [List.filter_cons_of_neg (by simpa using hbasic), hc]
        show singles (u :: v :: units cs) = _
        rw [singles, hlead, htrail, Bool.and_self, if_pos rfl, ih]

theorem units_sublist (h : w.Sublist l) : (units w).Sublist (units l) := h.flatMap _

/-- The units of some characters of the basic plane are those of some of the characters. -/
theorem exists_of_sublist_units {t : Text} {cs : List Char} (hcs : ∀ c ∈ cs, InBasicPlane c)
    (h : t.Sublist (units cs)) : ∃ ds : List Char, t = units ds ∧ ds.Sublist cs := by
  induction cs generalizing t with
  | nil => exact ⟨[], List.sublist_nil.mp h, List.Sublist.slnil⟩
  | cons c cs ih =>
      obtain ⟨hc, hrest⟩ := List.forall_mem_cons.mp hcs
      rw [units_cons] at h
      rcases ofChar_cases c with ⟨-, u, hu, -⟩ | ⟨hnot, -⟩
      · rw [hu, List.singleton_append] at h
        cases h with
        | cons _ h =>
          obtain ⟨ds, rfl, hds⟩ := ih hrest h
          exact ⟨ds, rfl, hds.cons c⟩
        | cons_cons _ h =>
          obtain ⟨ds, rfl, hds⟩ := ih hrest h
          exact ⟨c :: ds, by rw [units_cons, hu, List.singleton_append], hds.cons_cons c⟩
      · exact absurd hc hnot

/-- The units of a word are among the single ones of a text just when the word is among its
characters and has no pairs. -/
theorem units_sublist_singles_iff : (units w).Sublist (singles (units l)) ↔
    w.Sublist l ∧ ∀ c ∈ w, InBasicPlane c := by
  have hfilter : ∀ c ∈ l.filter fun c => decide (InBasicPlane c), InBasicPlane c := fun c hc =>
    of_decide_eq_true (List.mem_filter.mp hc).2
  rw [singles_units]
  constructor
  · intro h
    obtain ⟨ds, hds, hsub⟩ := exists_of_sublist_units hfilter h
    obtain rfl := units_injective hds
    exact ⟨hsub.trans List.filter_sublist, fun c hc => hfilter c (hsub.mem hc)⟩
  · rintro ⟨hsub, hw⟩
    have hkept := hsub.filter fun c => decide (InBasicPlane c)
    rw [List.filter_eq_self.mpr fun c hc => decide_eq_true (hw c hc)] at hkept
    exact units_sublist hkept

end Text
end Scopewright
