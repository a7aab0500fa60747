import Mathlib.Data.List.Basic
import Scopewright.Selector

/-! # What selectors take for a name

The names in a selector (`Selector.names`) hold no unit that stands between names and do not begin
with a minus sign (`Selector.Plain`, `Selector.plain_of_mem_atoms`), and a text like this is one name
(`Selector.atoms_of_plain`).  So a text is its own only name exactly when it is like this
(`Selector.names_eq_singleton_iff`).  A text that is put between combinators adds its names to those
that stand around it (`Selector.names_between`). -/

namespace Scopewright
namespace Selector

/-- No unit stands between names, and the first one is no minus sign. -/
def Plain (name : Text) : Prop :=
  (∀ c ∈ name, isCombinator c = false) ∧ name.head? ≠ some (CodeUnit.ofBasic '-')

instance : DecidablePred Plain := fun _ => inferInstanceAs (Decidable (_ ∧ _))

theorem plain_nil : Plain [] := ⟨List.forall_mem_nil _, nofun⟩

theorem atomsFrom_of_plain {r : Text} (hr : ∀ c ∈ r, isCombinator c = false) {name : Text}
    (hname : name ≠ []) (i : ℕ) : atomsFrom name i r = atomBefore (name ++ r) (i + r.length) := by
  induction r generalizing name i with
  | nil => rw [atomsFrom, List.append_nil, List.length_nil, Nat.add_zero]
  | cons c r ih =>
      obtain ⟨hc, hr⟩ := List.forall_mem_cons.mp hr
      have hempty : name.isEmpty = false := by
        rw [Bool.eq_false_iff, Ne, List.isEmpty_iff]
        exact hname
      rw [atomsFrom, hc, hempty, Bool.and_false, Bool.or_false, if_neg Bool.false_ne_true,
        ih hr (List.concat_ne_nil c name), List.append_assoc, List.singleton_append,
        List.length_cons, Nat.add_assoc, Nat.add_comm 1]

theorem atoms_of_plain {t : Text} (h : Plain t) : atoms t = atomBefore t t.length := by
  cases t with
  | nil => rfl
  | cons c r =>
      obtain ⟨hc, hr⟩ := List.forall_mem_cons.mp h.1
      have hminus : ¬ c = CodeUnit.ofBasic '-' := fun hc => h.2 (congrArg some hc)
      rw [atoms, atomsFrom, hc, Bool.false_or, decide_eq_false hminus, Bool.false_and,
        if_neg Bool.false_ne_true, List.nil_append, atomsFrom_of_plain hr (List.cons_ne_nil c []),
        List.singleton_append, List.length_cons, Nat.zero_add, Nat.add_comm]

theorem atom_eq_of_plain {t : Text} (h : Plain t) {a : Atom} (ha : a ∈ atoms t) : a.name = t := by
  rw [atoms_of_plain h, atomBefore] at ha
  split at ha
  · cases ha
  · rw [List.mem_singleton.mp ha]

theorem plain_of_mem_atomBefore {name : Text} (h : Plain name) {i : ℕ} {a : Atom}
    (ha : a ∈ atomBefore name i) : Plain a.name ∧ a.name ≠ [] := by
  unfold atomBefore at ha
  split at ha
  · cases ha
  · rename_i hne
    rw [List.mem_singleton.mp ha]
    exact ⟨h, fun he => hne (List.isEmpty_iff.mpr he)⟩

/-- One more unit that is no combinator, and no minus sign at the front, keeps a name plain. -/
theorem Plain.concat {name : Text} (h : Plain name) {c : CodeUnit} (hc : isCombinator c = false)
    (hminus : name = [] → c ≠ CodeUnit.ofBasic '-') : Plain (name ++ [c]) := by
  refine ⟨?_, ?_⟩
  · intro d hd
    rcases List.mem_append.mp hd with hd | hd
    · exact h.1 d hd
    · rw [List.mem_singleton.mp hd]
      exact hc
  · cases name with
    | nil => exact fun he => hminus rfl (Option.some.inj he)
    | cons d name => exact h.2

theorem plain_of_mem_atomsFrom {r name : Text} (h : Plain name) {i : ℕ} {a : Atom}
    (ha : a ∈ atomsFrom name i r) : Plain a.name ∧ a.name ≠ [] := by
  induction r generalizing name i with
  | nil => exact plain_of_mem_atomBefore h ha
  | cons c r ih =>
      rw [atomsFrom] at ha
      split at ha
      · rcases List.mem_append.mp ha with ha | ha
        · exact plain_of_mem_atomBefore h ha
        · exact ih plain_nil ha
      · rename_i hc
        simp only [Bool.or_eq_true, Bool.and_eq_true, decide_eq_true_eq, List.isEmpty_iff, not_or,
          not_and'] at hc
        exact ih (h.concat (Bool.eq_false_iff.mpr hc.1) hc.2) ha

theorem plain_of_mem_atoms {t : Text} {a : Atom} (ha : a ∈ atoms t) :
    Plain a.name ∧ a.name ≠ [] :=
  plain_of_mem_atomsFrom plain_nil ha

/-! ### Names -/

/-- The name that goes on at the end of a text when `name` goes on in front of it. -/
def openFrom (name : Text) : Text → Text
  | [] => name
  | c :: r =>
    if isCombinator c || (decide (c = '-') && name.isEmpty) then openFrom [] r
    else openFrom (name ++ [c]) r

/-- The name at the end of a selector; none for no name. -/
def openName (selector : Text) : Text := openFrom [] selector

/-- The names in a selector. -/
def names (selector : Text) : List Text := (atoms selector).map (·.name)

/-- A text is its own only name exactly when it is one. -/
theorem names_eq_singleton_iff {t : Text} : names t = [t] ↔ Plain t ∧ t ≠ [] := by
  constructor
  · intro h
    obtain ⟨a, ha, hname⟩ := List.mem_map.mp (h ▸ List.mem_singleton_self t)
    exact hname ▸ plain_of_mem_atoms ha
  · rintro ⟨hplain, hne⟩
    rw [names, atoms_of_plain hplain, atomBefore, if_neg fun he => hne (List.isEmpty_iff.mp he)]
    rfl

theorem eq_of_mem_names {t name : Text} (h : Plain t) (hname : name ∈ names t) : name = t := by
  obtain ⟨a, ha, rfl⟩ := List.mem_map.mp hname
  exact atom_eq_of_plain h ha

theorem map_name_atomBefore (name : Text) (i j : ℕ) :
    (atomBefore name i).map (·.name) = (atomBefore name j).map (·.name) := by
  unfold atomBefore
  split <;> rfl

/-- The names do not depend on where the selector stands. -/
theorem map_name_atomsFrom (t name : Text) (i j : ℕ) :
    (atomsFrom name i t).map (·.name) = (atomsFrom name j t).map (·.name) := by
  induction t generalizing name i j with
  | nil => exact map_name_atomBefore name i j
  | cons c t ih =>
      rw [atomsFrom, atomsFrom]
      split
      · rw [List.map_append, List.map_append, map_name_atomBefore name i j, ih [] (i + 1) (j + 1)]
      · exact ih _ _ _

theorem atomsFrom_append_cons {c : CodeUnit} (hc : isCombinator c = true) (s t name : Text)
    (i : ℕ) : atomsFrom name i (s ++ c :: t) =
      atomsFrom name i s ++ atomsFrom [] (i + s.length + 1) t := by
  induction s generalizing name i with
  | nil => exact if_pos (by rw [hc, Bool.true_or])
  | cons d s ih =>
      have hstart : i + (d :: s).length + 1 = i + 1 + s.length + 1 := by
        rw [List.length_cons]
        omega
      rw [List.cons_append, atomsFrom, atomsFrom, ih, ih, hstart]
      split
      · rw [List.append_assoc]
      · rfl

theorem names_append_cons {c : CodeUnit} (hc : isCombinator c = true) (s t : Text) :
    names (s ++ c :: t) = names s ++ names t := by
  simp only [names, atoms]
  rw [atomsFrom_append_cons hc, List.map_append, map_name_atomsFrom t [] _ 0]

/-- A text may be put between two others as a name of its own: neither has a name that ends or begins
there. -/
def Fits (before behind : Text) : Prop :=
  (∀ c ∈ before.getLast?, isCombinator c = true) ∧ ∀ c ∈ behind.head?, isCombinator c = true

theorem names_between {before behind : Text} (h : Fits before behind) (t : Text) :
    names (before ++ t ++ behind) = names before ++ names t ++ names behind := by
  have hbehind (s : Text) : names (s ++ behind) = names s ++ names behind := by
    cases hb : behind with
    | nil => rw [List.append_nil]; exact (List.append_nil _).symm
    | cons c r =>
        have hc : isCombinator c = true := h.2 c (by rw [hb]; rfl)
        have hnames : names (c :: r) = names r := names_append_cons hc [] r
        rw [names_append_cons hc, hnames]
  have hbefore : names (before ++ t) = names before ++ names t := by
    rcases List.eq_nil_or_concat before with hb | ⟨r, c, hb⟩
    · rw [hb]
      rfl
    · have hc : isCombinator c = true := h.1 c (by rw [hb, List.concat_eq_append]; simp)
      have hnames : names (r ++ [c]) = names r := by
        rw [names_append_cons hc]
        exact List.append_nil _
      rw [hb, List.concat_eq_append, hnames, List.append_assoc, List.singleton_append,
        names_append_cons hc]
  rw [hbehind, hbefore]

end Selector
end Scopewright
