import Mathlib.Data.List.Chain
import Mathlib.Data.List.DropRight
import Mathlib.Data.List.Induction
import Mathlib.Data.List.Infix
import Scopewright.Proofs.Selector
import Scopewright.Proofs.Text.Find

/-! # The word being typed and the last name

A selector is scanned as far as it has been typed, and it is split into its names.  The scan asks of
a minus sign what stands in front of it, the splitting whether a name has begun.  Both start anew
behind a unit that stands between names, so only what follows the last of them counts
(`Selector.tail`).  There the scan finds the last name exactly when it takes just the minus signs at
the front for "without" (`Selector.agrees_iff_wordStart`), and that is when no two of them stand at
the front and each other one stands behind a unit of a name (`Selector.agrees_iff`). -/

namespace Scopewright
namespace Selector

/-- The minus sign. -/
def minus : CodeUnit := '-'

/-- What stands behind the last unit that stands between names. -/
def tail (s : Text) : Text := s.rtakeWhile fun c => !isCombinator c

/-- The name that has begun, after one more unit. -/
def extend (name : Text) (c : CodeUnit) : Text :=
  if isCombinator c || (decide (c = '-') && name.isEmpty) then [] else name ++ [c]

/-- The selector ends with a minus sign that means "without" where it is split: no name has begun in
front of it. -/
def EndsWithout (s : Text) : Prop := ∃ t, s = t ++ [minus] ∧ openName t = []

/-- The word being typed is the last name, or it is empty and no name is being typed. -/
def Agrees (s : Text) : Prop :=
  ((scan s 0).word ≠ [] ∧ ∃ a, (atoms s).getLast? = some a ∧ a.name = (scan s 0).word ∧
      (a.offset : ℤ) = (scan s 0).wordStart) ∨
    ((scan s 0).word = [] ∧
      (s = [] ∨ (∃ c, s.getLast? = some c ∧ isCombinator c = true) ∨ EndsWithout s))

/-! ### Splitting -/

theorem openFrom_concat (name s : Text) (c : CodeUnit) :
    openFrom name (s ++ [c]) = extend (openFrom name s) c := by
  induction s generalizing name with
  | nil => rfl
  | cons d s ih =>
      rw [List.cons_append, openFrom, openFrom]
      split
      · exact ih []
      · exact ih (name ++ [d])

theorem openName_concat (s : Text) (c : CodeUnit) :
    openName (s ++ [c]) = extend (openName s) c :=
  openFrom_concat [] s c

theorem openName_suffix (s : Text) : openName s <:+ s := by
  induction s using List.reverseRecOn with
  | nil => exact List.suffix_rfl
  | append_singleton s c ih =>
      rw [openName_concat, extend]
      split
      · exact List.nil_suffix
      · obtain ⟨front, hfront⟩ := ih
        exact ⟨front, by rw [← List.append_assoc, hfront]⟩

/-- A name that is completed ends in front of the unit that completes it. -/
theorem atomsFrom_eq (name r : Text) (i : ℕ) (hi : name.length ≤ i) : ∃ completed,
    atomsFrom name i r = completed ++ atomBefore (openFrom name r) (i + r.length) ∧
      ∀ a ∈ completed, a.offset + a.name.length < i + r.length := by
  induction r generalizing name i with
  | nil => exact ⟨[], rfl, by simp⟩
  | cons c r ih =>
      have hstop : i + (c :: r).length = i + 1 + r.length := by
        simp only [List.length_cons]
        omega
      rw [atomsFrom, openFrom, hstop]
      split
      · obtain ⟨completed, heq, hlt⟩ := ih [] (i + 1) (Nat.zero_le _)
        refine ⟨atomBefore name i ++ completed, by rw [heq, List.append_assoc], ?_⟩
        intro a ha
        rcases List.mem_append.mp ha with ha | ha
        · unfold atomBefore at ha
          split at ha
          · simp at ha
          · rw [List.mem_singleton.mp ha]
            simp only
            omega
        · exact hlt a ha
      · apply ih (name ++ [c]) (i + 1)
        simp only [List.length_append, List.length_singleton]
        omega

/-- The last name goes up to the end exactly when a name has begun there. -/
theorem getLast?_atoms_iff {s : Text} {a : Atom} :
    (atoms s).getLast? = some a ∧ a.offset + a.name.length = s.length ↔
      openName s ≠ [] ∧ a = ⟨openName s, s.length - (openName s).length⟩ := by
  obtain ⟨completed, heq, hlt⟩ := atomsFrom_eq [] s 0 (Nat.zero_le _)
  rw [Nat.zero_add] at heq hlt
  have hlength := (openName_suffix s).length_le
  rw [atoms, heq, ← openName, atomBefore]
  by_cases hnil : openName s = []
  · simp only [hnil, List.isEmpty_nil, if_true, List.append_nil, ne_eq, not_true_eq_false,
      false_and, iff_false, not_and]
    intro hlast
    have := hlt a (List.mem_of_getLast? hlast)
    omega
  · simp only [List.isEmpty_iff, hnil, if_false, List.getLast?_concat, Option.some.injEq, ne_eq,
      not_false_eq_true, true_and]
    constructor
    · rintro ⟨rfl, -⟩
      rfl
    · rintro rfl
      refine ⟨rfl, ?_⟩
      simp only
      omega

/-! ### Scanning -/

/-- Where the word being typed begins. -/
def wordStart (s : Text) : ℕ := (s.foldl Progress.read .start).wordStart

theorem foldl_read (s : Text) : (s.foldl Progress.read .start).next = s.length ∧
    (s.foldl Progress.read .start).previous = s.getLast? := by
  induction s using List.reverseRecOn with
  | nil => exact ⟨rfl, rfl⟩
  | append_singleton s c ih => simp [Progress.read, ih.1]

theorem wordStart_concat (s : Text) (c : CodeUnit) : wordStart (s ++ [c]) =
    if isCombinator c || isWithout s.getLast? c then s.length + 1 else wordStart s := by
  obtain ⟨hnext, hprevious⟩ := foldl_read s
  simp only [wordStart, List.foldl_append, List.foldl_cons, List.foldl_nil, Progress.read, hnext,
    hprevious]

theorem wordStart_le (s : Text) : wordStart s ≤ s.length := by
  induction s using List.reverseRecOn with
  | nil => exact Nat.le_refl 0
  | append_singleton s c ih =>
      rw [wordStart_concat, List.length_append, List.length_singleton]
      split <;> omega

/-- What stands between names is no unit of a name. -/
theorem isNameUnit_of_isCombinator {c : CodeUnit} (h : isCombinator c = true) :
    isNameUnit c = false := by
  have hall : ∀ d ∈ (" \t\n>,|&()" : Text), isNameUnit d = false := by decide
  exact hall c (Text.contains_iff.mp h)

/-! ### Behind the last combinator -/

theorem tail_concat (s : Text) (c : CodeUnit) :
    tail (s ++ [c]) = if isCombinator c then [] else tail s ++ [c] := by
  rw [tail, List.rtakeWhile_concat]
  cases isCombinator c <;> rfl

theorem getLast?_tail {s : Text} (h : tail s ≠ []) : (tail s).getLast? = s.getLast? := by
  obtain ⟨front, hfront⟩ : tail s <:+ s := List.rtakeWhile_suffix _ s
  have hlast := List.getLast?_append_of_ne_nil front h
  rw [hfront] at hlast
  exact hlast.symm

theorem isCombinator_of_tail {s : Text} (h : tail s = []) {c : CodeUnit}
    (hc : s.getLast? = some c) : isCombinator c = true := by
  obtain ⟨front, rfl⟩ := List.getLast?_eq_some_iff.mp hc
  rw [tail_concat] at h
  by_contra hne
  simp [hne] at h

/-- The name that has begun is what stands behind the last combinator, but for the minus signs in
front. -/
theorem openName_eq (s : Text) : openName s = (tail s).dropWhile (· = minus) := by
  induction s using List.reverseRecOn with
  | nil => rfl
  | append_singleton s c ih =>
      rw [openName_concat, extend, tail_concat, ih]
      cases hc : isCombinator c with
      | true => rfl
      | false =>
          rw [Bool.false_or, if_neg Bool.false_ne_true, List.dropWhile_append]
          by_cases hnil : (tail s).dropWhile (· = minus) = []
          · by_cases hminus : c = minus
            · simp [hminus, minus]
            · have hne : ¬ c = CodeUnit.ofBasic '-' := hminus
              simp [hne, hminus, hnil]
          · simp [hnil]

theorem tail_of_openName {s : Text} (h : openName s = []) : ∀ c ∈ tail s, c = minus := by
  rw [openName_eq, List.dropWhile_eq_nil_iff] at h
  intro c hc
  simpa using h c hc

/-! ### Agreement -/

/-- No name has begun at the end of a text that is empty or ends between names. -/
theorem openName_eq_nil_iff (s : Text) : openName s = [] ↔
    s = [] ∨ (∃ c, s.getLast? = some c ∧ isCombinator c = true) ∨ EndsWithout s := by
  constructor
  · intro h
    rcases List.eq_nil_or_concat s with hs | ⟨t, c, hs⟩
    · exact .inl hs
    · rw [List.concat_eq_append] at hs
      subst hs
      rw [openName_concat, extend] at h
      right
      by_cases hc : isCombinator c = true
      · exact .inl ⟨c, List.getLast?_concat, hc⟩
      · right
        have hminus : c = minus ∧ openName t = [] := by
          simpa [hc, minus] using h
        obtain ⟨rfl, ht⟩ := hminus
        exact ⟨t, rfl, ht⟩
  · rintro (rfl | ⟨c, hc, hcombinator⟩ | ⟨t, rfl, ht⟩)
    · rfl
    · obtain ⟨front, rfl⟩ := List.getLast?_eq_some_iff.mp hc
      rw [openName_concat, extend, hcombinator]
      rfl
    · rw [openName_concat, ht]
      decide

/-- The scan finds the last name exactly when the name that has begun is where it says. -/
theorem agrees_iff_wordStart (s : Text) :
    Agrees s ↔ wordStart s + (openName s).length = s.length := by
  have hscan : (scan s 0).word = s.drop (wordStart s) ∧ (scan s 0).wordStart = wordStart s := by
    refine ⟨rfl, ?_⟩
    show (0 : ℤ) + (wordStart s : ℤ) = wordStart s
    omega
  have hle := wordStart_le s
  have hword : (s.drop (wordStart s)).length = s.length - wordStart s := List.length_drop
  unfold Agrees
  rw [hscan.1, hscan.2]
  constructor
  · rintro (⟨hne, a, ha, hname, hoffset⟩ | ⟨hnil, hends⟩)
    · have hstop : a.offset + a.name.length = s.length := by
        rw [hname, hword]
        omega
      obtain ⟨-, rfl⟩ := getLast?_atoms_iff.mp ⟨ha, hstop⟩
      simp only at hname hstop
      rw [hname, hword]
      omega
    · rw [hnil, List.length_nil] at hword
      rw [(openName_eq_nil_iff s).mpr hends, List.length_nil]
      omega
  · intro heq
    by_cases hopen : openName s = []
    · right
      rw [hopen, List.length_nil] at heq
      exact ⟨List.drop_eq_nil_iff.mpr (by omega), (openName_eq_nil_iff s).mp hopen⟩
    · left
      obtain ⟨front, hfront⟩ := openName_suffix s
      have hlength := congrArg List.length hfront
      rw [List.length_append] at hlength
      have hdrop : s.drop (wordStart s) = openName s := by
        have hstart : wordStart s = front.length := by omega
        rw [hstart]
        conv_lhs => rw [← hfront]
        exact List.drop_left
      obtain ⟨hlast, hstop⟩ := getLast?_atoms_iff.mpr ⟨hopen, rfl⟩
      rw [hdrop]
      refine ⟨hopen, _, hlast, rfl, ?_⟩
      simp only
      omega

/-- A minus sign behind another unit stands behind one of a name. -/
def Joins (c d : CodeUnit) : Prop := d = minus → isNameUnit c = true

/-- A text in which no two minus signs stand at the front and every other one stands behind a unit
of a name. -/
def Clear (w : Text) : Prop := ¬ [minus, minus] <+: w ∧ w.IsChain Joins

theorem clear_concat_iff {w : Text} {c : CodeUnit} : Clear (w ++ [c]) ↔ Clear w ∧
    (c = minus → w ≠ [minus] ∧ ∀ d, w.getLast? = some d → isNameUnit d = true) := by
  have hpair : [minus, minus] = w ++ [c] ↔ w = [minus] ∧ c = minus := by
    constructor
    · intro h
      obtain ⟨hw, hc⟩ := List.append_inj' (show [minus] ++ [minus] = w ++ [c] from h) rfl
      exact ⟨hw.symm, (List.singleton_inj.mp hc).symm⟩
    · rintro ⟨rfl, rfl⟩
      rfl
  have hjoins : (∀ d ∈ w.getLast?, ∀ e ∈ [c].head?, Joins d e) ↔
      (c = minus → ∀ d, w.getLast? = some d → isNameUnit d = true) := by
    simp only [List.head?_cons, Option.mem_def, Option.some.injEq, forall_eq', Joins]
    exact ⟨fun h hc d hd => h d hd hc, fun h d hd hc => h hc d hd⟩
  rw [Clear, Clear, List.prefix_concat_iff, List.isChain_append, hpair, hjoins]
  simp only [List.isChain_singleton, true_and]
  tauto

/-- Of minus signs alone there is only one. -/
theorem Clear.eq_singleton {w : Text} (h : Clear w) (hne : w ≠ []) (hall : ∀ c ∈ w, c = minus) :
    w = [minus] := by
  match w with
  | [] => exact absurd rfl hne
  | [d] => rw [hall d (by simp)]
  | d :: e :: r =>
      refine absurd ⟨r, ?_⟩ h.1
      rw [hall d (by simp), hall e (by simp)]
      rfl

/-- A minus sign is read as "without" when no unit of a name stands in front of it. -/
theorem isWithout_minus (previous : Option CodeUnit) :
    isWithout previous minus = !previous.any isNameUnit := by
  simp [isWithout, minus]

/-- A minus sign at the end is taken alike by both ways of reading. -/
theorem wordStart_concat_minus {s : Text}
    (ih : wordStart s + (openName s).length = s.length ↔ Clear (tail s)) :
    wordStart (s ++ [minus]) + (openName (s ++ [minus])).length = s.length + 1 ↔
      Clear (tail s ++ [minus]) := by
  have hle := wordStart_le s
  have hunit : isNameUnit minus = true := by decide
  have hstart : wordStart (s ++ [minus]) =
      if s.getLast?.any isNameUnit then wordStart s else s.length + 1 := by
    rw [wordStart_concat, isWithout_minus, show isCombinator minus = false by decide]
    cases s.getLast?.any isNameUnit <;> rfl
  have hname : openName (s ++ [minus]) =
      if (openName s).isEmpty then [] else openName s ++ [minus] := by
    rw [openName_concat, extend, show isCombinator minus = false by decide, minus]
    cases (openName s).isEmpty <;> rfl
  rw [hstart, hname, clear_concat_iff, ← ih]
  by_cases htail : tail s = []
  · -- the minus sign stands at the front
    have hopen : openName s = [] := by rw [openName_eq, htail]; rfl
    have hprevious : s.getLast?.any isNameUnit = false := by
      cases hlast : s.getLast? with
      | none => rfl
      | some c => exact isNameUnit_of_isCombinator (isCombinator_of_tail htail hlast)
    have hclear := ih.mpr (by simp [htail, Clear])
    rw [hopen, List.length_nil, Nat.add_zero] at hclear
    simp [hopen, hprevious, htail, hclear]
  · obtain ⟨w, c, hw⟩ := (List.eq_nil_or_concat (tail s)).resolve_left htail
    rw [List.concat_eq_append] at hw
    have hlast : (tail s).getLast? = some c := by rw [hw, List.getLast?_concat]
    have hprevious : s.getLast?.any isNameUnit = isNameUnit c := by
      rw [← getLast?_tail htail, hlast]
      rfl
    by_cases hopen : openName s = []
    · -- there are minus signs in front of it, and nothing else
      obtain rfl : c = minus := tail_of_openName hopen c (by simp [hw])
      have hstop : ¬ wordStart s = s.length + 1 := by omega
      simp only [hopen, hprevious, hunit, List.isEmpty_nil, if_true, List.length_nil, Nat.add_zero,
        hstop, false_iff]
      rintro ⟨heq, hne⟩
      have hclear : Clear (tail s) := ih.mp (by rw [hopen, heq]; rfl)
      exact (hne trivial).1 (hclear.eq_singleton htail (tail_of_openName hopen))
    · -- a name has begun, and it ends with the unit in front
      have hne : tail s ≠ [minus] := by
        intro hminus
        rw [openName_eq, hminus] at hopen
        exact hopen rfl
      have hempty : (openName s).isEmpty = false := by simpa using hopen
      rw [hprevious, hempty, hlast]
      cases hc : isNameUnit c with
      | true =>
          simp [hne, hc]
          omega
      | false => simp [hne, hc]

theorem wordStart_iff (s : Text) : wordStart s + (openName s).length = s.length ↔
    Clear (tail s) := by
  induction s using List.reverseRecOn with
  | nil => simp [wordStart, openName, openFrom, tail, Progress.start, Clear]
  | append_singleton s c ih =>
      rw [List.length_append, List.length_singleton, tail_concat]
      cases hc : isCombinator c with
      | true => simp [wordStart_concat, openName_concat, extend, hc, Clear]
      | false =>
          rw [if_neg Bool.false_ne_true]
          by_cases hminus : c = minus
          · rw [hminus]
            exact wordStart_concat_minus ih
          · have hne : ¬ c = CodeUnit.ofBasic '-' := hminus
            rw [clear_concat_iff, ← ih, wordStart_concat, openName_concat, extend, hc, isWithout]
            simp [hne, hminus]
            omega

/-- **The word being typed is the last name**, or no name is being typed, exactly when behind the
last unit that stands between names no two minus signs stand at the front and every other minus sign
stands behind a unit of a name. -/
theorem agrees_iff (s : Text) :
    Agrees s ↔ ¬ [minus, minus] <+: tail s ∧ (tail s).IsChain Joins := by
  rw [agrees_iff_wordStart, wordStart_iff, Clear]

/-- Of two minus signs the scan takes the second one for part of the word, and of one behind a
letter that is not ASCII the splitting does. -/
theorem not_agrees :
    (scan "--a" 0).word = "-a" ∧ atoms "--a" = [⟨"a", 2⟩] ∧
      (scan "é-a" 0).word = "a" ∧ atoms "é-a" = [⟨"é-a", 0⟩] ∧ ¬ ∀ s, Agrees s := by
  refine ⟨by decide, by decide, by decide, by decide, ?_⟩
  intro h
  have hclear := (wordStart_iff "--a").mp ((agrees_iff_wordStart "--a").mp (h "--a"))
  exact hclear.1 (by decide)

end Selector
end Scopewright
