import Mathlib.Data.List.Basic
import Scopewright.Proofs.Json.Readback

/-! # Parts of a quoted string

A part of a body that has no escapes is read as it is written (`Quoted.unescape_eq_self_iff`), and what
stands behind it is read by itself (`Quoted.unescape_append`).  In general a body is read as no more
units than it has (`Quoted.length_unescape_le`), and where something is read that does not end with a
backslash, the body comes apart there: what has been read so far is the reading of its front, and
whatever part of that front is put before the rest, both are read apart (`Quoted.exists_parts`).

So a place that is found in what is read is the same place of the body just when no escape begins in
front of it (`Quoted.unescape_drop_iff`), and as many units at the end of the body as a word has are
read as the word just when the body ends with it (`Quoted.unescape_end_iff`). -/

namespace Scopewright
namespace Json
namespace Quoted

variable {a b p s t x y : Text} {c d : CodeUnit}

/-! ### The end of a text -/

theorem last_nil_ne : ([] : Text).getLast? ≠ some d := by
  rw [List.getLast?_nil]
  exact (Option.some_ne_none d).symm

theorem last_ne_of_cons (h : (c :: t).getLast? ≠ some d) : t.getLast? ≠ some d := by
  cases t with
  | nil => exact last_nil_ne
  | cons e r => rwa [List.getLast?_cons_cons] at h

theorem last_cons_ne (hc : t = [] → c ≠ d) (ht : t.getLast? ≠ some d) :
    (c :: t).getLast? ≠ some d := by
  cases t with
  | nil => exact fun h => hc rfl (Option.some.inj h)
  | cons e r => rwa [List.getLast?_cons_cons]

theorem last_cons_cons_ne {e : CodeUnit} (ht : (e :: t).getLast? ≠ some d) :
    (c :: e :: t).getLast? ≠ some d := by
  rwa [List.getLast?_cons_cons]

/-! ### The pass over letters -/

/-- Without two units there is at most one. -/
theorem nil_or_singleton (h : ∀ c d r, t = c :: d :: r → False) : t = [] ∨ ∃ c, t = [c] := by
  cases t with
  | nil => exact .inl rfl
  | cons c r =>
      cases r with
      | nil => exact .inr ⟨c, rfl⟩
      | cons d r => exact (h c d r rfl).elim

theorem readLetters_eq_nil (h : readLetters t = []) : t = [] := by
  fun_induction readLetters t with
  | case1 => cases h
  | case2 => cases h
  | case3 => cases h
  | case4 => exact h

theorem length_readLetters_le (t : Text) : (readLetters t).length ≤ t.length := by
  fun_induction readLetters t with
  | case1 c r hline ih => exact Nat.succ_le_succ ih
  | case2 c r hline ih => exact Nat.succ_le_succ (Nat.le_succ_of_le ih)
  | case3 c e r hc ih => exact Nat.succ_le_succ ih
  | case4 => exact Nat.le_refl _

theorem readLetters_short (h : t.length ≤ 1) : readLetters t = t := by
  have hshort : ∀ c d r, t = c :: d :: r → False := by
    rintro c d r rfl
    exact absurd h (by simp)
  obtain rfl | ⟨c, rfl⟩ := nil_or_singleton hshort
  · rfl
  · rfl

theorem ofLetter_eq_backslash_iff : ofLetter c = backslash ↔ c = backslash := by
  constructor
  · intro h
    unfold ofLetter at h
    split_ifs at h <;> first | exact h | exact absurd h (by decide)
  · rintro rfl
    decide

/-- What is read ends with a backslash only when the text does. -/
theorem last_readLetters_ne (h : t.getLast? ≠ some backslash) :
    (readLetters t).getLast? ≠ some backslash := by
  fun_induction readLetters t with
  | case1 c r hline ih =>
      refine last_cons_ne (fun hnil => ?_) (ih (last_ne_of_cons h))
      cases readLetters_eq_nil hnil
  | case2 c r hline ih =>
      have hr := last_ne_of_cons h
      refine last_cons_ne (fun hnil => ?_) (ih (last_ne_of_cons hr))
      rw [readLetters_eq_nil hnil] at hr
      exact fun hc => hr (congrArg some (ofLetter_eq_backslash_iff.mp hc))
  | case3 c e r hc ih => exact last_cons_ne (fun _ => hc) (ih (last_ne_of_cons h))
  | case4 => exact h

/-- Behind a text that does not end with a backslash the pass begins anew. -/
theorem readLetters_append (h : t.getLast? ≠ some backslash) (s : Text) :
    readLetters (t ++ s) = readLetters t ++ readLetters s := by
  fun_induction readLetters t with
  | case1 c r hline ih =>
      rw [List.cons_append, List.cons_append, readLetters, if_pos rfl, if_pos hline,
        ← List.cons_append, ih (last_ne_of_cons h), List.cons_append]
  | case2 c r hline ih =>
      rw [List.cons_append, List.cons_append, readLetters, if_pos rfl, if_neg hline,
        ih (last_ne_of_cons (last_ne_of_cons h)), List.cons_append]
  | case3 c e r hc ih =>
      rw [List.cons_append, readLetters_cons hc, ih (last_ne_of_cons h), List.cons_append]
  | case4 t hshort =>
      obtain rfl | ⟨c, rfl⟩ := nil_or_singleton hshort
      · rfl
      · have hc : c ≠ backslash := fun hc => h (congrArg some hc)
        exact readLetters_cons hc s

/-- A text comes apart where something has been read that does not end with a backslash. -/
theorem exists_readLetters (h : readLetters t = x ++ y) (hx : x.getLast? ≠ some backslash) :
    ∃ a b, t = a ++ b ∧ readLetters a = x ∧ readLetters b = y ∧ a.getLast? ≠ some backslash := by
  induction t using readLetters.induct generalizing x with
  | case1 c r hline ih =>
      cases x with
      | nil => exact ⟨[], _, rfl, rfl, h, last_nil_ne⟩
      | cons z x =>
          rw [readLetters, if_pos rfl, if_pos hline] at h
          obtain ⟨rfl, hrest⟩ := List.cons.inj h
          obtain ⟨a, b, hab, rfl, hb, ha⟩ := ih hrest (last_ne_of_cons hx)
          cases a with
          | nil => exact absurd rfl hx
          | cons e a =>
              obtain ⟨rfl, rfl⟩ := List.cons.inj hab
              refine ⟨backslash :: c :: a, b, rfl, ?_, hb, last_cons_cons_ne ha⟩
              rw [readLetters, if_pos rfl, if_pos hline]
  | case2 c r hline ih =>
      cases x with
      | nil => exact ⟨[], _, rfl, rfl, h, last_nil_ne⟩
      | cons z x =>
          rw [readLetters, if_pos rfl, if_neg hline] at h
          obtain ⟨rfl, hrest⟩ := List.cons.inj h
          obtain ⟨a, b, rfl, rfl, hb, ha⟩ := ih hrest (last_ne_of_cons hx)
          refine ⟨backslash :: c :: a, b, rfl, ?_, hb, last_cons_cons_ne (last_cons_ne ?_ ha)⟩
          · rw [readLetters, if_pos rfl, if_neg hline]
          · rintro rfl hc
            exact hx (congrArg some (ofLetter_eq_backslash_iff.mpr hc))
  | case3 c e r hc ih =>
      cases x with
      | nil => exact ⟨[], _, rfl, rfl, h, last_nil_ne⟩
      | cons z x =>
          rw [readLetters_cons hc] at h
          obtain ⟨rfl, hrest⟩ := List.cons.inj h
          obtain ⟨a, b, hab, rfl, hb, ha⟩ := ih hrest (last_ne_of_cons hx)
          refine ⟨c :: a, b, congrArg (c :: ·) hab, readLetters_cons hc a, hb, ?_⟩
          exact last_cons_ne (fun _ => hc) ha
  | case4 t hshort =>
      have hlength : t.length ≤ 1 := by
        obtain rfl | ⟨c, rfl⟩ := nil_or_singleton hshort
        · exact Nat.zero_le 1
        · exact Nat.le_refl 1
      rw [readLetters_short hlength] at h
      subst h
      rw [List.length_append] at hlength
      exact ⟨x, y, rfl, readLetters_short (by omega), readLetters_short (by omega), hx⟩

/-! ### The pass over numbers -/

theorem readNumbers_cons (h : c ≠ backslash) (s : Text) :
    readNumbers (c :: s) = c :: readNumbers s := by
  rw [readNumbers_eq, readNumbers_eq, replaceNumbers_cons h]

theorem readNumbers_number {r : Text} (h : number? s = some (d, r)) :
    readNumbers (backslash :: s) = d :: readNumbers r := by
  rw [readNumbers_eq, readNumbers_eq, replaceNumbers_number h, List.singleton_append]

theorem readNumbers_of_none (h : number? s = none) :
    readNumbers (backslash :: s) = backslash :: readNumbers s := by
  rw [readNumbers_eq, readNumbers_eq, replaceNumbers_of_none h]

theorem number?_append {r : Text} (h : number? s = some (d, r)) (t : Text) :
    number? (s ++ t) = some (d, r ++ t) := by
  obtain ⟨digits, hlength, hdigits, rfl, rfl⟩ := number?_eq_some h
  rw [List.cons_append, List.append_assoc]
  exact number?_digits hlength hdigits (r ++ t)

theorem number?_eq_none_of_append (h : number? (s ++ t) = none) : number? s = none := by
  cases hs : number? s with
  | none => rfl
  | some dr =>
      rw [number?_append hs] at h
      cases h

theorem readNumbers_of_front (h : c = backslash → number? s = none) :
    readNumbers (c :: s) = c :: readNumbers s := by
  by_cases hc : c = backslash
  · rw [hc, readNumbers_of_none (h hc)]
  · exact readNumbers_cons hc s

theorem readNumbers_eq_nil (h : readNumbers t = []) : t = [] := by
  cases t with
  | nil => rfl
  | cons c s =>
      by_cases hc : c = backslash
      · subst hc
        cases hs : number? s with
        | none =>
            rw [readNumbers_of_none hs] at h
            cases h
        | some dr =>
            rw [readNumbers_number hs] at h
            cases h
      · rw [readNumbers_cons hc] at h
        cases h

/-- Two parts of a body: escapes by number are found apart in them, and what is read of the first one
does not end with a backslash; and so it is for every end of the first one. -/
structure Parts (a b : Text) : Prop where
  numbers : ∀ e, e <:+ a → readNumbers (e ++ b) = readNumbers e ++ readNumbers b
  last : ∀ e, e <:+ a → (readNumbers e).getLast? ≠ some backslash

namespace Parts

theorem nil (b : Text) : Parts [] b where
  numbers e he := by rw [List.suffix_nil.mp he]; rfl
  last e he := by rw [List.suffix_nil.mp he]; exact last_nil_ne

/-- A unit in front that begins no escape by number. -/
theorem cons (h : Parts a b) (hc : a = [] → c ≠ backslash)
    (hnumber : c = backslash → number? (a ++ b) = none) : Parts (c :: a) b := by
  have hnone : c = backslash → number? a = none := fun hback =>
    number?_eq_none_of_append (hnumber hback)
  constructor
  · intro e he
    rcases List.suffix_cons_iff.mp he with rfl | he
    · rw [List.cons_append, readNumbers_of_front hnumber, readNumbers_of_front hnone,
        h.numbers a List.suffix_rfl, List.cons_append]
    · exact h.numbers e he
  · intro e he
    rcases List.suffix_cons_iff.mp he with rfl | he
    · rw [readNumbers_of_front hnone]
      exact last_cons_ne (fun hnil => hc (readNumbers_eq_nil hnil)) (h.last a List.suffix_rfl)
    · exact h.last e he

/-- Units in front that are no backslashes. -/
theorem append (h : Parts a b) (hp : ∀ c ∈ p, c ≠ backslash) : Parts (p ++ a) b := by
  induction p with
  | nil => exact h
  | cons c p ih =>
      obtain ⟨hc, hp⟩ := List.forall_mem_cons.mp hp
      exact (ih hp).cons (fun _ => hc) fun hback => absurd hback hc

/-- The backslash of an escape by number. -/
theorem number {r : Text} (h : Parts s b) (hs : number? s = some (d, r))
    (hd : r = [] → d ≠ backslash) : Parts (backslash :: s) b := by
  have hr : r <:+ s := by
    obtain ⟨digits, -, -, rfl, -⟩ := number?_eq_some hs
    exact (List.suffix_append digits r).trans (List.suffix_cons _ _)
  constructor
  · intro e he
    rcases List.suffix_cons_iff.mp he with rfl | he
    · rw [List.cons_append, readNumbers_number (number?_append hs b), readNumbers_number hs,
        h.numbers r hr, List.cons_append]
    · exact h.numbers e he
  · intro e he
    rcases List.suffix_cons_iff.mp he with rfl | he
    · rw [readNumbers_number hs]
      exact last_cons_ne (fun hnil => hd (readNumbers_eq_nil hnil)) (h.last r hr)
    · exact h.last e he

end Parts

theorem exists_readNumbers (h : readNumbers t = x ++ y) (hx : x.getLast? ≠ some backslash) :
    ∃ a b, t = a ++ b ∧ readNumbers a = x ∧ readNumbers b = y ∧ Parts a b := by
  induction ht : t.length using Nat.strongRecOn generalizing t x with
  | ind n ih =>
    subst ht
    cases x with
    | nil => exact ⟨[], t, rfl, rfl, h, .nil t⟩
    | cons z x =>
      -- a unit that is read alone may be the last one, and is no backslash then
      have hz : x = [] → z ≠ backslash := by
        rintro rfl hz
        exact hx (congrArg some hz)
      cases t with
      | nil => cases h
      | cons c s =>
        by_cases hnumber : c = backslash → number? s = none
        · rw [readNumbers_of_front hnumber] at h
          obtain ⟨rfl, hrest⟩ := List.cons.inj h
          obtain ⟨a, b, rfl, rfl, hb, hparts⟩ :=
            ih s.length (Nat.lt_succ_self _) hrest (last_ne_of_cons hx) rfl
          have hnone : c = backslash → number? a = none := fun hback =>
            number?_eq_none_of_append (hnumber hback)
          refine ⟨c :: a, b, rfl, readNumbers_of_front hnone, hb, hparts.cons ?_ hnumber⟩
          rintro rfl
          exact hz rfl
        · obtain ⟨rfl, hsome⟩ := Classical.not_imp.mp hnumber
          obtain ⟨⟨d, r⟩, hs⟩ := Option.ne_none_iff_exists'.mp hsome
          rw [readNumbers_number hs] at h
          obtain ⟨rfl, hrest⟩ := List.cons.inj h
          obtain ⟨digits, hlength, hdigits, rfl, hd⟩ := number?_eq_some hs
          have hshort : r.length < (backslash :: CodeUnit.ofBasic 'u' :: (digits ++ r)).length := by
            simp only [List.length_cons, List.length_append]
            omega
          obtain ⟨a, b, rfl, rfl, hb, hparts⟩ := ih r.length hshort hrest (last_ne_of_cons hx) rfl
          have hword : ∀ e ∈ CodeUnit.ofBasic 'u' :: digits, e ≠ backslash := fun e he =>
            CodeUnit.ne_of_isWord (isWord_of_mem_number hdigits e he) (by decide)
          have hfront := number?_digits hlength hdigits a
          rw [← hd] at hfront
          refine ⟨backslash :: CodeUnit.ofBasic 'u' :: (digits ++ a), b, ?_,
            readNumbers_number hfront, hb, (hparts.append hword).number hfront ?_⟩
          · rw [List.cons_append, List.cons_append, List.append_assoc]
          · rintro rfl
            exact hz rfl

/-! ### All passes -/

theorem dropOpenEscape_append (h : s = [] → p.getLast? ≠ some backslash) :
    dropOpenEscape (p ++ s) = p ++ dropOpenEscape s := by
  cases s with
  | nil =>
      rw [List.append_nil, (dropOpenEscape_eq_iff p).mpr (h rfl)]
      exact (List.append_nil p).symm
  | cons c s =>
      unfold dropOpenEscape
      rw [List.getLast?_append_cons]
      split
      · rw [List.dropLast_append_of_ne_nil (List.cons_ne_nil c s)]
      · rfl

theorem dropOpenEscape_cons (h : c = backslash → s ≠ []) :
    dropOpenEscape (c :: s) = c :: dropOpenEscape s :=
  dropOpenEscape_append (p := [c]) fun hs hc => h (Option.some.inj hc) hs

theorem exists_dropOpenEscape (h : dropOpenEscape t = x ++ y) (hx : x.getLast? ≠ some backslash) :
    ∃ z, t = x ++ z ∧ dropOpenEscape z = y := by
  have hprefix : x <+: t := by
    refine (h ▸ List.prefix_append x y : x <+: dropOpenEscape t).trans ?_
    unfold dropOpenEscape
    split
    · exact List.dropLast_prefix t
    · exact List.prefix_rfl
  obtain ⟨z, rfl⟩ := hprefix
  rw [dropOpenEscape_append fun _ => hx] at h
  exact ⟨z, rfl, List.append_cancel_left h⟩

theorem Parts.unescape (h : Parts a b) : unescape (a ++ b) = unescape a ++ unescape b := by
  have hlast := h.last a List.suffix_rfl
  have hread := last_readLetters_ne hlast
  unfold Quoted.unescape
  rw [h.numbers a List.suffix_rfl, readLetters_append hlast, dropOpenEscape_append fun _ => hread,
    (dropOpenEscape_eq_iff _).mpr hread]

theorem Parts.suffix {e : Text} (h : Parts a b) (he : e <:+ a) : Parts e b where
  numbers e' he' := h.numbers e' (he'.trans he)
  last e' he' := h.last e' (he'.trans he)

theorem Parts.unescape_ne_nil (h : Parts a b) (ha : a ≠ []) : Quoted.unescape a ≠ [] := by
  intro hnil
  unfold Quoted.unescape at hnil
  rw [(dropOpenEscape_eq_iff _).mpr (last_readLetters_ne (h.last a List.suffix_rfl))] at hnil
  exact ha (readNumbers_eq_nil (readLetters_eq_nil hnil))

/-- A body comes apart where something has been read that does not end with a backslash. -/
theorem exists_parts (h : unescape t = x ++ y) (hx : x.getLast? ≠ some backslash) :
    ∃ a b, t = a ++ b ∧ unescape a = x ∧ unescape b = y ∧ Parts a b := by
  obtain ⟨z, hz, hy⟩ := exists_dropOpenEscape h hx
  obtain ⟨m, n, hmn, rfl, rfl, hm⟩ := exists_readLetters hz hx
  obtain ⟨a, b, rfl, rfl, rfl, hparts⟩ := exists_readNumbers hmn hm
  exact ⟨a, b, rfl, (dropOpenEscape_eq_iff _).mpr hx, hy, hparts⟩

/-! ### Parts without escapes -/

/-- No escape begins in a text, so that it stands for itself: behind each backslash a line ends. -/
def Verbatim : Text → Prop
  | [] => True
  | c :: t => (c = backslash → t.head?.any CodeUnit.endsLine = true) ∧ Verbatim t

instance decidableVerbatim : (t : Text) → Decidable (Verbatim t)
  | [] => .isTrue trivial
  | _ :: t => @instDecidableAnd _ _ _ (decidableVerbatim t)

theorem Verbatim.of_notMem (h : backslash ∉ t) : Verbatim t := by
  induction t with
  | nil => trivial
  | cons c t ih =>
      rw [List.mem_cons, not_or] at h
      exact ⟨fun hc => absurd hc.symm h.1, ih h.2⟩

theorem unescape_cons (h : c = backslash → s.head?.any CodeUnit.endsLine = true) :
    unescape (c :: s) = c :: unescape s := by
  by_cases hc : c = backslash
  · subst hc
    cases s with
    | nil => exact absurd (h rfl) Bool.false_ne_true
    | cons d r =>
        have hline : d.endsLine = true := h rfl
        have hd : d ≠ backslash := by
          rintro rfl
          revert hline
          decide
        have hu : d ≠ CodeUnit.ofBasic 'u' := by
          rintro rfl
          revert hline
          decide
        unfold unescape
        rw [readNumbers_of_none (number?_cons_of_ne hu r), readNumbers_cons hd, readLetters, if_pos rfl,
          if_pos hline]
        exact dropOpenEscape_cons fun _ hnil => List.cons_ne_nil _ _ (readLetters_eq_nil hnil)
  · unfold unescape
    rw [readNumbers_cons hc, readLetters_cons hc]
    exact dropOpenEscape_cons fun hback => absurd hback hc

/-- What stands behind a part without escapes is read by itself. -/
theorem unescape_append (h : Verbatim p) (s : Text) : unescape (p ++ s) = p ++ unescape s := by
  induction p with
  | nil => rfl
  | cons c p ih =>
      obtain ⟨hc, hp⟩ := h
      rw [List.cons_append, unescape_cons, ih hp, List.cons_append]
      intro hback
      cases p with
      | nil => exact absurd (hc hback) Bool.false_ne_true
      | cons d r => exact hc hback

theorem length_readNumbers_le (t : Text) : (readNumbers t).length ≤ t.length := by
  rw [readNumbers_eq]
  exact (length_replaceNumbers (f := fun c => [c]) (fun c => by simp) t).1

theorem length_unescape_le (t : Text) : (unescape t).length ≤ t.length :=
  calc (unescape t).length ≤ (readLetters (readNumbers t)).length := length_dropOpenEscape_le _
    _ ≤ (readNumbers t).length := length_readLetters_le _
    _ ≤ t.length := length_readNumbers_le t

theorem Verbatim.of_readLetters (h : (readLetters t).length = t.length)
    (hlast : (readLetters t).getLast? ≠ some backslash) : Verbatim t := by
  induction t using readLetters.induct with
  | case1 c r hline ih =>
      rw [readLetters, if_pos rfl, if_pos hline] at h hlast
      exact ⟨fun _ => hline, ih (Nat.succ_inj.mp h) (last_ne_of_cons hlast)⟩
  | case2 c r hline ih =>
      have hle := length_readLetters_le r
      rw [readLetters, if_pos rfl, if_neg hline] at h
      simp only [List.length_cons] at h
      omega
  | case3 c d r hc ih =>
      rw [readLetters_cons hc] at h hlast
      exact ⟨fun hback => absurd hback hc, ih (Nat.succ_inj.mp h) (last_ne_of_cons hlast)⟩
  | case4 t hshort =>
      obtain rfl | ⟨c, rfl⟩ := nil_or_singleton hshort
      · trivial
      · exact ⟨fun hc => absurd (congrArg some hc) hlast, trivial⟩

/-- A part that is read as no fewer units than it has is free of escapes. -/
theorem Verbatim.of_length (h : t.length ≤ (unescape t).length) : Verbatim t := by
  have hletters := length_readLetters_le (readNumbers t)
  have hdrop := length_dropOpenEscape_le (readLetters (readNumbers t))
  unfold unescape at h
  have hspells : ¬ SpellsNumber t := by
    intro hspells
    have hlt := (length_replaceNumbers (f := fun c => [c]) (fun c => by simp) t).2 hspells
    rw [← readNumbers_eq] at hlt
    omega
  have hread : readNumbers t = t := by rw [readNumbers_eq, replaceNumbers_of_not hspells]
  rw [hread] at h hletters hdrop
  refine .of_readLetters (by omega) fun hlast => ?_
  unfold dropOpenEscape at h
  rw [if_pos hlast, List.length_dropLast] at h
  have hne : readLetters t ≠ [] := by
    intro hnil
    rw [hnil] at hlast
    cases hlast
  have := List.length_pos_iff.mpr hne
  omega

/-- A part stands for itself just when it has no escapes. -/
theorem unescape_eq_self_iff : unescape t = t ↔ Verbatim t := by
  constructor
  · intro h
    exact .of_length (Nat.le_of_eq (congrArg List.length h).symm)
  · intro h
    have hread := unescape_append h []
    rw [List.append_nil] at hread
    rw [hread]
    exact List.append_nil t

/-! ### Places in what is read -/

/-- Behind a place that is found in what is read, and not behind a backslash, the body is read as
what is read there, just when no escape begins in front of it. -/
theorem unescape_drop_iff (h : unescape t = x ++ y) (hx : x.getLast? ≠ some backslash) :
    unescape (t.drop x.length) = y ↔ Verbatim (t.take x.length) := by
  obtain ⟨a, b, rfl, rfl, rfl, hparts⟩ := exists_parts h hx
  have hle := length_unescape_le a
  rw [List.drop_append_of_le_length hle, List.take_append_of_le_length hle]
  constructor
  · -- what is left of the front in front of the rest is read apart from it
    intro hrest
    have hpart := hparts.suffix (List.drop_suffix (unescape a).length a)
    rw [hpart.unescape, List.append_left_eq_self] at hrest
    have hnil : a.drop (unescape a).length = [] :=
      Classical.byContradiction fun hne => hpart.unescape_ne_nil hne hrest
    have hall := List.drop_eq_nil_iff.mp hnil
    rw [List.take_of_length_le hall]
    exact .of_length hall
  · intro hfront
    have hread := unescape_append hfront (a.drop (unescape a).length ++ b)
    rw [← List.append_assoc, List.take_append_drop, hparts.unescape] at hread
    exact (List.append_inj_right hread (List.length_take_of_le hle).symm).symm

/-- As many units at the end of a body as a word has are read as the word just when the body ends with
it. -/
theorem unescape_end_iff {w : Text} (hw : w.length ≤ t.length) (hback : backslash ∉ w) :
    unescape (t.drop (t.length - w.length)) = w ↔ w <:+ t := by
  have hlength : (t.drop (t.length - w.length)).length = w.length := by
    rw [List.length_drop]
    omega
  rw [List.suffix_iff_eq_drop]
  constructor
  · intro h
    have hverbatim : Verbatim (t.drop (t.length - w.length)) := by
      refine .of_length (Nat.le_of_eq ?_)
      rw [h, hlength]
    rw [unescape_eq_self_iff.mpr hverbatim] at h
    exact h.symm
  · intro h
    rw [← h]
    exact unescape_eq_self_iff.mpr (.of_notMem hback)

end Quoted
end Json
end Scopewright
