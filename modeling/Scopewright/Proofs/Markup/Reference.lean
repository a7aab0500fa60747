import Mathlib.Data.List.Infix
import Mathlib.Data.List.TakeWhile
import Scopewright.Markup.Reference

/-! # Where references change what is read

Character data before the cursor is read from its front, and only a reference that does not stand
for itself (`Reference.Changes`) reads as anything but its own units.  Up to the first one the data
and what it reads as are therefore the same, and the rest is read by itself (`read_eq_append`).

Apart from the names of `Reference.bound`, which read as longer texts, every reference that changes
reads as fewer units than it is written with.  In data without such names (`Reference.Plain`) each
one moves what is read behind it nearer to the front (`length_read_lt`), so that an offset in the
data is no offset in what it reads as. -/

namespace Scopewright

theorem ok_of_map {ε α β : Type} {x : Except ε α} {f : α → β} {y : β} (h : x.map f = .ok y) :
    ∃ a, x = .ok a ∧ f a = y := by
  cases x with
  | error e => cases h
  | ok a => exact ⟨a, rfl, Except.ok.inj h⟩

theorem ok_of_bind {ε α β : Type} {x : Except ε α} {f : α → Except ε β} {y : β}
    (h : x.bind f = .ok y) : ∃ a, x = .ok a ∧ f a = .ok y := by
  cases x with
  | error e => cases h
  | ok a => exact ⟨a, rfl, h⟩

namespace Markup
namespace Reference

/-- A reference as it is written. -/
def written (body : Text) : Text := Text.ofString "&" ++ body ++ Text.ofString ";"

/-- The body of the reference that a text begins with. -/
def body? : Text → Option Text
  | [] => none
  | c :: r =>
    if c = '&' ∧ (r.drop (bodyEnd r).length).head? = some (CodeUnit.ofBasic ';')
        ∧ (typed? (bodyEnd r)).isSome then some (bodyEnd r)
    else none

/-- The text begins with a reference that does not stand for itself. -/
def Changes (t : Text) : Prop := ∃ b, body? t = some b ∧ typed? b ≠ some (.ok (written b))

/-- No reference in the text has a name that is bound without being an entity. -/
def Plain (t : Text) : Prop := ∀ i b, body? (t.drop i) = some b → bound.lookup b = none

variable {t u v b : Text} {c : CodeUnit} {r : Text} {n : ℕ}

theorem Plain.drop (h : Plain t) (n : ℕ) : Plain (t.drop n) := by
  intro i b hb
  rw [List.drop_drop] at hb
  exact h (n + i) b hb

/-! ### One unit -/

theorem readFrom_eq (k : ℕ) (t : Text) : readFrom k t = read (t.drop k) := by
  induction t generalizing k with
  | nil => rw [List.drop_nil]; cases k <;> rfl
  | cons c r ih =>
      cases k with
      | zero => rfl
      | succ k => rw [readFrom, ih, List.drop_succ_cons]

/-- A text begins with a unit that is read by itself, or with a reference. -/
theorem read_cases (c : CodeUnit) (r : Text) :
    (body? (c :: r) = none ∧ read (c :: r) = (read r).map (c :: ·)) ∨
    ∃ b x rest, body? (c :: r) = some b ∧ typed? b = some x ∧ CodeUnit.ofBasic '&' ∉ b ∧
      c :: r = written b ++ rest ∧ read (c :: r) = x.bind fun v => (read rest).map (v ++ ·) := by
  have hunfold : read (c :: r) = readFrom 0 (c :: r) := rfl
  rw [readFrom] at hunfold
  simp only [readFrom_eq, List.drop_zero] at hunfold
  by_cases hc : c = '&' ∧ (r.drop (bodyEnd r).length).head? = some (CodeUnit.ofBasic ';')
  · obtain ⟨rfl, hstop⟩ := hc
    rw [if_pos rfl, if_pos hstop] at hunfold
    cases htyped : typed? (bodyEnd r) with
    | none =>
        refine .inl ⟨by simp [body?, htyped], ?_⟩
        rw [hunfold, htyped]
    | some x =>
        obtain ⟨rest, hrest⟩ := List.head?_eq_some_iff.mp hstop
        have hr : r = bodyEnd r ++ CodeUnit.ofBasic ';' :: rest := by
          rw [← hrest]
          exact List.prefix_append_drop (List.takeWhile_prefix _)
        refine .inr ⟨bodyEnd r, x, rest, by simp [body?, hstop, htyped], htyped, ?_, ?_, ?_⟩
        · exact fun hmem => absurd (List.mem_takeWhile_imp hmem) (by decide)
        · nth_rewrite 1 [hr]
          rw [written, List.append_assoc]
          rfl
        · have hdrop : r.drop ((bodyEnd r).length + 1) = rest := by
            rw [← List.drop_drop, hrest, List.drop_one, List.tail_cons]
          rw [hunfold, htyped]
          cases x with
          | ok v => exact congrArg (fun s => (read s).map (v ++ ·)) hdrop
          | error e => rfl
  · refine .inl ⟨by rw [body?, if_neg fun h => hc ⟨h.1, h.2.1⟩], ?_⟩
    rw [hunfold]
    split
    · rw [if_neg fun hstop => hc ⟨‹_›, hstop⟩]
    · rfl

theorem read_append (h : CodeUnit.ofBasic '&' ∉ b) (t : Text) :
    read (b ++ t) = (read t).map (b ++ ·) := by
  induction b with
  | nil => cases hread : read t <;> simp [Except.map, hread]
  | cons d b ih =>
      rw [List.mem_cons, not_or] at h
      rcases read_cases d (b ++ t) with ⟨-, hread⟩ | ⟨_, _, _, -, -, -, hwritten, -⟩
      · rw [List.cons_append, hread, ih h.2]
        cases read t <;> rfl
      · exact absurd (List.cons.inj hwritten).1.symm h.1

/-- A reference that is none of the bound names stands for itself or for fewer units. -/
theorem length_typed (h : typed? b = some (.ok v)) (hbound : bound.lookup b = none)
    (hne : v ≠ written b) : v.length ≤ b.length := by
  cases b with
  | nil => cases h
  | cons c r =>
      rw [typed?] at h
      split at h
      · obtain ⟨m, hm, hv⟩ := Option.map_eq_some_iff.mp h
        have hr : r ≠ [] := by
          rintro rfl
          cases hm
        have hlength : v.length ≤ 2 := by
          rw [ofNumber] at hv
          split at hv
          · cases hv
          · rw [← Except.ok.inj hv, CodeUnit.ofCodePoint]
            split <;> simp
        have := List.length_pos_iff.mpr hr
        rw [List.length_cons]
        omega
      · split at h
        · have hv := Except.ok.inj (Option.some.inj h)
          split at hv
          · rw [← hv]
            exact Nat.succ_le_succ (Nat.zero_le _)
          · rw [hbound] at hv
            exact absurd hv.symm hne
        · cases h

/-- **One unit of character data.**  What stands behind it can be read, and the unit is read by
itself unless a reference begins with it that changes; then no more is read than behind it. -/
theorem exists_read_tail (h : read (c :: r) = .ok v) : ∃ u, read r = .ok u ∧
    ((¬ Changes (c :: r) ∧ v = c :: u) ∨
      (Changes (c :: r) ∧ (Plain (c :: r) → v.length ≤ u.length))) := by
  rcases read_cases c r with ⟨hbody, hread⟩ | ⟨b, x, rest, hbody, htyped, hunits, hr, hread⟩
  · obtain ⟨u, hu, rfl⟩ := ok_of_map (hread.symm.trans h)
    refine ⟨u, hu, .inl ⟨?_, rfl⟩⟩
    rintro ⟨b, hb, -⟩
    rw [hbody] at hb
    cases hb
  · obtain ⟨w, rfl, hrest⟩ := ok_of_bind (hread.symm.trans h)
    obtain ⟨y, hy, rfl⟩ := ok_of_map hrest
    obtain ⟨rfl, rfl⟩ : c = CodeUnit.ofBasic '&' ∧ r = (b ++ Text.ofString ";") ++ rest :=
      List.cons.inj hr
    have hstop : CodeUnit.ofBasic '&' ∉ b ++ Text.ofString ";" := by
      rw [List.mem_append, not_or]
      exact ⟨hunits, by decide⟩
    refine ⟨b ++ Text.ofString ";" ++ y, by rw [read_append hstop, hy]; rfl, ?_⟩
    by_cases hw : w = written b
    · refine .inl ⟨?_, by rw [hw]; rfl⟩
      rintro ⟨b', hb', hchanges⟩
      rw [hbody] at hb'
      rw [← Option.some.inj hb', htyped, hw] at hchanges
      exact hchanges rfl
    · refine .inr ⟨⟨b, hbody, fun h => hw (Except.ok.inj (Option.some.inj (htyped ▸ h)))⟩, ?_⟩
      intro hplain
      have hlength := length_typed htyped (hplain 0 b hbody) hw
      simp only [List.length_append]
      omega

/-! ### A text and what stands behind some of it -/

theorem exists_read_drop (h : read t = .ok v) (n : ℕ) : ∃ u, read (t.drop n) = .ok u := by
  induction n generalizing t v with
  | zero => exact ⟨v, h⟩
  | succ n ih =>
      cases t with
      | nil => exact ⟨[], rfl⟩
      | cons c r =>
          obtain ⟨u, hu, -⟩ := exists_read_tail h
          exact ih hu

/-- Units before the first reference that changes are read by themselves. -/
theorem read_eq_append (h : read t = .ok v) (hu : read (t.drop n) = .ok u)
    (hfree : ∀ i < n, ¬ Changes (t.drop i)) : v = t.take n ++ u := by
  induction n generalizing t v with
  | zero => exact Except.ok.inj (h.symm.trans hu)
  | succ n ih =>
      cases t with
      | nil => exact Except.ok.inj (h.symm.trans hu)
      | cons c r =>
          obtain ⟨v', hv', ⟨-, rfl⟩ | ⟨hchanges, -⟩⟩ := exists_read_tail h
          · have hrest := ih hv' hu fun i hi => hfree (i + 1) (Nat.succ_lt_succ hi)
            rw [List.take_succ_cons, List.cons_append, ← hrest]
          · exact absurd hchanges (hfree 0 (Nat.succ_pos n))

theorem length_read_le (hplain : Plain t) (h : read t = .ok v) (hu : read (t.drop n) = .ok u) :
    v.length ≤ n + u.length := by
  induction n generalizing t v with
  | zero =>
      rw [Except.ok.inj (h.symm.trans hu), Nat.zero_add]
  | succ n ih =>
      cases t with
      | nil =>
          rw [Except.ok.inj (h.symm.trans hu)]
          exact Nat.le_add_left _ _
      | cons c r =>
          obtain ⟨v', hv', hstep⟩ := exists_read_tail h
          have hrest := ih (hplain.drop 1) hv' hu
          obtain ⟨-, rfl⟩ | ⟨-, hlength⟩ := hstep
          · rw [List.length_cons]
            omega
          · have := hlength hplain
            omega

theorem length_le (hplain : Plain t) (h : read t = .ok v) : v.length ≤ t.length := by
  have hnil : read (t.drop t.length) = .ok [] := by
    rw [List.drop_length]
    rfl
  exact length_read_le hplain h hnil

/-- A reference that changes moves what is read behind it nearer to the front. -/
theorem length_read_lt (hplain : Plain t) (h : read t = .ok v) (hu : read (t.drop n) = .ok u)
    (hchanges : ∃ i < n, Changes (t.drop i)) : v.length < n + u.length := by
  induction n generalizing t v with
  | zero =>
      obtain ⟨i, hi, -⟩ := hchanges
      exact absurd hi (Nat.not_lt_zero i)
  | succ n ih =>
      cases t with
      | nil =>
          rw [Except.ok.inj (h.symm.trans hu)]
          omega
      | cons c r =>
          obtain ⟨v', hv', ⟨hfirst, rfl⟩ | ⟨-, hlength⟩⟩ := exists_read_tail h
          · obtain ⟨i, hi, hat⟩ := hchanges
            cases i with
            | zero => exact absurd hat hfirst
            | succ i =>
                have hrest := ih (hplain.drop 1) hv' hu ⟨i, Nat.lt_of_succ_lt_succ hi, hat⟩
                rw [List.length_cons]
                omega
          · have hle := length_read_le (hplain.drop 1) hv' hu
            have := hlength hplain
            omega

end Reference
end Markup
end Scopewright
