import Mathlib.Order.GameAdd
import Scopewright.Proofs.Engine.Chain

/-! # The chain comes to rest with every change made

A link that goes on comes nearer to its end (`Link.acc`), since a body asks only so many questions,
and every event other than a call lets one link go on (`Chain.goesOn_of_step?`).  So events other
than calls come to an end in every chain (`Chain.acc_quiet`), whatever the order they come in.  When
none of them can happen any more, every body is settled (`Chain.Shape.finished_of_stuck`). -/

namespace Scopewright

open Disk (Reading)

namespace Engine

/-! ### Links -/

namespace Link

/-- What can become of a link by one event: `GoesOn l' l` says that `l` can become `l'`. -/
inductive GoesOn : Link → Link → Prop
  | start {l l' : Link} {before : Option Settlement} : l.start? before = some l' → GoesOn l' l
  | answer {l l' : Link} {d : Disk} : l.answer? d = some l' → GoesOn l' l
  | finish {l : Link} {o : Outcome} : l.body = .reading (.done o) →
      GoesOn { l with body := .settled o.settlement } l
  | release {l l' : Link} : l.release? = some l' → GoesOn l' l

/-- A settled link only waits for its tail. -/
theorem goesOn_of_settled {l l' : Link} {how : Settlement} (hb : l.body = .settled how)
    (h : GoesOn l' l) : l.tail = none ∧ l' = { l with tail := some (.ok ()) } := by
  cases h with
  | start h =>
      simp only [start?, hb] at h
      cases h
  | answer h =>
      simp only [answer?, hb] at h
      cases h
  | finish h =>
      rw [hb] at h
      cases h
  | release h =>
      unfold release? at h
      split at h
      · rename_i ht
        exact ⟨ht, (Option.some.inj h).symm⟩
      · cases h

theorem acc_of_settled {l : Link} {how : Settlement} (hb : l.body = .settled how) :
    Acc GoesOn l := by
  refine Acc.intro l fun m hm => ?_
  obtain ⟨_, rfl⟩ := goesOn_of_settled hb hm
  refine Acc.intro _ fun n hn => ?_
  obtain ⟨ht, _⟩ := goesOn_of_settled (l := { l with tail := some (.ok ()) }) hb hn
  cases ht

/-- A link that is reading gets an answer or is settled. -/
theorem goesOn_of_reading {l l' : Link} {r : Reading Outcome} (hb : l.body = .reading r)
    (h : GoesOn l' l) :
    (∃ (q : Disk.Question) (next : q.Answer → Reading Outcome) (answer : q.Answer),
      r = .ask q next ∧ l'.body = .reading (next answer)) ∨ ∃ how, l'.body = .settled how := by
  cases h with
  | start h =>
      simp only [start?, hb] at h
      cases h
  | answer h =>
      rename_i d
      unfold answer? at h
      split at h
      · rename_i q next hq
        rw [hb] at hq
        obtain rfl := Option.some.inj h
        exact .inl ⟨q, next, d.answer q, Body.reading.inj hq, rfl⟩
      · cases h
  | finish h => exact .inr ⟨_, rfl⟩
  | release h =>
      simp only [release?, hb] at h
      cases h

/-- The induction is on the questions that the body has left. -/
theorem acc_of_reading (r : Reading Outcome) : ∀ l : Link, l.body = .reading r →
    Acc GoesOn l := by
  induction r with
  | done o =>
      intro l hb
      refine Acc.intro l fun m hm => ?_
      rcases goesOn_of_reading hb hm with ⟨q, next, answer, hq, _⟩ | ⟨how, hm⟩
      · cases hq
      · exact acc_of_settled hm
  | ask q next ih =>
      intro l hb
      refine Acc.intro l fun m hm => ?_
      rcases goesOn_of_reading hb hm with ⟨q', next', answer, hq, hm⟩ | ⟨how, hm⟩
      · cases hq
        exact ih answer m hm
      · exact acc_of_settled hm

theorem acc (l : Link) : Acc GoesOn l := by
  cases hb : l.body with
  | settled how => exact acc_of_settled hb
  | reading r => exact acc_of_reading r l hb
  | waiting =>
      refine Acc.intro l fun m hm => ?_
      cases hm with
      | start h =>
          unfold start? at h
          split at h
          · obtain rfl := Option.some.inj h
            exact acc_of_reading l.task _ rfl
          · obtain rfl := Option.some.inj h
            exact acc_of_settled rfl
          · cases h
      | answer h =>
          simp only [answer?, hb] at h
          cases h
      | finish h => exact acc_of_settled rfl
      | release h =>
          simp only [release?, hb] at h
          cases h

end Link

/-! ### Chains -/

namespace Chain

/-- One link of a chain goes on. -/
def OneGoesOn (ls' ls : List Link) : Prop :=
  ∃ k l l', ls[k]? = some l ∧ Link.GoesOn l' l ∧ ls' = ls.set k l'

theorem acc_cons (p : Link × List Link) (h : Acc (Prod.GameAdd Link.GoesOn OneGoesOn) p) :
    Acc OneGoesOn (p.1 :: p.2) := by
  induction h with
  | intro p _ ih =>
      refine Acc.intro _ fun ls' hls => ?_
      obtain ⟨k, l, l', hk, hl, rfl⟩ := hls
      cases k with
      | zero =>
          obtain rfl := Option.some.inj hk
          exact ih (l', p.2) (.fst hl)
      | succ k => exact ih (p.1, p.2.set k l') (.snd ⟨k, l, l', hk, hl, rfl⟩)

theorem acc_links (ls : List Link) : Acc OneGoesOn ls := by
  induction ls with
  | nil =>
      refine Acc.intro [] fun ls' hls => ?_
      obtain ⟨k, l, l', hk, _⟩ := hls
      cases hk
  | cons l ls ih => exact acc_cons (l, ls) ((Link.acc l).prod_gameAdd ih)

variable {tasks : List (Reading Outcome)} {finished released k : ℕ} {c c' : Chain} {l : Link}
  {e : Event}

theorem goesOn_of_step? (he : e.task? = none) (hs : c.step? e = some c') :
    OneGoesOn c'.links c.links := by
  cases e with
  | call t => cases he
  | start k =>
      obtain ⟨l, l', hk, hl, rfl⟩ := of_onLink? hs
      exact ⟨k, l, l', hk, .start hl, rfl⟩
  | answer k d =>
      obtain ⟨l, l', hk, hl, rfl⟩ := of_onLink? hs
      exact ⟨k, l, l', hk, .answer hl, rfl⟩
  | finish k =>
      obtain ⟨l, o, hk, hb, rfl⟩ := of_finish? hs
      exact ⟨k, l, _, hk, .finish hb, rfl⟩
  | release k =>
      obtain ⟨l, l', hk, hl, rfl⟩ := of_onLink? hs
      exact ⟨k, l, l', hk, .release hl, rfl⟩

/-- An event that calls nothing leads from one chain to the other. -/
def Quiet (c' c : Chain) : Prop := ∃ e : Event, e.task? = none ∧ c.step? e = some c'

theorem acc_quiet (c : Chain) : Acc Quiet c := by
  have hsub : Subrelation Quiet (InvImage OneGoesOn Chain.links) := by
    intro c₁ c₀ h
    obtain ⟨e, he, hs⟩ := h
    exact goesOn_of_step? he hs
  exact hsub.accessible (InvImage.accessible Chain.links (acc_links c.links))

theorem tailOf_of_released (h : Shape tasks finished released c) (hr : released = finished) :
    c.tailOf (previous finished) = some (.ok ()) := by
  cases finished with
  | zero => rfl
  | succ n =>
      have hn : n < c.links.length := h.finished_le
      have htail := (h.link n c.links[n] (List.getElem?_eq_getElem hn)).tail
      rw [if_pos (by omega)] at htail
      exact Option.bind_eq_some_iff.mpr ⟨_, List.getElem?_eq_getElem hn, htail⟩

/-- A chain at rest has no body that is not settled. -/
theorem Shape.finished_of_stuck (h : Shape tasks finished released c)
    (hstuck : ∀ e : Event, e.task? = none → c.step? e = none) :
    finished = c.links.length := by
  by_contra hne
  have hlt : finished < c.links.length := Nat.lt_of_le_of_ne h.finished_le hne
  have hget := List.getElem?_eq_getElem hlt
  have hnext := h.link finished _ hget
  rcases Nat.lt_or_ge released finished with hrel | hrel
  · have hlt' : released < c.links.length := Nat.lt_trans hrel hlt
    have hget' := List.getElem?_eq_getElem hlt'
    have hlast := h.link released _ hget'
    obtain ⟨how, hb⟩ := hlast.settled hrel
    have ht := hlast.tail
    rw [if_neg (Nat.lt_irrefl _)] at ht
    have := hstuck (.release released) rfl
    simp [step?, onLink?, hget', Link.release?, hb, ht] at this
  · have hrel : released = finished := Nat.le_antisymm h.released_le hrel
    rcases hnext.next rfl with hw | ⟨_, ds, hd⟩
    · have htail := tailOf_of_released h hrel
      rw [← hnext.before] at htail
      have := hstuck (.start finished) rfl
      simp [step?, onLink?, hget, Link.start?, hw, htail] at this
    · cases hr : c.links[finished].task.after ds with
      | done o =>
          rw [hr] at hd
          have := hstuck (.finish finished) rfl
          simp [step?, finish?, hget, hd] at this
      | ask q next =>
          rw [hr] at hd
          have := hstuck (.answer finished .empty) rfl
          simp [step?, onLink?, hget, Link.answer?, hd] at this

end Chain
end Engine
end Scopewright
