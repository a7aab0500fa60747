import Scopewright.Engine.Chain
import Scopewright.Proofs.Registry.History

/-! # The chain of promises makes changes in the order of the calls

`Chain.Shape` describes a chain by the numbers of its finished bodies and of its fulfilled tails:
bodies are finished in order, a tail is fulfilled behind each of them but perhaps the last, and at
most the next body is reading.  `Shape.of_start` and its like tell what an event can do to such a
chain: only the next body begins, is answered or finishes, and only the last tail is fulfilled.
`Shape.call`, `Shape.start` and the rest say that the chain then has such a shape again. -/

namespace Scopewright

open Disk (Reading)

namespace Disk
namespace Reading

variable {α : Type}

/-- A computation after some answers, each of them from a disk of its own. -/
def after (r : Reading α) (ds : List Disk) : Reading α := ds.foldl (fun r d => r.step d) r

theorem after_concat (r : Reading α) (ds : List Disk) (d : Disk) :
    r.after (ds ++ [d]) = (r.after ds).step d := by
  simp only [after, List.foldl_append, List.foldl_cons, List.foldl_nil]

end Reading
end Disk

namespace Registry

theorem publications_concat (cs : List Change) (c : Change) : ∀ r : Registry,
    r.publications (cs ++ [c]) =
      r.publications cs ++ ((r.applyAll cs).1.publishes c).toList := by
  induction cs with
  | nil => exact fun r => by simp only [publications, List.nil_append, List.append_nil, applyAll]
  | cons d cs ih =>
      intro r
      rw [List.cons_append, publications, ih, publications, List.append_assoc]
      rfl

/-- A change that puts no snapshot in place leaves the one that is there. -/
theorem snapshot_apply (r : Registry) (c : Change) :
    (r.apply c).1.snapshot = (r.publishes c).getD r.snapshot := by
  cases c with
  | replace p files => rfl
  | scan found => rfl
  | fail f => rfl
  | invalidate p =>
      simp only [publishes, apply, invalidate]
      split <;> rfl

/-- The snapshot in place is the last one that has been put there. -/
theorem getLast?_publications (cs : List Change) (r : Registry) :
    (r.snapshot :: r.publications cs).getLast? = some (r.applyAll cs).1.snapshot := by
  induction cs using List.reverseRecOn with
  | nil => rfl
  | append_singleton cs c ih =>
      rw [publications_concat, applyAll_concat, ← List.cons_append, List.getLast?_append, ih,
        snapshot_apply]
      cases (r.applyAll cs).1.publishes c with
      | none => rfl
      | some s => rfl

/-- The change is one that has failed. -/
def Change.isFailed : Change → Bool
  | .fail _ => true
  | _ => false

/-- Failed changes can be left out. -/
theorem publications_filter (cs : List Change) : ∀ r : Registry,
    r.publications (cs.filter fun c => !c.isFailed) = r.publications cs := by
  induction cs with
  | nil => exact fun _ => rfl
  | cons c cs ih =>
      intro r
      cases c with
      | fail f => exact ih r
      | replace p files => exact congrArg ((r.publishes _).toList ++ ·) (ih _)
      | scan found => exact congrArg ((r.publishes _).toList ++ ·) (ih _)
      | invalidate p => exact congrArg ((r.publishes _).toList ++ ·) (ih _)

end Registry

namespace Engine
namespace Chain

open Registry (Snapshot)

/-- The link that a link at some place is chained to. -/
def previous : ℕ → Option ℕ
  | 0 => none
  | k + 1 => some k

/-- A link at some place, behind `finished` finished bodies and `released` fulfilled tails. -/
structure LinkOk (finished released k : ℕ) (l : Link) : Prop where
  before : l.before = previous k
  settled : k < finished → ∃ how, l.body = .settled how
  waiting : finished < k → l.body = .waiting
  /-- The next body may be reading once all tails before it are fulfilled. -/
  next : k = finished → l.body = .waiting ∨
    (released = finished ∧ ∃ ds, l.body = .reading (l.task.after ds))
  tail : l.tail = if k < released then some (.ok ()) else none

/-- A chain of some tasks, of which the first `finished` have made their changes. -/
structure Shape (tasks : List (Reading Outcome)) (finished released : ℕ) (c : Chain) : Prop where
  tasks_eq : c.links.map Link.task = tasks
  pending_eq : c.pending = previous c.links.length
  link : ∀ k l, c.links[k]? = some l → LinkOk finished released k l
  finished_le : finished ≤ c.links.length
  released_le : released ≤ finished
  le_released : finished ≤ released + 1

theorem shape_empty : Shape [] 0 0 empty where
  tasks_eq := rfl
  pending_eq := rfl
  link k l h := by cases h
  finished_le := Nat.le_refl 0
  released_le := Nat.le_refl 0
  le_released := Nat.zero_le 1

variable {tasks : List (Reading Outcome)} {finished released finished' released' k : ℕ}
  {c c' : Chain} {l l' : Link}

theorem of_onLink? {f : Link → Option Link} (h : c.onLink? k f = some c') :
    ∃ l l', c.links[k]? = some l ∧ f l = some l' ∧
      c' = { c with links := c.links.set k l' } := by
  simp only [onLink?, Option.bind_eq_bind, Option.bind_eq_some_iff, Option.pure_def,
    Option.some.injEq] at h
  obtain ⟨l, hk, l', hf, rfl⟩ := h
  exact ⟨l, l', hk, hf, rfl⟩

theorem of_finish? (h : c.finish? k = some c') :
    ∃ l o, c.links[k]? = some l ∧ l.body = .reading (.done o) ∧
      c' = { c with
        links := c.links.set k { l with body := .settled o.settlement }
        registry := (c.registry.apply o.change).1
        published := c.published ++ (c.registry.publishes o.change).toList } := by
  simp only [finish?, Option.bind_eq_bind, Option.bind_eq_some_iff, Option.pure_def] at h
  obtain ⟨l, hk, hm⟩ := h
  split at hm
  · rename_i o hb
    exact ⟨l, o, hk, hb, (Option.some.inj hm).symm⟩
  · cases hm

theorem mem_set_links {ls : List Link} {j : ℕ} {m : Link} (h : (ls.set k l')[j]? = some m) :
    (j = k ∧ m = l') ∨ (j ≠ k ∧ ls[j]? = some m) := by
  rw [List.getElem?_set] at h
  split at h
  · rename_i hj
    split at h
    · exact .inl ⟨hj.symm, (Option.some.inj h).symm⟩
    · cases h
  · rename_i hj
    exact .inr ⟨fun he => hj he.symm, h⟩

theorem map_task_set {ls : List Link} (hk : ls[k]? = some l) (ht : l'.task = l.task) :
    (ls.set k l').map Link.task = ls.map Link.task := by
  refine List.ext_getElem? fun j => ?_
  rw [List.getElem?_map, List.getElem?_map, List.getElem?_set]
  split
  · rename_i hj
    subst hj
    obtain ⟨hlt, rfl⟩ := List.getElem?_eq_some_iff.mp hk
    simp [hlt, ht]
  · rfl

namespace Shape

/-! ### What an event can do -/

/-- The body of a link that is reading is the next one. -/
theorem of_reading (h : Shape tasks finished released c) (hk : c.links[k]? = some l)
    {r : Reading Outcome} (hr : l.body = .reading r) :
    k = finished ∧ released = finished ∧ ∃ ds, r = l.task.after ds := by
  have hl := h.link k l hk
  rcases Nat.lt_trichotomy k finished with hlt | heq | hgt
  · obtain ⟨how, hs⟩ := hl.settled hlt
    rw [hr] at hs
    cases hs
  · rcases hl.next heq with hw | ⟨hrel, ds, hd⟩
    · rw [hr] at hw
      cases hw
    · rw [hr] at hd
      exact ⟨heq, hrel, ds, Body.reading.inj hd⟩
  · have hw := hl.waiting hgt
    rw [hr] at hw
    cases hw

theorem tailOf_previous (h : Shape tasks finished released c) {s : Settlement}
    (hs : c.tailOf (previous k) = some s) : s = .ok () ∧ k ≤ released := by
  cases k with
  | zero => exact ⟨(Option.some.inj hs).symm, Nat.zero_le _⟩
  | succ k =>
      obtain ⟨l, hk, ht⟩ := Option.bind_eq_some_iff.mp hs
      have htail := (h.link k l hk).tail
      rw [ht] at htail
      split at htail
      · rename_i hlt
        exact ⟨Option.some.inj htail, hlt⟩
      · cases htail

/-- Only the next body can begin, when the tail before it is fulfilled. -/
theorem of_start (h : Shape tasks finished released c) (hs : c.step? (.start k) = some c') :
    k = finished ∧ released = finished ∧ ∃ l, c.links[k]? = some l ∧ l.body = .waiting ∧
      c' = { c with links := c.links.set k { l with body := .reading l.task } } := by
  obtain ⟨l, m, hk, hm, rfl⟩ := of_onLink? hs
  have hl := h.link k l hk
  unfold Link.start? at hm
  split at hm
  · rename_i hw ht
    rw [hl.before] at ht
    have hle := (h.tailOf_previous ht).2
    have hge : finished ≤ k := by
      by_contra hlt
      obtain ⟨how, hset⟩ := hl.settled (by omega)
      rw [hw] at hset
      cases hset
    have := h.released_le
    obtain rfl := Option.some.inj hm
    exact ⟨by omega, by omega, l, hk, hw, rfl⟩
  · rename_i ht
    rw [hl.before] at ht
    cases (h.tailOf_previous ht).1
  · cases hm

/-- Only the next body gets answers. -/
theorem of_answer (h : Shape tasks finished released c) {d : Disk}
    (hs : c.step? (.answer k d) = some c') :
    k = finished ∧ released = finished ∧ ∃ l q next, c.links[k]? = some l ∧
      l.body = .reading (.ask q next) ∧
      c' = { c with links := c.links.set k { l with body := .reading (next (d.answer q)) } } := by
  obtain ⟨l, m, hk, hm, rfl⟩ := of_onLink? hs
  unfold Link.answer? at hm
  split at hm
  · rename_i q next hb
    obtain rfl := Option.some.inj hm
    obtain ⟨hf, hr, _⟩ := h.of_reading hk hb
    exact ⟨hf, hr, l, q, next, hk, hb, rfl⟩
  · cases hm

/-- Only the next body makes its change. -/
theorem of_finish (h : Shape tasks finished released c) (hs : c.step? (.finish k) = some c') :
    k = finished ∧ released = finished ∧ ∃ l o, c.links[k]? = some l ∧
      l.body = .reading (.done o) ∧
      c' = { c with
        links := c.links.set k { l with body := .settled o.settlement }
        registry := (c.registry.apply o.change).1
        published := c.published ++ (c.registry.publishes o.change).toList } := by
  obtain ⟨l, o, hk, hb, rfl⟩ := of_finish? hs
  obtain ⟨hf, hr, _⟩ := h.of_reading hk hb
  exact ⟨hf, hr, l, o, hk, hb, rfl⟩

/-- Only the tail behind the last finished body can be fulfilled. -/
theorem of_release (h : Shape tasks finished released c) (hs : c.step? (.release k) = some c') :
    k = released ∧ released + 1 = finished ∧ ∃ l how, c.links[k]? = some l ∧
      l.body = .settled how ∧
      c' = { c with links := c.links.set k { l with tail := some (.ok ()) } } := by
  obtain ⟨l, m, hk, hm, rfl⟩ := of_onLink? hs
  have hl := h.link k l hk
  unfold Link.release? at hm
  split at hm
  · rename_i how hb ht
    have hge : released ≤ k := by
      by_contra hlt
      have htail := hl.tail
      rw [ht, if_pos (by omega)] at htail
      cases htail
    have hlt : k < finished := by
      by_contra hge
      rcases Nat.lt_or_ge finished k with hgt | hle
      · rw [hl.waiting hgt] at hb
        cases hb
      · rcases hl.next (by omega) with hw | ⟨_, ds, hd⟩
        · rw [hw] at hb
          cases hb
        · rw [hd] at hb
          cases hb
    have := h.le_released
    obtain rfl := Option.some.inj hm
    exact ⟨by omega, by omega, l, how, hk, hb, rfl⟩
  · cases hm

/-! ### Each event keeps the shape -/

theorem call (h : Shape tasks finished released c) (t : Reading Outcome) :
    Shape (tasks ++ [t]) finished released (c.call t) where
  tasks_eq := by
    rw [← h.tasks_eq]
    exact List.map_append
  pending_eq := by
    have hlen : (c.call t).links.length = c.links.length + 1 := List.length_append
    rw [hlen]
    rfl
  link := by
    intro k l hk
    rcases Nat.lt_or_ge k c.links.length with hlt | hge
    · exact h.link k l (by rwa [Chain.call, List.getElem?_append_left hlt] at hk)
    · rw [Chain.call, List.getElem?_append_right hge] at hk
      obtain ⟨hz, rfl⟩ := List.getElem?_eq_some_iff.mp hk
      have hkl : k = c.links.length := by
        rw [List.length_singleton] at hz
        omega
      have hf := h.finished_le
      have hr := h.released_le
      subst hkl
      simp only [Nat.sub_self, List.getElem_cons_zero]
      exact ⟨h.pending_eq, fun hlt => by omega, fun _ => rfl, fun _ => .inl rfl,
        by rw [if_neg (by omega)]⟩
  finished_le := by
    have hlen : (c.call t).links.length = c.links.length + 1 := List.length_append
    have := h.finished_le
    omega
  released_le := h.released_le
  le_released := h.le_released

/-- A change of one link that keeps its task, when the other links fit the new counts too. -/
theorem set (h : Shape tasks finished released c) (hk : c.links[k]? = some l)
    (hc : c'.links = c.links.set k l') (hp : c'.pending = c.pending) (ht : l'.task = l.task)
    (hl : LinkOk finished' released' k l')
    (ho : ∀ j m, j ≠ k → LinkOk finished released j m → LinkOk finished' released' j m)
    (hf : finished' ≤ c.links.length) (hr : released' ≤ finished')
    (hle : finished' ≤ released' + 1) : Shape tasks finished' released' c' where
  tasks_eq := by rw [hc, map_task_set hk ht, h.tasks_eq]
  pending_eq := by rw [hp, h.pending_eq, hc, List.length_set]
  link := by
    intro j m hj
    rw [hc] at hj
    rcases mem_set_links hj with ⟨rfl, rfl⟩ | ⟨hne, hj⟩
    · exact hl
    · exact ho j m hne (h.link j m hj)
  finished_le := by rwa [hc, List.length_set]
  released_le := hr
  le_released := hle

theorem lt_length (hk : c.links[k]? = some l) : k < c.links.length :=
  (List.getElem?_eq_some_iff.mp hk).1

theorem start (h : Shape tasks finished released c) (hs : c.step? (.start k) = some c') :
    Shape tasks finished released c' := by
  obtain ⟨rfl, rfl, l, hk, _, rfl⟩ := h.of_start hs
  have hl := h.link released l hk
  refine h.set hk rfl rfl rfl ?_ (fun _ _ _ hm => hm) h.finished_le h.released_le h.le_released
  exact ⟨hl.before, fun hlt => by omega, fun hlt => by omega, fun _ => .inr ⟨rfl, [], rfl⟩,
    hl.tail⟩

theorem answer (h : Shape tasks finished released c) {d : Disk}
    (hs : c.step? (.answer k d) = some c') : Shape tasks finished released c' := by
  obtain ⟨rfl, rfl, l, q, next, hk, hb, rfl⟩ := h.of_answer hs
  have hl := h.link released l hk
  obtain ⟨_, _, ds, hds⟩ := h.of_reading hk hb
  refine h.set hk rfl rfl rfl ?_ (fun _ _ _ hm => hm) h.finished_le h.released_le h.le_released
  refine ⟨hl.before, fun hlt => by omega, fun hlt => by omega, fun _ => ?_, hl.tail⟩
  refine .inr ⟨rfl, ds ++ [d], ?_⟩
  rw [Reading.after_concat, ← hds]
  rfl

theorem finish (h : Shape tasks finished released c) (hs : c.step? (.finish k) = some c') :
    Shape tasks (finished + 1) released c' := by
  obtain ⟨rfl, rfl, l, o, hk, _, rfl⟩ := h.of_finish hs
  have hl := h.link released l hk
  refine h.set hk rfl rfl rfl ?_ ?_ (lt_length hk) (Nat.le_succ _) (Nat.le_refl _)
  · exact ⟨hl.before, fun _ => ⟨_, rfl⟩, fun hlt => by omega, fun he => by omega, hl.tail⟩
  · intro j m hne hm
    exact ⟨hm.before, fun hlt => hm.settled (by omega), fun hlt => hm.waiting (by omega),
      fun he => .inl (hm.waiting (by omega)), hm.tail⟩

theorem release (h : Shape tasks finished released c) (hs : c.step? (.release k) = some c') :
    Shape tasks finished (released + 1) c' := by
  obtain ⟨rfl, hr, l, how, hk, hb, rfl⟩ := h.of_release hs
  have hl := h.link k l hk
  refine h.set hk rfl rfl rfl ?_ ?_ h.finished_le (by omega) (by omega)
  · exact ⟨hl.before, fun _ => ⟨how, hb⟩, fun hlt => by omega, fun he => by omega,
      (if_pos (Nat.lt_succ_self k)).symm⟩
  · intro j m hne hm
    refine ⟨hm.before, hm.settled, hm.waiting, fun he => ?_, ?_⟩
    · rcases hm.next he with hw | ⟨he', _⟩
      · exact .inl hw
      · omega
    · rw [hm.tail]
      exact if_congr (by omega) rfl rfl

end Shape

end Chain
end Engine
end Scopewright
