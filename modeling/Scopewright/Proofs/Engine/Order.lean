import Scopewright.Proofs.Engine.Progress

/-! # Changes are made in the order of the calls

A chain that any events have led to has made the changes of its first calls, in their order
(`Chain.Inv`, `Chain.Inv.run`).  The queue of the engine follows the chain (`Chain.exists_moves`).
`Chain.linearized` puts this together. -/

namespace Scopewright

open Disk (Reading)

namespace Engine

/-! ### What drives an engine -/

/-- What drives an engine: tasks that are taken up, and answers of a disk. -/
inductive Move where
  | enqueue (task : Reading Outcome)
  | step (d : Disk)

/-- The task that is taken up. -/
def Move.task? : Move → Option (Reading Outcome)
  | enqueue t => some t
  | _ => none

/-- The engine after a move. -/
def move (e : Engine) : Move → Engine
  | .enqueue t => e.enqueue t
  | .step d => (e.step d).1

/-- The engine after some moves. -/
def moves (e : Engine) (ms : List Move) : Engine := ms.foldl move e

/-- What a body that is not settled has left to do. -/
def Link.rest? (l : Link) : Option (Reading Outcome) :=
  match l.body with
  | .waiting => some l.task
  | .reading r => some r
  | .settled _ => none

namespace Chain

open Registry (Snapshot)

variable {tasks : List (Reading Outcome)} {outs : List Outcome} {finished released k : ℕ}
  {c c' : Chain} {l l' : Link} {e : Event}

/-! ### The changes so far -/

/-- A chain of some tasks, the first of which have finished with the given outcomes. -/
structure Inv (tasks : List (Reading Outcome)) (outs : List Outcome) (released : ℕ)
    (c : Chain) : Prop extends Shape tasks outs.length released c where
  outcomes : ∀ (k : ℕ) (o : Outcome), outs[k]? = some o →
    ∃ (t : Reading Outcome) (ds : List Disk), tasks[k]? = some t ∧ t.after ds = .done o
  registry_eq : c.registry = (Registry.empty.applyAll (outs.map (·.change))).1
  published_eq : c.published = Registry.empty.publications (outs.map (·.change))

namespace Inv

theorem of_empty : Inv [] [] 0 empty where
  toShape := shape_empty
  outcomes k o h := by cases h
  registry_eq := rfl
  published_eq := rfl

theorem call (h : Inv tasks outs released c) (t : Reading Outcome) :
    Inv (tasks ++ [t]) outs released (c.call t) where
  toShape := h.toShape.call t
  outcomes := by
    intro k o hk
    obtain ⟨u, ds, hu, hd⟩ := h.outcomes k o hk
    have hlt : k < tasks.length := (List.getElem?_eq_some_iff.mp hu).1
    exact ⟨u, ds, by rw [List.getElem?_append_left hlt, hu], hd⟩
  registry_eq := h.registry_eq
  published_eq := h.published_eq

/-- The change of the next call comes behind those made before. -/
theorem finish (h : Inv tasks outs released c) (hs : c.step? (.finish k) = some c') :
    ∃ o, Inv tasks (outs ++ [o]) released c' := by
  have hshape := h.toShape.finish hs
  obtain ⟨hk, _, l, o, hl, hb, rfl⟩ := h.of_finish hs
  obtain ⟨_, _, ds, hd⟩ := h.of_reading hl hb
  refine ⟨o, ?_, ?_, ?_, ?_⟩
  · rwa [List.length_append, List.length_singleton]
  · intro j p hj
    rcases Nat.lt_or_ge j outs.length with hlt | hge
    · rw [List.getElem?_append_left hlt] at hj
      exact h.outcomes j p hj
    · rw [List.getElem?_append_right hge] at hj
      obtain ⟨hz, rfl⟩ := List.getElem?_eq_some_iff.mp hj
      have hjk : j = k := by
        rw [List.length_singleton] at hz
        omega
      subst hjk
      refine ⟨l.task, ds, ?_, by simpa using hd.symm⟩
      rw [← h.tasks_eq, List.getElem?_map, hl]
      rfl
  · show (c.registry.apply o.change).1 = _
    rw [List.map_append, List.map_singleton, Registry.applyAll_concat, h.registry_eq]
  · show c.published ++ (c.registry.publishes o.change).toList = _
    rw [List.map_append, List.map_singleton, Registry.publications_concat, h.registry_eq,
      h.published_eq]

theorem step (h : Inv tasks outs released c) (hs : c.step? e = some c') :
    ∃ outs' released', Inv (tasks ++ e.task?.toList) outs' released' c' := by
  have hquiet : e.task? = none → tasks ++ e.task?.toList = tasks := by
    intro he
    rw [he]
    exact List.append_nil tasks
  cases e with
  | call t =>
      obtain rfl := Option.some.inj hs
      exact ⟨outs, released, h.call t⟩
  | start k =>
      rw [hquiet rfl]
      have hshape := h.toShape.start hs
      obtain ⟨_, _, l, _, _, rfl⟩ := h.of_start hs
      exact ⟨outs, released, hshape, h.outcomes, h.registry_eq, h.published_eq⟩
  | answer k d =>
      rw [hquiet rfl]
      have hshape := h.toShape.answer hs
      obtain ⟨_, _, l, q, next, _, _, rfl⟩ := h.of_answer hs
      exact ⟨outs, released, hshape, h.outcomes, h.registry_eq, h.published_eq⟩
  | finish k =>
      rw [hquiet rfl]
      obtain ⟨o, ho⟩ := h.finish hs
      exact ⟨outs ++ [o], released, ho⟩
  | release k =>
      rw [hquiet rfl]
      have hshape := h.toShape.release hs
      obtain ⟨_, _, l, how, _, _, rfl⟩ := h.of_release hs
      exact ⟨outs, released + 1, hshape, h.outcomes, h.registry_eq, h.published_eq⟩

end Inv

theorem run_concat (c : Chain) (es : List Event) (e : Event) :
    c.run (es ++ [e]) = ((c.run es).step? e).getD (c.run es) := by
  simp only [run, List.foldl_append, List.foldl_cons, List.foldl_nil]

/-- A call is always possible, so an event that is not possible calls nothing. -/
theorem task?_of_step?_eq_none (hs : c.step? e = none) : e.task? = none := by
  cases e with
  | call t => cases hs
  | start k => rfl
  | answer k d => rfl
  | finish k => rfl
  | release k => rfl

theorem filterMap_concat (es : List Event) (e : Event) :
    (es ++ [e]).filterMap Event.task? = es.filterMap Event.task? ++ e.task?.toList := by
  rw [List.filterMap_append]
  cases he : e.task? with
  | none => simp [he]
  | some t => simp [he]

theorem Inv.run (es : List Event) :
    ∃ outs released, Inv (es.filterMap Event.task?) outs released (empty.run es) := by
  induction es using List.reverseRecOn with
  | nil => exact ⟨[], 0, Inv.of_empty⟩
  | append_singleton es e ih =>
      obtain ⟨outs, released, h⟩ := ih
      rw [run_concat, filterMap_concat]
      cases hs : (empty.run es).step? e with
      | some c' => exact h.step hs
      | none =>
          rw [task?_of_step?_eq_none hs]
          exact ⟨outs, released, by simpa using h⟩

/-! ### The snapshots in between -/

/-- Snapshots that are in place stay listed. -/
theorem published_step (hs : c.step? e = some c') : c.published <+: c'.published := by
  cases e with
  | call t =>
      obtain rfl := Option.some.inj hs
      exact List.prefix_refl _
  | finish k =>
      obtain ⟨_, _, _, _, rfl⟩ := of_finish? hs
      exact List.prefix_append _ _
  | start k =>
      obtain ⟨_, _, _, _, rfl⟩ := of_onLink? hs
      exact List.prefix_refl _
  | answer k d =>
      obtain ⟨_, _, _, _, rfl⟩ := of_onLink? hs
      exact List.prefix_refl _
  | release k =>
      obtain ⟨_, _, _, _, rfl⟩ := of_onLink? hs
      exact List.prefix_refl _

theorem published_run (es : List Event) : ∀ c : Chain, c.published <+: (c.run es).published := by
  induction es with
  | nil => exact fun c => List.prefix_refl _
  | cons e es ih =>
      intro c
      cases hs : c.step? e with
      | none => simpa only [run, List.foldl_cons, hs, Option.getD_none] using ih c
      | some c' =>
          refine (published_step hs).trans ?_
          simpa only [run, List.foldl_cons, hs, Option.getD_some] using ih c'

/-- The snapshot that a query reads is the last one put in place. -/
theorem Inv.getLast?_published (h : Inv tasks outs released c) :
    (Snapshot.empty :: c.published).getLast? = some c.registry.snapshot := by
  rw [h.published_eq, h.registry_eq]
  exact Registry.getLast?_publications _ Registry.empty

/-! ### The queue of the engine -/

/-- What the bodies that are not settled have left to do, in the order of the calls. -/
def queue (c : Chain) : List (Reading Outcome) := c.links.filterMap Link.rest?

theorem rest?_of_settled {how : Settlement} (hb : l.body = .settled how) : l.rest? = none := by
  unfold Link.rest?
  rw [hb]

theorem filterMap_set {α β : Type} {f : α → Option β} {xs : List α} {x y : α}
    (hk : xs[k]? = some x) :
    (xs.set k y).filterMap f =
      (xs.take k).filterMap f ++ ((f y).toList ++ (xs.drop (k + 1)).filterMap f) := by
  obtain ⟨hlt, rfl⟩ := List.getElem?_eq_some_iff.mp hk
  rw [List.set_eq_take_append_cons_drop, if_pos hlt, List.filterMap_append, List.filterMap_cons]
  cases f y with
  | none => rfl
  | some b => rfl

theorem filterMap_get {α β : Type} {f : α → Option β} {xs : List α} {x : α}
    (hk : xs[k]? = some x) :
    xs.filterMap f =
      (xs.take k).filterMap f ++ ((f x).toList ++ (xs.drop (k + 1)).filterMap f) := by
  have hset : xs.set k x = xs := by
    obtain ⟨hlt, rfl⟩ := List.getElem?_eq_some_iff.mp hk
    exact List.set_getElem_self hlt
  rw [← filterMap_set hk, hset]

/-- A link that goes on with the same things to do leaves the queue as it is. -/
theorem queue_set (hk : c.links[k]? = some l) (hrest : l'.rest? = l.rest?) :
    queue { c with links := c.links.set k l' } = c.queue := by
  unfold queue
  rw [filterMap_set hk, filterMap_get hk, hrest]

/-- The next body is the first of the queue. -/
theorem Shape.filterMap_take (h : Shape tasks finished released c) :
    (c.links.take finished).filterMap Link.rest? = [] := by
  refine List.filterMap_eq_nil_iff.mpr fun l hl => ?_
  obtain ⟨k, hk⟩ := List.mem_iff_getElem?.mp hl
  have hlt : k < finished := by
    have := (List.getElem?_eq_some_iff.mp hk).1
    rw [List.length_take] at this
    omega
  rw [List.getElem?_take_of_lt hlt] at hk
  obtain ⟨how, hb⟩ := (h.link k l hk).settled hlt
  exact rest?_of_settled hb

/-- The engine follows each event with at most one move. -/
theorem Shape.exists_moves (h : Shape tasks finished released c) (hs : c.step? e = some c')
    (s : Settings) : ∃ ms : List Move, ms.filterMap Move.task? = e.task?.toList ∧
      moves ⟨c.registry, s, c.queue⟩ ms = ⟨c'.registry, s, c'.queue⟩ := by
  cases e with
  | call t =>
      obtain rfl := Option.some.inj hs
      refine ⟨[.enqueue t], rfl, ?_⟩
      have hq : (c.call t).queue = c.queue ++ [t] := by
        unfold queue Chain.call
        rw [List.filterMap_append]
        rfl
      rw [hq]
      rfl
  | start k =>
      obtain ⟨_, _, l, hk, hb, rfl⟩ := h.of_start hs
      refine ⟨[], rfl, ?_⟩
      rw [queue_set hk (by simp only [Link.rest?, hb])]
      rfl
  | answer k d =>
      obtain ⟨rfl, _, l, q, next, hk, hb, rfl⟩ := h.of_answer hs
      refine ⟨[.step d], rfl, ?_⟩
      unfold queue
      rw [filterMap_set hk, filterMap_get hk, h.filterMap_take]
      simp only [Link.rest?, hb]
      rfl
  | finish k =>
      obtain ⟨rfl, _, l, o, hk, hb, rfl⟩ := h.of_finish hs
      refine ⟨[.step .empty], rfl, ?_⟩
      unfold queue
      rw [filterMap_set hk, filterMap_get hk, h.filterMap_take]
      simp only [Link.rest?, hb]
      rfl
  | release k =>
      obtain ⟨_, _, l, how, hk, hb, rfl⟩ := h.of_release hs
      refine ⟨[], rfl, ?_⟩
      have hrest : Link.rest? { l with tail := some (.ok ()) } = l.rest? := rfl
      rw [queue_set hk hrest]
      rfl

theorem exists_moves (es : List Event) (s : Settings) :
    ∃ ms : List Move, ms.filterMap Move.task? = es.filterMap Event.task? ∧
      (start s).moves ms = ⟨(empty.run es).registry, s, (empty.run es).queue⟩ := by
  induction es using List.reverseRecOn with
  | nil => exact ⟨[], rfl, rfl⟩
  | append_singleton es e ih =>
      obtain ⟨ms, hms, hm⟩ := ih
      obtain ⟨outs, released, h⟩ := Inv.run es
      rw [run_concat, filterMap_concat]
      cases hs : (empty.run es).step? e with
      | none =>
          rw [task?_of_step?_eq_none hs]
          exact ⟨ms, by simpa using hms, hm⟩
      | some c' =>
          obtain ⟨ns, hns, hn⟩ := h.exists_moves hs s
          refine ⟨ms ++ ns, by rw [List.filterMap_append, hms, hns], ?_⟩
          unfold moves at hm hn ⊢
          rw [List.foldl_append, hm, hn]
          rfl

/-! ### All together -/

/-- For calls at any moments, and bodies that go on in any order: the changes made are those of the
first calls, in the order of the calls, each led to by the task of its call; the snapshots put in
place are those that these changes put in place one after the other, with those that failed left
out; at every moment a query reads the last of the snapshots put in place until then; when nothing
but calls can happen any more, which comes about in the end, the changes of all calls are made; and
some engine with a queue has done the same. -/
theorem linearized (es : List Event) (s : Settings) :
    ∃ outs : List Outcome,
      (∀ (k : ℕ) (o : Outcome), outs[k]? = some o → ∃ (t : Reading Outcome) (ds : List Disk),
        (es.filterMap Event.task?)[k]? = some t ∧ t.after ds = .done o) ∧
      (empty.run es).registry = (Registry.empty.applyAll (outs.map (·.change))).1 ∧
      (empty.run es).published = Registry.empty.publications (outs.map (·.change)) ∧
      (empty.run es).published =
        Registry.empty.publications ((outs.map (·.change)).filter fun ch => !ch.isFailed) ∧
      (∀ before rest : List Event, es = before ++ rest →
        (empty.run before).published <+: (empty.run es).published ∧
        (Snapshot.empty :: (empty.run before).published).getLast? =
          some (empty.run before).registry.snapshot) ∧
      ((∀ e : Event, e.task? = none → (empty.run es).step? e = none) →
        outs.length = (es.filterMap Event.task?).length) ∧
      Acc Quiet (empty.run es) ∧
      ∃ ms : List Move, ms.filterMap Move.task? = es.filterMap Event.task? ∧
        (start s).moves ms = ⟨(empty.run es).registry, s, (empty.run es).queue⟩ := by
  obtain ⟨outs, released, h⟩ := Inv.run es
  refine ⟨outs, h.outcomes, h.registry_eq, h.published_eq, ?_, ?_, ?_, acc_quiet _,
    exists_moves es s⟩
  · rw [Registry.publications_filter, h.published_eq]
  · rintro before rest rfl
    refine ⟨?_, ?_⟩
    · have := published_run rest (empty.run before)
      rwa [run, run, ← List.foldl_append] at this
    · obtain ⟨outs', released', h'⟩ := Inv.run before
      exact h'.getLast?_published
  · intro hstuck
    rw [h.finished_of_stuck hstuck, ← h.tasks_eq, List.length_map]

end Chain
end Engine
end Scopewright
