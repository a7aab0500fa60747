import Scopewright.Engine.Basic

/-! # Tasks as a chain of promises

The queue of the engine (`Engine.queue`) is kept by promises (`Engine.Chain`).  A call chains the
body of its task to the pending promise and leaves a new one pending, which is fulfilled when the
body is settled, in either way (`Chain.call`).  A body begins when the promise before it is
fulfilled, asks the disk, and makes its change when it has no more questions.

Everything that can happen is an event (`Engine.Event`), and nothing says in which order the events
come: bodies may be begun, answered and finished at any time at which they are ready
(`Chain.step?`).  The chain lists the snapshots in the order in which they are put in place. -/

namespace Scopewright

open Disk (Reading)

namespace Registry

/-- The snapshot that a change puts in place.  A failed change puts none, and neither does the
dropping of a package that is not there. -/
def publishes (r : Registry) (c : Change) : Option Snapshot :=
  match c with
  | .replace _ _ | .scan _ => some (r.apply c).1.snapshot
  | .invalidate packageId =>
    if Table.has r.packages packageId then some (r.apply c).1.snapshot else none
  | .fail _ => none

/-- The snapshots that changes put in place one after the other. -/
def publications (r : Registry) : List Change → List Snapshot
  | [] => []
  | c :: cs => (r.publishes c).toList ++ publications (r.apply c).1 cs

end Registry

namespace Engine

/-- How a promise is settled: it is fulfilled, or a failure rejects it. -/
abbrev Settlement := Except Failure Unit

/-- How the promise of a task is settled. -/
def Outcome.settlement (o : Outcome) : Settlement :=
  match o.change with
  | .fail f => .error f
  | _ => .ok ()

/-- How far the body of a call has come. -/
inductive Body where
  | waiting
  | reading (rest : Reading Outcome)
  | settled (how : Settlement)

/-- What one call leaves in the chain. -/
structure Link where
  /-- The link whose tail the body waits for; none for the promise that is fulfilled from the
  start. -/
  before : Option Nat
  task : Reading Outcome
  body : Body
  /-- The promise that the next call waits for, once it is settled. -/
  tail : Option Settlement

namespace Link

/-- The body begins when the promise before it is fulfilled; a rejection is handed on. -/
def start? (l : Link) (before : Option Settlement) : Option Link :=
  match l.body, before with
  | .waiting, some (.ok ()) => some { l with body := .reading l.task }
  | .waiting, some (.error f) => some { l with body := .settled (.error f) }
  | _, _ => none

/-- The body gets the answer to its question. -/
def answer? (l : Link) (d : Disk) : Option Link :=
  match l.body with
  | .reading (.ask q next) => some { l with body := .reading (next (d.answer q)) }
  | _ => none

/-- The tail is fulfilled when the body is settled, in either way. -/
def release? (l : Link) : Option Link :=
  match l.body, l.tail with
  | .settled _, none => some { l with tail := some (.ok ()) }
  | _, _ => none

end Link

/-- The calls so far, and what has come of them. -/
structure Chain where
  links : List Link
  /-- The link whose tail the next call will wait for. -/
  pending : Option Nat
  registry : Registry
  /-- The snapshots put in place so far, the latest last. -/
  published : List Registry.Snapshot

/-- What can happen; links are told by their places. -/
inductive Event where
  | call (task : Reading Outcome)
  | start (k : Nat)
  | answer (k : Nat) (d : Disk)
  | finish (k : Nat)
  | release (k : Nat)

/-- The task that is called. -/
def Event.task? : Event → Option (Reading Outcome)
  | call t => some t
  | _ => none

namespace Chain

/-- No calls yet. -/
def empty : Chain := ⟨[], none, .empty, []⟩

variable (c : Chain)

/-- How the tail of a link is settled. -/
def tailOf : Option Nat → Option Settlement
  | none => some (.ok ())
  | some k => c.links[k]?.bind Link.tail

/-- Chains a task to the pending promise. -/
def call (t : Reading Outcome) : Chain :=
  { c with links := c.links ++ [⟨c.pending, t, .waiting, none⟩], pending := some c.links.length }

/-- Changes one link, if it can be changed. -/
def onLink? (k : Nat) (f : Link → Option Link) : Option Chain := do
  let l ← f (← c.links[k]?)
  return { c with links := c.links.set k l }

/-- The body of a link that has no more questions makes its change. -/
def finish? (k : Nat) : Option Chain := do
  let l ← c.links[k]?
  match l.body with
  | .reading (.done o) =>
    return { c with
      links := c.links.set k { l with body := .settled o.settlement }
      registry := (c.registry.apply o.change).1
      published := c.published ++ (c.registry.publishes o.change).toList }
  | _ => none

/-- What an event makes of the chain; nothing when it cannot happen. -/
def step? : Event → Option Chain
  | .call t => some (c.call t)
  | .start k => c.onLink? k fun l => l.start? (c.tailOf l.before)
  | .answer k d => c.onLink? k (·.answer? d)
  | .finish k => c.finish? k
  | .release k => c.onLink? k Link.release?

/-- The chain after some events, those that cannot happen left out. -/
def run (es : List Event) : Chain := es.foldl (fun c e => (c.step? e).getD c) c

end Chain
end Engine
end Scopewright
