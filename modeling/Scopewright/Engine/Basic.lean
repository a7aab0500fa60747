import Scopewright.Completion.Loose
import Scopewright.Engine.Task
import Scopewright.Settings

/-! # The engine

The engine keeps the registry, the settings, and the tasks that are not finished
(`Engine`).  Tasks are taken up in the order in which they came: only the first one reads, and its
change is made before the next one begins (`Engine.step`).  Completion and diagnostics
read the registry that the finished tasks have left. -/

namespace Scopewright

open Engine (Task Outcome)
open Disk (Reading)

/-- The state of the engine. -/
structure Engine where
  registry : Registry
  settings : Settings
  /-- The tasks that are not finished, the one that is reading first. -/
  queue : List (Reading Outcome)

namespace Engine

/-- An engine that knows no packages. -/
def start (settings : Settings) : Engine := ⟨.empty, settings, []⟩

variable (e : Engine)

/-- Takes up some reading after all others. -/
def enqueue (r : Reading Outcome) : Engine := { e with queue := e.queue ++ [r] }

/-- Takes up a task after all others. -/
def submit (t : Task) : Engine := e.enqueue t.reading

/-- The message that ends a scan. -/
def scanMessage (found : Nat) (r : Registry) : Log.Message :=
  ⟨.info, ("Loaded " : Text) ++ .ofNat found ++ (" packages, " : Text) ++ .ofNat r.size
    ++ (" scopes" : Text)⟩

/-- What a finished task has changed and logged. -/
structure Report where
  change : Registry.Change
  log : Log

/-- The number of packages that a scan has found. -/
def Report.found (r : Report) : Nat :=
  match r.change with
  | .scan packages => packages.length
  | _ => 0

/-- Makes the change that a task has led to. -/
def finish (o : Outcome) : Engine × Report :=
  let (registry, log) := e.registry.apply o.change
  let closing : Log := match o.change with
    | .scan packages => [scanMessage packages.length registry]
    | _ => []
  ({ e with registry }, ⟨o.change, o.log ++ log ++ closing⟩)

/-- The first task goes on by one answer of the disk, or is finished when it has no more
questions. -/
def step (d : Disk) : Engine × Option Report :=
  match e.queue with
  | [] => (e, none)
  | .ask q next :: waiting => ({ e with queue := next (d.answer q) :: waiting }, none)
  | .done o :: waiting =>
    let (e, report) := { e with queue := waiting }.finish o
    (e, some report)

/-- Finishes the first task, all its answers from one disk. -/
def finishFirst? (d : Disk) : Option (Engine × Report) :=
  match e.queue with
  | [] => none
  | first :: waiting => some ({ e with queue := waiting }.finish (first.run d))

/-- Finishes some tasks one after the other. -/
def finishAll (d : Disk) (e : Engine) : List (Reading Outcome) → Engine × List Report
  | [] => (e, [])
  | first :: waiting =>
    let (e, report) := e.finish (first.run d)
    let (e, reports) := finishAll d e waiting
    (e, report :: reports)

/-- Finishes all tasks. -/
def settle (d : Disk) : Engine × List Report := finishAll d { e with queue := [] } e.queue

/-- The candidates at an offset of a document. -/
def complete (t : Text) (offset : Int) (d : Dialect) : List Completion.Candidate × Log :=
  Completion.complete t offset d e.registry e.settings.maxCompletionItems

/-- The candidates at an offset of a client, with the extents they replace. -/
def completeAt (t : Text) (offset : Offset) (d : Dialect) :
    List (Completion.Candidate × Extent) × Log :=
  Completion.completeAt t offset d e.registry e.settings.maxCompletionItems

/-- The findings about a document. -/
def findings (t : Text) (d : Dialect) : List Validation.Finding :=
  Validation.validate t d e.registry e.settings.validation

end Engine
end Scopewright
