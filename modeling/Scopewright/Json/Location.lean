import Scopewright.Cursor.Basic
import Scopewright.Json.Event

/-! # The place of an offset

The events of a document that lie before an offset tell where in the structure it is
(`Json.locate`): the path, the token last passed, and whether a key stands or belongs there.  The
walk stops at the first event that reaches the offset (`Location.step`). -/

namespace Scopewright
namespace Json

/-- A key or value that the walk has passed. -/
structure Passed where
  start : Nat
  length : Nat
  isProperty : Bool

/-- The place of an offset. -/
structure Location where
  /-- The path, innermost step first. -/
  reversed : List Cursor.Segment
  previous : Option Passed
  atKey : Bool

namespace Location

/-- The place before all events. -/
def start : Location := ⟨[], none, false⟩

/-- The path from the root. -/
def path (l : Location) : Cursor.Path := l.reversed.reverse

/-- Replaces the innermost step. -/
def setLast (l : Location) (s : Cursor.Segment) : Location :=
  { l with reversed := s :: l.reversed.drop 1 }

/-- The place behind a separator between entries or items. -/
def pastComma (l : Location) : Location :=
  match l.reversed with
  | .index i :: _ => { l.setLast (.index (i + 1)) with previous := none }
  | _ => { l.setLast (.key []) with previous := none, atKey := true }

/-- The place behind the separator of a key. -/
def pastColon (l : Location) : Location :=
  if l.previous.any (·.isProperty) then { l with atKey := false, previous := none } else l

/-- One event passed: the place behind it, and whether the walk goes on. -/
def step (offset : Nat) (l : Location) (e : Event) : Location × Bool :=
  match e.kind with
  | .fault _ => (l, true)
  | .property name =>
    if offset < e.start then (l, false)
    else ({ l.setLast (.key name) with previous := some ⟨e.start, e.length, true⟩ },
      decide (e.stop < offset))
  | .literal _ =>
    if offset < e.start then (l, false)
    else ({ l with previous := some ⟨e.start, e.length, false⟩ }, decide (e.stop < offset))
  | .objectBegin =>
    if offset ≤ e.start then (l, false)
    else (⟨.key [] :: l.reversed, none, true⟩, true)
  | .arrayBegin =>
    if offset ≤ e.start then (l, false)
    else ({ l with reversed := .index 0 :: l.reversed, previous := none }, true)
  | .objectEnd =>
    if offset ≤ e.start then (l, false)
    else ({ l with reversed := l.reversed.drop 1, previous := none }, true)
  | .arrayEnd =>
    if offset ≤ e.start then (l, false)
    else ({ l with reversed := l.reversed.drop 1, previous := none }, true)
  | .colon => if offset ≤ e.start then (l, false) else (l.pastColon, true)
  | .comma => if offset ≤ e.start then (l, false) else (l.pastComma, true)

/-- The place behind the events that lie before an offset. -/
def walk (offset : Nat) (l : Location) : List Event → Location
  | [] => l
  | e :: es =>
    let (l', goesOn) := step offset l e
    if goesOn then walk offset l' es else l'

end Location

/-- The place of an offset in a document. -/
def locate (t : Text) (offset : Nat) : Location :=
  Location.walk offset .start (events false t)

end Json
end Scopewright
