import Scopewright.Cursor.Resolve
import Scopewright.Offset

/-! # The cursor at a loose offset

A client may put the cursor inside a unit, or at what is no number.  What it stands on is told by the
whole units before it (`Cursor.Loose.resolve`): the offsets of the token count from the start of the
unit, and those that depend on the cursor lie as far behind as the cursor does.

* Text, property lists and YAML are read up to the cursor, so they see the whole units alone.
* JSON compares the cursor with the ends of what it has read, which is done in half units; no
  token without quotes ends inside a unit, and the whole text before it is taken for one. -/

namespace Scopewright
namespace Cursor

/-- What a cursor at a loose offset stands on. -/
structure Loose where
  /-- The resolution, in whole units. -/
  resolution : Resolution
  /-- The start of the token depends on the cursor. -/
  startFollows : Bool

namespace Loose

namespace Json

open Cursor.Json (Passed.isString Passed.literal followsClosedString siblingKeys)
open Scopewright.Json (Event Location Passed Quoted.isClosed Quoted.unescape events)

/-- An event in half units. -/
def doubled (e : Event) : Event := { e with start := 2 * e.start, length := 2 * e.length }

/-- A token last passed, in whole units again. -/
def halved (p : Passed) : Passed := { p with start := p.start / 2, length := p.length / 2 }

/-- The place of a cursor inside the unit at `offset`. -/
def locateInside (t : Text) (offset : Nat) : Location :=
  let l := Location.walk (2 * offset + 1) .start ((events false t).map doubled)
  { l with previous := l.previous.map halved }

/-- The place of a cursor that comes before nothing and is behind nothing. -/
def locateNowhere (t : Text) : Location :=
  (events false t).foldl (fun l e =>
    let next := (Location.step (t.length + 1) l e).1
    match e.kind with
    | .objectBegin => { next with atKey := false }
    | _ => next) .start

/-- Where the body of the string begins that the cursor is inside of. -/
def openStringStart? (t : Text) (p : Passed) (offset : Nat) : Option Nat :=
  if !Passed.isString p t ∨ offset < p.start then none
  else if offset < p.start + p.length then some (p.start + 1)
  else none

/-- What a cursor inside the unit at `offset` stands on. -/
def resolveInside (t : Text) (offset : Nat) : Loose :=
  let place := locateInside t offset
  let stringStart := place.previous >>= (openStringStart? t · offset)
  let position :=
    if stringStart.isNone ∧ place.previous.any (followsClosedString t · offset) then .unknown
    else if place.atKey then .key else .value
  let token : Token :=
    match stringStart with
    | some start =>
      let raw := t.between start offset
      ⟨Quoted.unescape raw, start, offset, some .double, none, position, Selector.scan raw start⟩
    | none => .plain (t.take offset) (-1) offset none position none
  let touches (s : Span) : Bool := decide (s.start ≤ offset) && decide (offset < s.stop)
  ⟨⟨place.path, token,
    if position = .key then siblingKeys t place.path.dropLast touches else [], false⟩,
    stringStart.isNone⟩

/-- What a cursor at no number stands on. -/
def resolveNowhere (t : Text) : Loose :=
  let place := locateNowhere t
  let position : Position := if place.atKey then .key else .value
  ⟨⟨place.path, .plain [] 0 0 none position none,
    if position = .key then siblingKeys t place.path.dropLast fun _ => false else [], false⟩,
    true⟩

end Json

/-- What a cursor inside the unit at `offset` stands on. -/
def resolveInside (t : Text) (offset : Nat) (d : Dialect) : Loose :=
  match d.format with
  | .json => Json.resolveInside t offset
  | .yaml => ⟨Yaml.resolve t offset, true⟩
  | .plist => ⟨Markup.resolve true t offset, false⟩
  | .xml =>
    let r := Markup.resolve false t offset
    ⟨r, decide (r.token.position = .key)⟩
  | .text => ⟨SyntaxTest.resolve t offset, true⟩

/-- What a cursor at no number stands on. -/
def resolveNowhere (t : Text) (d : Dialect) : Loose :=
  match d.format with
  | .json => Json.resolveNowhere t
  | .yaml => ⟨Yaml.resolve t 0, true⟩
  | _ => ⟨.nowhere 0 [] false, true⟩

/-- What a cursor at an offset that is not whole stands on. -/
def resolve (t : Text) (x : Float) (d : Dialect) : Loose :=
  if x.isNaN then resolveNowhere t d else resolveInside t (Number.index x) d

/-- How far the cursor is behind the whole units before it. -/
def lag (x : Float) : Float := x - Float.ofNat (Number.index x)

end Loose
end Cursor
end Scopewright
