import Scopewright.Json.Location
import Scopewright.Json.Quoted
import Scopewright.Json.Tree

/-! # The cursor in a JSON document

The path comes from the place of the cursor among the document's events, the token from the text:
the string literal that the cursor is inside of, or the run of token characters before it.
Right behind a closed string nothing can be typed. -/

namespace Scopewright
namespace Cursor
namespace Json

open Scopewright.Json (Passed Location Quoted.isClosed Quoted.unescape locate nodeOf events)
open Document (Node)

/-- A unit of a token without quotes. -/
def isBareUnit (c : CodeUnit) : Bool :=
  c.isWord || Text.contains ".$+-" c

/-- The source of the token last passed. -/
def Passed.literal (p : Passed) (t : Text) : Text := (t.drop p.start).take p.length

/-- The token last passed is a string. -/
def Passed.isString (p : Passed) (t : Text) : Bool :=
  (t.drop p.start).head?.any fun (c : CodeUnit) => decide (c = '"')

/-- Where the body of the string begins that the cursor is inside of. -/
def openStringStart? (t : Text) (p : Passed) (offset : Nat) : Option Nat :=
  let stop := p.start + p.length
  if !Passed.isString p t ∨ offset ≤ p.start then none
  else if Quoted.isClosed (Passed.literal p t) then
    if offset < stop then some (p.start + 1) else none
  else if offset ≤ stop then some (p.start + 1) else none

/-- Only white space is between the closing quote of the token last passed and the cursor. -/
def followsClosedString (t : Text) (p : Passed) (offset : Nat) : Bool :=
  let stop := p.start + p.length
  Passed.isString p t && decide (stop ≤ offset) && Quoted.isClosed (Passed.literal p t)
    && ((t.drop stop).take (offset - stop)).all CodeUnit.isBlank

/-- The node at a path: entries by the first one with the key that has a value, items by
place. -/
def nodeAt? (n : Node) : Path → Option Node
  | [] => some n
  | .key name :: rest =>
    match n with
    | .object _ members =>
      match members.find? (fun m => decide (m.1.name = name) && !isBare m.2) with
      | some m => nodeAt? m.2 rest
      | none => none
    | _ => none
  | .index i :: rest =>
    match n with
    | .array _ items =>
      match items[i]? with
      | some item => nodeAt? item rest
      | none => none
    | _ => none
where
  /-- The entry has a key only. -/
  isBare : Node → Bool
    | .unknown _ => true
    | _ => false

/-- The keys of the mapping at a path, without those that the cursor touches. -/
def siblingKeys (t : Text) (parent : Path) (touches : Span → Bool) : List Text :=
  match nodeOf [] (events false t) >>= (nodeAt? · parent) with
  | some n => (n.members.filter fun m => !touches m.1.span).map (·.1.name)
  | none => []

/-- A cursor at an offset touches a span. -/
def touches (offset : Int) (s : Span) : Bool := decide (s.start ≤ offset) && decide (offset ≤ s.stop)

/-- The run of token characters before the cursor. -/
def bareToken (t : Text) (offset : Nat) : Text :=
  ((t.take offset).reverse.takeWhile isBareUnit).reverse

/-- The token at the cursor, its position already told. -/
def token (t : Text) (offset : Nat) (position : Position) : Option Nat → Token
  | some start =>
    let raw := (t.take offset).drop start
    ⟨Quoted.unescape raw, start, offset, some .double, none, position, Selector.scan raw start⟩
  | none =>
    let raw := bareToken t offset
    .plain raw (offset - raw.length : Nat) offset none position none

/-- What a cursor in a JSON document stands on. -/
def resolve (t : Text) (offset : Nat) : Resolution :=
  let place := locate t offset
  let stringStart := place.previous >>= (openStringStart? t · offset)
  let position :=
    if stringStart.isNone ∧ place.previous.any (followsClosedString t · offset) then .unknown
    else if place.atKey then .key else .value
  ⟨place.path, token t offset position stringStart,
    if position = .key then siblingKeys t place.path.dropLast (touches offset) else [], false⟩

end Json
end Cursor
end Scopewright
