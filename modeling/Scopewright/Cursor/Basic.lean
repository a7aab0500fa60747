import Scopewright.Selector

/-! # What the cursor stands on

Resolving a cursor gives the path from the document root down to the slot that holds it, the
token typed so far and the keys next to it (`Cursor.Resolution`).  Documents are being typed, so
a resolution never fails: when the nesting cannot be told it is marked as malformed and
its readers treat the place as free text (`Cursor.malformed`). -/

namespace Scopewright
namespace Cursor

/-- One step of a path: the key of a mapping entry or the place of a sequence item. -/
inductive Segment where
  | key (name : Text)
  | index (i : Nat)
deriving DecidableEq, Inhabited

/-- The way from the root to a slot.  On a key the last step is the key typed so far. -/
abbrev Path := List Segment

/-- The quote that opens a token. -/
inductive Quote where
  | double
  | single
deriving DecidableEq, Repr, Inhabited

/-- The unit of a quote. -/
def Quote.unit : Quote → CodeUnit
  | double => '"'
  | single => '\''

/-- The quote that a unit is. -/
def Quote.ofUnit? (c : CodeUnit) : Option Quote :=
  if c = '"' then some double else if c = '\'' then some single else none

/-- The side of an entry that the cursor is on. -/
inductive Position where
  | key
  | value
  | unknown
deriving DecidableEq, Repr, Inhabited

/-- The token being typed, up to the cursor. -/
structure Token where
  /-- What it stands for so far, without quotes. -/
  text : Text
  /-- Its first unit, behind an opening quote. -/
  start : Int
  /-- The cursor. -/
  stop : Int
  quote : Option Quote
  /-- The element whose character data holds the token. -/
  element : Option Text
  position : Position
  selector : Selector.Scan
deriving Inhabited

/-- A token whose text is scanned as a selector just as it stands. -/
def Token.plain (text : Text) (start stop : Int) (quote : Option Quote) (position : Position)
    (element : Option Text) : Token :=
  ⟨text, start, stop, quote, element, position, Selector.scan text start⟩

/-- What the cursor stands on. -/
structure Resolution where
  path : Path
  token : Token
  /-- The other keys of the mapping that holds the cursor. -/
  siblingKeys : List Text
  malformed : Bool
deriving Inhabited

/-- The resolution of a place that tells nothing. -/
def Resolution.nowhere (offset : Int) (path : Path) (malformed : Bool) : Resolution :=
  ⟨path, .plain [] offset offset none .unknown none, [], malformed⟩

/-- The resolution of a cursor whose nesting cannot be told. -/
def malformed (offset : Int) : Resolution := .nowhere offset [] true

end Cursor
end Scopewright
