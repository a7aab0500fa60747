import Scopewright.Number.Whole
import Scopewright.Text.Basic

/-! # Offsets of a client

An offset that is reckoned from a client's numbers may be whole, lie inside a unit, or be no number; it
is unknown where a line has no known start (`Offset`).  Whole offsets are what the rest of the
library works with (`Offset.whole?`); an extent between two offsets of a client is an
`Extent`. -/

namespace Scopewright

/-- An offset reckoned from a client's numbers. -/
inductive Offset where
  | number (x : Float)
  | unknown
deriving DecidableEq, Inhabited

namespace Offset

/-- The offset of a number of units. -/
def ofNat (n : Nat) : Offset := number (Float.ofNat n)

/-- The number that an offset is; none when it is unknown. -/
def value : Offset → Float
  | number x => x
  | unknown => Number.undefined

/-- The whole offset. -/
def whole? (o : Offset) : Option Int := Number.whole? o.value

/-- The number of whole units before the offset. -/
def index (o : Offset) : Nat := Number.index o.value

/-- The text before an offset, all of it when the offset is unknown. -/
def before (o : Offset) (t : Text) : Text :=
  match o with
  | number _ => t.take o.index
  | unknown => t

/-- The text from an offset on. -/
def after (o : Offset) (t : Text) : Text := t.drop o.index

/-- What is written for an offset in messages. -/
def render : Offset → Text
  | number x => if x.isNaN then "NaN" else Number.render x
  | unknown => "undefined"

end Offset

/-- What stands between two offsets of a client. -/
structure Extent where
  start : Float
  stop : Float
deriving DecidableEq, Inhabited

/-- The extent of a span. -/
def Span.extent (s : Span) : Extent := ⟨Float.ofInt s.start, Float.ofInt s.stop⟩

end Scopewright
