import Scopewright.Offset
import Scopewright.Text.Class

/-! # Buffers

A buffer is a text with the offsets at which its lines start (`Buffer`).  A client names a place
by line and character (`Place`); places and offsets outside the text are brought inside, and none is
behind a line end (`Buffer.offsetAt`, `Buffer.placeAt`).

An edit replaces what stands between two places (`Buffer.edit`) and moves the starts of the lines
behind it.  An edit behind the last line that brings as many lines as it replaces puts their
starts where the client counts them, and the lines between have no known start: places reckoned from
them are no places. -/

namespace Scopewright

/-- A line and a character in it, both counted from zero. -/
structure Place where
  line : Float
  character : Float
deriving DecidableEq, Inhabited

/-- What stands between two places. -/
structure PlaceRange where
  start : Place
  stop : Place
deriving DecidableEq, Inhabited

namespace Place

/-- The second place comes before the first. -/
def after (a b : Place) : Bool :=
  decide (b.line < a.line) || (a.line == b.line && decide (b.character < a.character))

/-- Both numbers of the place count something. -/
def isValid (p : Place) : Bool := Number.isCount p.line && Number.isCount p.character

end Place

namespace PlaceRange

/-- The range with its ends in order. -/
def ordered (r : PlaceRange) : PlaceRange := if r.start.after r.stop then ⟨r.stop, r.start⟩ else r

/-- The empty range at a place. -/
def at' (p : Place) : PlaceRange := ⟨p, p⟩

/-- The range between two places; none when one of them is no place. -/
def between? (a b : Place) : Option PlaceRange :=
  if a.isValid && b.isValid then some ⟨a, b⟩ else none

end PlaceRange

/-- A text and the offsets at which its lines start. -/
structure Buffer where
  text : Text
  lineStarts : Array Offset
deriving DecidableEq, Inhabited

namespace Buffer

/-- The unit ends a line. -/
def isLineEnd (c : CodeUnit) : Bool := decide (c = '\n') || decide (c = '\r')

/-- The offsets behind the line ends of a text that stands at `offset`. -/
def startsAfter (offset : Nat) : Text → List Nat
  | [] => []
  | [c] => if isLineEnd c then [offset + 1] else []
  | c :: d :: r =>
    if c = '\r' ∧ d = '\n' then (offset + 2) :: startsAfter (offset + 2) r
    else if isLineEnd c then (offset + 1) :: startsAfter (offset + 1) (d :: r)
    else startsAfter (offset + 1) (d :: r)

/-- The buffer of a text. -/
def ofText (t : Text) : Buffer := ⟨t, ((0 :: startsAfter 0 t).map Offset.ofNat).toArray⟩

variable (b : Buffer)

/-! ### Places and offsets -/

/-- The number of lines. -/
def lineCount : Float := Float.ofNat b.lineStarts.size

/-- The length of the text. -/
def length : Float := Float.ofNat b.text.length

/-- The start of a line. -/
def lineStart (line : Float) : Offset :=
  match Number.whole? line with
  | some n => if n < 0 then .unknown else b.lineStarts.getD n.toNat .unknown
  | none => .unknown

/-- Goes back from an offset over the line ends behind `start`, at most `fuel` of them. -/
def beforeLineEnd (start x : Float) : (fuel : Nat) → Float
  | 0 => x
  | fuel + 1 =>
    if start < x && (b.text[Number.index (x - 1)]?).any isLineEnd then beforeLineEnd start (x - 1) fuel
    else x

/-- The offset of a place. -/
def offsetAt (p : Place) : Offset :=
  if b.lineCount ≤ p.line then .number b.length
  else if p.line < 0 then .number 0
  else
    let start := b.lineStart p.line
    if p.character ≤ 0 then start
    else
      let next := if p.line + 1 < b.lineCount then (b.lineStart (p.line + 1)).value else b.length
      let x := Number.lower (start.value + p.character) next
      .number (b.beforeLineEnd start.value x (Number.index x + 1))

/-- Looks for the first line from `low` on, and before `high`, that starts behind an offset. -/
def firstLineBehind (x : Float) (low high : Nat) : Nat :=
  if _h : low < high then
    let mid := (low + high) / 2
    if x < (b.lineStarts.getD mid .unknown).value then firstLineBehind x low mid
    else firstLineBehind x (mid + 1) high
  else low
termination_by high - low
decreasing_by
  all_goals omega

/-- The place of an offset. -/
def placeAt (offset : Float) : Place :=
  let x := Number.notNegative (Number.lower offset b.length)
  let line := Float.ofNat (b.firstLineBehind x 0 b.lineStarts.size) - 1
  let start := (b.lineStart line).value
  ⟨line, b.beforeLineEnd start x (Number.index x + 1) - start⟩

/-- The places of an extent; none when one of its ends has no place. -/
def rangeOf (e : Extent) : Option PlaceRange :=
  PlaceRange.between? (b.placeAt e.start) (b.placeAt e.stop)

/-! ### Edits -/

/-- A carriage return at the end of one text and a line feed at the front of the other. -/
def joins (before after : Text) : Bool :=
  before.getLast? = some (CodeUnit.ofBasic '\r') && after.head? = some (CodeUnit.ofBasic '\n')

/-- Puts the starts of lines in place of as many from `line` on, behind the end if need be. -/
def overwrite (starts : Array Offset) (line : Nat) (added : List Offset) : Array Offset :=
  let gap := Array.replicate (line - starts.size) Offset.unknown
  starts.extract 0 line ++ gap ++ added.toArray
    ++ starts.extract (line + added.length) starts.size

/-- Puts the starts of lines in place of `count` from `line` on. -/
def splice (starts : Array Offset) (line count : Nat) (added : List Offset) : Array Offset :=
  starts.extract 0 line ++ added.toArray ++ starts.extract (line + count) starts.size

/-- Moves the starts of the lines from `line` on. -/
def shift (starts : Array Offset) (line : Nat) (distance : Float) : Array Offset :=
  if distance == 0 then starts
  else starts.mapIdx fun i s => if i < line then s else .number (s.value + distance)

/-- The starts of lines after an edit from `start` to `stop` in the lines `first` to `last`. -/
def editedStarts (start stop : Offset) (first last : Float) (new : Text) : Array Offset :=
  let base := match start with
    | .number x => x
    | .unknown => 0
  let added := (startsAfter 0 new).map fun n => Offset.number (base + Float.ofNat n)
  let count := Float.ofNat added.length
  let next := Number.index (first + 1)
  let isWhole := (Number.whole? first).isSome
  let starts :=
    if last - first == count then
      if isWhole && !added.isEmpty then overwrite b.lineStarts next added else b.lineStarts
    else splice b.lineStarts next (Number.index (last - first)) added
  if isWhole then
    shift starts (next + added.length) (Float.ofNat new.length - (stop.value - start.value))
  else starts

/-- Replaces what stands in a range.  When a carriage return and a line feed come together the
starts of all lines are found anew. -/
def edit (range : PlaceRange) (new : Text) : Buffer :=
  let r := range.ordered
  let start := b.offsetAt r.start
  let stop := b.offsetAt r.stop
  let before := start.before b.text
  let after := stop.after b.text
  let text := before ++ new ++ after
  if joins before (new ++ after) || joins (before ++ new) after then .ofText text
  else
    ⟨text, b.editedStarts start stop (Number.notNegative r.start.line)
      (Number.notNegative r.stop.line) new⟩

end Buffer
end Scopewright
