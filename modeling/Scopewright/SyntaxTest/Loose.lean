import Scopewright.Offset
import Scopewright.SyntaxTest.Request

/-! # Syntax tests at a client's offsets

The requests about syntax tests at offsets that a client has reckoned (`Offset`): `alignAt?`,
`assertedRegionAt?`, `suggestAt?` and `queryAt?`.  At whole offsets they are the requests of the
same names; at others an offset inside a unit is on the line of that unit, and its column is not
whole, and at no number there is no tested line (`SyntaxTest.Loose`). -/

namespace Scopewright
namespace SyntaxTest
namespace Loose

variable (t : Text) (fileName : Option Text)

/-- The line at an offset.  The line at no number ends where the first line does and starts where
the last one does. -/
def lineAt (x : Float) : Span :=
  if x.isNaN then
    let start := match Text.lastIndex? t '\n' with
      | some k => k + 1
      | none => 0
    ⟨start, ((Text.indexFrom? t '\n' 0).getD t.length : Nat)⟩
  else SyntaxTest.lineAt t (Number.index x)

/-- What the line at an offset says as an assertion line. -/
def details (x : Float) : Details := detailsOf t (lineAt t x) fileName

/-- The assertion lines at an offset and the line that they are about. -/
def tested? (x : Float) : Option Tested :=
  if x.isNaN then none else SyntaxTest.tested? t (Number.index x) fileName

/-! ### Alignment -/

/-- Text to insert at an offset. -/
structure Insertion where
  offset : Float
  text : Text
deriving DecidableEq

/-- The blanks that bring the cursor to the end of the assertion on the line above, as far as whole
blanks do. -/
def align? (offset : Offset) : Option Insertion := do
  let d := details t fileName offset.value
  if d.marker.isNone ∨ d.line.start = 0 then none
  let above := SyntaxTest.details t (d.line.start - 1) fileName
  let columns ← above.assertion
  let count := Float.ofNat columns.stop - (offset.value - Float.ofInt d.line.start)
  if count ≤ 0 then none
  return ⟨offset.value, List.replicate (Number.index count) (CodeUnit.ofBasic ' ')⟩

/-! ### The asserted region -/

/-- The part of the tested line that the nearest assertion covers, one character for an arrow.
Selected carets stand for themselves alone. -/
def assertedRegion? (start stop : Offset) : Option Extent := do
  let tested ← tested? t fileName start.value
  let nearest ← tested.assertions.head?
  let columns ← nearest.assertion
  let base := Float.ofInt tested.line.start
  if start.value < stop.value ∧ isCarets (t.between start.index stop.index) then
    let lineStart := Float.ofInt (lineAt t start.value).start
    return ⟨base + (start.value - lineStart), base + (stop.value - lineStart)⟩
  else if columns.stop = columns.start then
    return ⟨base + Float.ofNat columns.start, base + Float.ofNat (columns.stop + 1)⟩
  else return ⟨base + Float.ofNat columns.start, base + Float.ofNat columns.stop⟩

/-! ### Suggestions -/

/-- An edit of the selection, and the selection behind it. -/
structure Suggestion where
  edit : Extent
  text : Text
  selection : Extent
deriving DecidableEq

/-- Completes the assertion that begins when `character` is typed over the selection. -/
def suggest? (start stop : Offset) (scopes : List Text) (baseScope : Option Text)
    (character : Text) : Option Suggestion := do
  if !isTest fileName t ∨ start.value.isNaN then none
  let header ← header? t
  let typed := start.before t ++ character ++ stop.after t
  let c ← completed? header typed (start.index + character.length) start.whole?.isSome scopes
    baseScope fileName
  let selected := start.value + Float.ofNat character.length + Float.ofNat c.length
  return ⟨⟨start.value, stop.value⟩, c.text character,
    ⟨selected, selected + Float.ofNat c.tail.length⟩⟩

/-! ### Questions of key bindings -/

/-- The answer to a question of a key binding; none for a key or an operator that is not
known. -/
def query? (offset : Offset) (key operator : Text) (operand : Payload) : Option Bool :=
  compareWith (valueOf? t (details t fileName offset.value) true key fileName) operator operand

end Loose

/-! ### Any offset -/

/-- The blanks that bring the cursor to the end of the assertion on the line above. -/
def alignAt? (t : Text) (offset : Offset) (fileName : Option Text) : Option Loose.Insertion :=
  match offset.whole? with
  | some n => (align? t n fileName).map fun i => ⟨Float.ofInt i.offset, i.text⟩
  | none => Loose.align? t fileName offset

/-- The part of the tested line that the nearest assertion covers. -/
def assertedRegionAt? (t : Text) (start stop : Offset) (fileName : Option Text) : Option Extent :=
  match start.whole?, stop.whole? with
  | some a, some b => (assertedRegion? t ⟨a, b⟩ fileName).map Span.extent
  | _, _ => Loose.assertedRegion? t fileName start stop

/-- Completes the assertion that begins when `character` is typed over the selection. -/
def suggestAt? (t : Text) (start stop : Offset) (scopes : List Text) (baseScope : Option Text)
    (fileName : Option Text) (character : Text) : Option Loose.Suggestion :=
  match start.whole?, stop.whole? with
  | some a, some b =>
    (suggest? t ⟨a, b⟩ scopes baseScope fileName character).map fun s =>
      ⟨s.edit.extent, s.text, s.selection.extent⟩
  | _, _ => Loose.suggest? t fileName start stop scopes baseScope character

/-- The answer to a question of a key binding about the line at an offset. -/
def queryAt? (t : Text) (offset : Offset) (key operator : Text) (operand : Payload)
    (fileName : Option Text) : Option Bool :=
  match offset.whole? with
  | some n => query? t n key operator operand fileName
  | none => Loose.query? t fileName offset key operator operand

end SyntaxTest
end Scopewright
