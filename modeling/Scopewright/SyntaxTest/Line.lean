import Scopewright.SyntaxTest.Header

/-! # Assertion lines

A line that begins with the comment token may assert scopes for columns of a line above it: a run
of `^` for the columns it stands in, `<-` for the column of the comment token.

* `SyntaxTest.lineAt` gives the extent of the line at an offset, and `SyntaxTest.details` its
  comment token and the columns it asserts.
* `SyntaxTest.tested?` walks up over assertion lines to the line that they are about. -/

namespace Scopewright
namespace SyntaxTest

/-- The columns that an assertion covers; they are equal for the column of the comment token. -/
structure Columns where
  start : Nat
  stop : Nat
deriving DecidableEq

/-- What a line says as an assertion line. -/
structure Details where
  /-- The columns of the comment token. -/
  marker : Option Columns
  assertion : Option Columns
  line : Span
deriving DecidableEq

/-- The line at an offset that is brought into the text.  A line break before the offset begins
it; at offset zero a line break right there counts as well. -/
def lineAt (t : Text) (offset : Int) : Span :=
  let at' := t.clamp offset
  let start := match Text.lastIndex? (t.take (max at' 1)) '\n' with
    | some k => k + 1
    | none => 0
  ⟨start, ((Text.indexFrom? t '\n' at').getD t.length : Nat)⟩

/-- The marker of an assertion behind the comment token: the blanks before it and its length; a
length of zero is an arrow. -/
structure AssertionMark where
  blanks : Nat
  isArrow : Bool
  carets : Nat

/-- The units that a marker takes, blanks included. -/
def AssertionMark.length (m : AssertionMark) : Nat :=
  m.blanks + (if m.isArrow then 2 else m.carets)

/-- The marker of an assertion at the front of a text. -/
def assertionMark? (t : Text) : Option AssertionMark :=
  let body := t.dropWhile CodeUnit.isBlank
  let blanks := t.length - body.length
  if ("<-" : Text).isPrefixOf body then some ⟨blanks, true, 0⟩
  else
    let carets := (body.takeWhile (· = CodeUnit.ofBasic '^')).length
    if carets = 0 then none else some ⟨blanks, false, carets⟩

/-- The columns of the comment token of a line. -/
def markerOf? (h : Header) (line : Text) : Option Columns :=
  let body := line.dropWhile CodeUnit.isBlank
  let start := line.length - body.length
  if h.start.isPrefixOf body then some ⟨start, start + h.start.length⟩ else none

/-- The columns that a line asserts behind its comment token. -/
def assertionOf? (marker : Columns) (line : Text) : Option Columns :=
  (assertionMark? (line.drop marker.stop)).map fun m =>
    if m.isArrow then ⟨marker.start, marker.start⟩
    else ⟨marker.stop + m.blanks, marker.stop + m.blanks + m.carets⟩

/-- The text of a line. -/
def lineText (t : Text) (line : Span) : Text := t.between line.start line.stop

/-- What a line says as an assertion line. -/
def detailsOf (t : Text) (line : Span) (fileName : Option Text) : Details :=
  match if isTest fileName t then header? t else none with
  | none => ⟨none, none, line⟩
  | some h =>
    let text := lineText t line
    let marker := markerOf? h text
    ⟨marker, marker.bind (assertionOf? · text), line⟩

/-- What the line at an offset says as an assertion line. -/
def details (t : Text) (offset : Int) (fileName : Option Text) : Details :=
  detailsOf t (lineAt t offset) fileName

/-- A line is an assertion line; without `strict` a comment token is enough. -/
def Details.isAssertion (d : Details) (strict : Bool) : Bool :=
  d.marker.isSome && (!strict || d.assertion.isSome)

/-- The line at an offset is an assertion line; without `strict` a comment token is enough. -/
def isAssertionLine (t : Text) (offset : Int) (strict : Bool) (fileName : Option Text) : Bool :=
  if offset < 0 then false else (details t offset fileName).isAssertion strict

/-- The line that assertions are about, and the assertion lines below it, nearest to the cursor
first. -/
structure Tested where
  assertions : List Details
  line : Span

/-- Walks up from the line at an offset.  Lines with an assertion are passed, and so is the line
of the cursor when it has a comment token. -/
def climb (t : Text) (fileName : Option Text) (first : Bool) (offset : Int) : Tested :=
  let d := details t offset fileName
  if offset < 0 then ⟨[], d.line⟩
  else if d.assertion.isSome || (first && d.marker.isSome) then
    let next := d.line.start - 1
    if _h : 0 ≤ next ∧ next < offset then
      let above := climb t fileName false next
      { above with assertions := d :: above.assertions }
    else ⟨[d], d.line⟩
  else ⟨[], d.line⟩
termination_by offset.toNat
decreasing_by
  have h' : 0 ≤ (details t offset fileName).line.start - 1
      ∧ (details t offset fileName).line.start - 1 < offset := _h
  omega

/-- The assertion lines at an offset and the line that they are about. -/
def tested? (t : Text) (offset : Int) (fileName : Option Text) : Option Tested :=
  if isTest fileName t then some (climb t fileName true offset) else none

end SyntaxTest
end Scopewright
