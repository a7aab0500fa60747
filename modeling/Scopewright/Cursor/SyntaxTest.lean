import Scopewright.Cursor.Basic
import Scopewright.SyntaxTest.Line

/-! # The cursor in a syntax test

Two places can be completed: the name of the syntax in the header, and the selector behind the
marker of an assertion.  Elsewhere the cursor is on plain text. -/

namespace Scopewright
namespace Cursor
namespace SyntaxTest

open Scopewright.SyntaxTest

/-- The name of the syntax as far as it has been typed in a header. -/
def headerName? (before : Text) : Option Text := do
  let (_, name) ← headerStart? before
  if name.contains (CodeUnit.ofBasic '"') then none else some name

/-- The selector behind the marker of the assertion on a line, as far as it has been typed. -/
def assertionText? (t : Text) (d : Details) (offset : Int) : Option Text := do
  let marker ← d.marker
  let _ ← d.assertion
  let mark ← assertionMark? ((lineText t d.line).drop marker.stop)
  let start := d.line.start + marker.stop + mark.length
  if offset < start then none
  return Text.trimStart (t.between start offset)

/-- A resolution with one step. -/
def single (name text : Text) (offset : Int) (quote : Option Quote) : Resolution :=
  ⟨[.key name], .plain text (offset - text.length) offset quote .value none, [], false⟩

/-- What a cursor in a syntax test stands on. -/
def resolve (t : Text) (offset : Int) : Resolution :=
  let d := details t offset none
  let inHeader := if d.line.start = 0 then headerName? (t.between 0 offset) else none
  match inHeader, assertionText? t d offset with
  | some name, _ => single "header" name offset (some .double)
  | none, some text => single "assertion" text offset none
  | none, none => .nowhere offset [] false

end SyntaxTest
end Cursor
end Scopewright
