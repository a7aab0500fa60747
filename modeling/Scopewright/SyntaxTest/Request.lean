import Scopewright.Payload
import Scopewright.SyntaxTest.Line

/-! # Editing syntax tests

* `SyntaxTest.align?` gives the blanks that bring the cursor to the end of the assertion above.
* `SyntaxTest.assertedRegion?` gives the part of the tested line that an assertion covers.
* `SyntaxTest.suggest?` completes an assertion that is being typed: it goes on as far as the scope
  of the tested line stays the same, and names the scopes that all asserted columns share.
* `SyntaxTest.query?` answers questions that key bindings ask. -/

namespace Scopewright
namespace SyntaxTest

/-! ### Alignment -/

/-- Text to insert at an offset. -/
structure Insertion where
  offset : Int
  text : Text
deriving DecidableEq

/-- The blanks that bring the cursor to the end of the assertion on the line above. -/
def align? (t : Text) (offset : Int) (fileName : Option Text) : Option Insertion := do
  let d := details t offset fileName
  if d.marker.isNone ∨ d.line.start = 0 then none
  let above := details t (d.line.start - 1) fileName
  let columns ← above.assertion
  let count := columns.stop - (offset - d.line.start)
  if count ≤ 0 then none
  return ⟨offset, List.replicate count.toNat (CodeUnit.ofBasic ' ')⟩

/-! ### The asserted region -/

/-- The text is a run of carets. -/
def isCarets (t : Text) : Bool := !t.isEmpty && t.all (· = CodeUnit.ofBasic '^')

/-- The part of the tested line that the nearest assertion covers, one character for an arrow.
Selected carets stand for themselves alone. -/
def assertedRegion? (t : Text) (selection : Span) (fileName : Option Text) : Option Span := do
  let tested ← tested? t selection.start fileName
  let nearest ← tested.assertions.head?
  let columns ← nearest.assertion
  let base := tested.line.start
  if selection.start < selection.stop ∧ isCarets (t.between selection.start selection.stop) then
    let lineStart := (lineAt t selection.start).start
    return ⟨base + (selection.start - lineStart), base + (selection.stop - lineStart)⟩
  else if columns.stop = columns.start then
    return ⟨base + columns.start, base + columns.stop + 1⟩
  else return ⟨base + columns.start, base + columns.stop⟩

/-! ### Suggestions -/

/-- An edit of the selection, and the selection behind it. -/
structure Suggestion where
  edit : Span
  text : Text
  selection : Span
deriving DecidableEq

/-- The scope of a column, if it is known. -/
def scopeAt (scopes : List Text) (column : Int) : Option Text :=
  if column < 0 then none else scopes[column.toNat]?

/-- How many of the first scopes of a list are equal to `scope`. -/
def runLength (scope : Text) (scopes : List Text) : Nat :=
  (scopes.takeWhile (· = scope)).length

/-- One of the scopes on a stack is `name` or extends it. -/
def stackMatches (stack name : Text) : Bool :=
  stack.words.any fun scope => decide (scope = name) || (name ++ ".").isPrefixOf scope

/-- The different scopes of a range of columns, in order of appearance behind those before. -/
def scopesOf (scopes : List Text) (columns : Columns) (before : List Text) : List Text :=
  ((scopes.take columns.stop).drop columns.start).foldl
    (fun seen s => if seen.contains s then seen else seen ++ [s]) before

/-- The names of the first scope that all scopes match. -/
def sharedNames (stackList : List Text) : List Text :=
  match stackList with
  | [] => []
  | first :: _ => first.words.filter fun name => stackList.all (stackMatches · name)

/-- The names to suggest: without the base scope in front. -/
def suggestedNames (stackList : List Text) (baseScope : Option Text) : List Text :=
  match sharedNames stackList with
  | [] => []
  | name :: names => if baseScope = some name then names else name :: names

/-- How an assertion goes on: so many more times as typed, the names that come behind, and what closes
the comment. -/
structure Completed where
  length : Nat
  names : List Text
  ending : Text
deriving DecidableEq

/-- What comes behind the marker. -/
def Completed.tail (c : Completed) : Text := " " ++ Text.join " " c.names ++ c.ending

/-- What closes the comment behind a cursor. -/
def Header.ending (h : Header) (isAtEnd : Bool) : Text :=
  match h.stop with
  | some stop => if isAtEnd then " " ++ stop else []
  | none => []

namespace Columns

/-- The columns are those of an arrow. -/
def IsArrow (columns : Columns) : Prop := columns.start = columns.stop

instance : DecidablePred IsArrow := fun _ => inferInstanceAs (Decidable (_ = _))

/-- The column that an assertion goes on from: that of the cursor, if it has one, or the own column of
an arrow. -/
def onward? (columns : Columns) (cursor : Option Int) : Option Int :=
  if columns.IsArrow then some columns.stop else cursor

/-- The stacks that an assertion is about, `scope` and those of a run. -/
def stackList (columns : Columns) (scopes : List Text) (scope : Text) : List Text :=
  if columns.IsArrow then [scope] else scopesOf scopes columns [scope]

/-- Completes an assertion of these columns.  A run goes on over the tested line, which has
`lineLength` units; an arrow is about one column. -/
def complete? (columns : Columns) (cursor : Option Int) (lineLength : Int) (scopes : List Text)
    (baseScope : Option Text) (ending : Text) : Option Completed := do
  let column ← columns.onward? cursor
  if lineLength < column then none
  let scope ← scopeAt scopes column
  let length :=
    if columns.IsArrow then 1
    else runLength scope ((scopes.take (lineLength + 1).toNat).drop column.toNat)
  return ⟨length, suggestedNames (columns.stackList scopes scope) baseScope, ending⟩

end Columns

/-- Completes the assertion that has been typed up to `insertAt`; a cursor that is not `isWhole` is
inside the unit there, at no end of a line and in no column.  `scopes` are those of the columns of
the tested line, one past its end included. -/
def completed? (h : Header) (typed : Text) (insertAt : Int) (isWhole : Bool) (scopes : List Text)
    (baseScope : Option Text) (fileName : Option Text) : Option Completed := do
  let tested ← tested? typed insertAt fileName
  let current ← tested.assertions.head?
  if current.marker.isNone then none
  let columns ← current.assertion
  columns.complete? (if isWhole then some (insertAt - current.line.start) else none)
    (tested.line.stop - tested.line.start) scopes baseScope
    (h.ending (isWhole && decide (insertAt = current.line.stop)))

/-- The text to put in where `character` has been typed. -/
def Completed.text (c : Completed) (character : Text) : Text :=
  character ++ (List.replicate c.length character).flatten ++ c.tail

/-- What is suggested where `character` has been typed over the selection. -/
def Completed.suggestion (c : Completed) (selection : Span) (character : Text) : Suggestion :=
  let behind := selection.start + character.length + c.length
  ⟨selection, c.text character, ⟨behind, behind + c.tail.length⟩⟩

/-- The text with another one in the place of a span. -/
def typedOver (t : Text) (span : Span) (by' : Text) : Text :=
  t.upTo span.start ++ by' ++ t.from span.stop

/-- How the assertion goes on that begins when `character` is typed over the selection. -/
def completion? (t : Text) (selection : Span) (scopes : List Text) (baseScope : Option Text)
    (fileName : Option Text) (character : Text) : Option Completed := do
  if !isTest fileName t then none
  let header ← header? t
  completed? header (typedOver t selection character) (selection.start + character.length) true scopes
    baseScope fileName

/-- Completes the assertion that begins when `character` is typed over the selection. -/
def suggest? (t : Text) (selection : Span) (scopes : List Text) (baseScope : Option Text)
    (fileName : Option Text) (character : Text) : Option Suggestion :=
  (completion? t selection scopes baseScope fileName character).map
    (·.suggestion selection character)

/-! ### Questions of key bindings -/

/-- The value of a key about a line; no line at a negative offset is a test. -/
def valueOf? (t : Text) (d : Details) (isInText : Bool) (key : Text) (fileName : Option Text) :
    Option Bool :=
  if key = "line_above_is_a_syntax_test" then
    some (d.marker.isSome && isAssertionLine t (d.line.start - 1) true fileName)
  else if key = "current_line_is_a_syntax_test" then some (isInText && d.isAssertion false)
  else if key = "file_contains_syntax_tests" then some (isTest fileName t)
  else none

/-- The value of a key about the line at an offset. -/
def contextValue? (t : Text) (offset : Int) (key : Text) (fileName : Option Text) : Option Bool :=
  valueOf? t (details t offset fileName) (decide (0 ≤ offset)) key fileName

/-- Compares the value of a key with an operand; none when the operator is not known. -/
def compareWith (value : Option Bool) (operator : Text) (operand : Payload) : Option Bool :=
  if operator = "equal" then value.map fun v => v == operand.isTruthy
  else if operator = "not_equal" then value.map fun v => v != operand.isTruthy
  else none

/-- The answer to a question of a key binding; none for a key or an operator that is not
known. -/
def query? (t : Text) (offset : Int) (key operator : Text) (operand : Payload)
    (fileName : Option Text) : Option Bool :=
  compareWith (contextValue? t offset key fileName) operator operand

end SyntaxTest
end Scopewright
