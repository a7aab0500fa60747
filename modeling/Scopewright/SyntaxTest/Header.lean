import Scopewright.Dialect

/-! # Headers of syntax tests

The first line of a syntax test names the comment token that begins its assertion lines and the
syntax under test:

    // SYNTAX TEST "Packages/Python/Python.sublime-syntax"

`SyntaxTest.header?` reads it.  A file that has a name is a syntax test by that name alone, a
buffer without one by its header (`SyntaxTest.isTest`). -/

namespace Scopewright
namespace SyntaxTest

/-- The comment token of a syntax test, and what closes a comment if anything does. -/
structure Header where
  start : Text
  stop : Option Text
deriving DecidableEq

/-- The words of a header. -/
def headerMark : Text := "SYNTAX TEST"

/-- A first line of this length is no header. -/
def maxHeaderLength : Nat := 1000

/-- A run of white space, not empty, and what follows it. -/
def afterBlanks? (t : Text) : Option Text :=
  let rest := t.dropWhile CodeUnit.isBlank
  if rest.length < t.length then some rest else none

/-- What follows the beginning `head`. -/
def after? (head t : Text) : Option Text :=
  if head.isPrefixOf t then some (t.drop head.length) else none

/-- The first line of a text, without a carriage return at its end. -/
def firstLine (t : Text) : Text :=
  let line := t.takeWhile (· ≠ CodeUnit.ofBasic '\n')
  if line.getLast? = some (CodeUnit.ofBasic '\r') then line.dropLast else line

/-- The comment token of a header and what follows the quote that opens the name of its
syntax. -/
def headerStart? (line : Text) : Option (Text × Text) := do
  let start := line.takeWhile (!·.isBlank)
  if start.isEmpty then none
  let rest ← afterBlanks? (line.drop start.length)
  let rest ← after? headerMark rest
  let rest ← afterBlanks? rest
  let rest ← after? "\"" rest
  return (start, rest)

/-- The header in a line: behind the name of the syntax only one more word may stand. -/
def headerOfLine? (line : Text) : Option Header := do
  let (start, rest) ← headerStart? line
  let name := rest.takeWhile (· ≠ CodeUnit.ofBasic '"')
  if name.isEmpty then none
  let rest ← after? "\"" (rest.drop name.length)
  let stop := rest.dropWhile CodeUnit.isBlank
  if stop.any CodeUnit.isBlank then none
  return ⟨start, if stop.isEmpty then none else some stop⟩

/-- The header of a text. -/
def header? (t : Text) : Option Header :=
  let line := firstLine t
  if maxHeaderLength ≤ line.length then none else headerOfLine? line

/-- The text is a syntax test: by its file name, or by its header when it has none. -/
def isTest (fileName : Option Text) (t : Text) : Bool :=
  match fileName with
  | some name => Dialect.isTestFileName name
  | none => (header? t).isSome

end SyntaxTest
end Scopewright
