import Scopewright.Scope
import Scopewright.SyntaxTest.Line
import Scopewright.Validation.Finding

/-! # Scopes in selectors

Findings about scope names that no installed syntax declares: in the selectors of a document
(`Validation.selectorFindings`) and in the assertions of a syntax test
(`Validation.assertionFindings`), which also names the syntax under test.  Nothing is found before
there are syntaxes. -/

namespace Scopewright
namespace Validation

open Document (Node)
open Schema (Position)

/-- The places of names in a text, each searched behind the one before, the first one from `start` on;
a name that is not found has the place `fallback`. -/
def locate (t : Text) (fallback : Span) (start : Nat) : List Text → List (Text × Span)
  | [] => []
  | name :: names =>
    match Text.findFrom? t name start with
    | some k => (name, Span.ofLength k name.length) :: locate t fallback (k + name.length) names
    | none => (name, fallback) :: locate t fallback start names

/-- The unknown scopes of a selector that is written from `start` on. -/
def atomFindings (t selector : Text) (start : Nat) (fallback : Span) (r : Registry) :
    List Finding :=
  let names := (Selector.atoms selector).map Selector.Atom.name
  ((locate t fallback start names).filter fun a => !Scope.isKnown r a.1).map fun a =>
    ⟨a.2, .information, ("Unknown scope " : Text) ++ quoted a.1, .unknownScope⟩

/-- The unknown scopes of the selectors of a document.  The scope names that a syntax assigns are
declarations and are not looked up. -/
def selectorFindings (t : Text) (root : Node) (schema : Position) (r : Registry) :
    List Finding :=
  if r.isEmpty then []
  else
    (visited root schema).flatMap fun (n, p) =>
      match n.text? with
      | some selector =>
        if p.kind = .scopeSelector then atomFindings t selector n.span.start.toNat n.span r else []
      | none => []

/-- A text without a word at its end, behind which white space may stand. -/
def dropClosing (stop : Option Text) (selector : Text) : Text :=
  match stop with
  | none => selector
  | some stop =>
    let trimmed := selector.trimEnd
    if stop.reverse.isPrefixOf trimmed.reverse then Text.dropEnd trimmed stop.length else selector

/-- The offsets behind the line breaks of a text, the first of which stands at `offset`. -/
def lineStarts (offset : Nat) : Text → List Nat
  | [] => []
  | c :: r =>
    if c = '\n' then (offset + 1) :: lineStarts (offset + 1) r else lineStarts (offset + 1) r

/-- The selector of an assertion line and its offset. -/
def assertion? (t : Text) (h : SyntaxTest.Header) (lineStart : Nat) : Option (Text × Nat × Span) := do
  let d := SyntaxTest.details t lineStart none
  let marker ← d.marker
  let line := SyntaxTest.lineText t d.line
  let mark ← SyntaxTest.assertionMark? (line.drop marker.stop)
  let start := marker.stop + mark.length
  let offset := d.line.start.toNat + start
  return (dropClosing h.stop (line.drop start), offset, ⟨offset, d.line.stop⟩)

/-- The unknown scope names in an assertion line. -/
def assertionLineFindings (t : Text) (h : SyntaxTest.Header) (r : Registry) (lineStart : Nat) :
    List Finding :=
  match assertion? t h lineStart with
  | some (selector, offset, fallback) => atomFindings t selector offset fallback r
  | none => []

/-- The first text between double quotes that is not empty, `offset` being where the text
begins. -/
def quotedText? (offset : Nat) : Text → Option (Nat × Text)
  | [] => none
  | c :: r =>
    let body := r.takeWhile fun (d : CodeUnit) => decide (d ≠ '"')
    if c = '"' ∧ !body.isEmpty ∧ body.length < r.length then some (offset + 1, body)
    else quotedText? (offset + 1) r

/-- The syntax that a header names, if no package has it. -/
def headerFindings (t : Text) (r : Registry) : List Finding :=
  match quotedText? 0 t with
  | some (start, path) =>
    if r.snapshot.hasSyntax path then []
    else [⟨Span.ofLength start path.length, .hint, ("Unknown syntax " : Text) ++ quoted path,
      .invalidValue⟩]
  | none => []

/-- The unknown syntax and scopes of a syntax test. -/
def assertionFindings (t : Text) (r : Registry) : List Finding :=
  match SyntaxTest.header? t with
  | none => []
  | some h =>
    if r.isEmpty then []
    else headerFindings t r ++ (lineStarts 0 t).flatMap (assertionLineFindings t h r)

end Validation
end Scopewright
