import Scopewright.Buffer
import Scopewright.Completion.Candidate
import Scopewright.Validation.Finding

/-! # Items for a client

A client shows candidates as items (`Client.Item`) and findings as diagnostics
(`Client.Diagnostic`), both at places of the document.  A client sorts items by a text, which is
the place of the candidate in the ranking, written with at least five digits. -/

namespace Scopewright
namespace Client

/-- A new text for a range. -/
structure Edit where
  range : PlaceRange
  newText : Text
deriving DecidableEq, Inhabited

/-- The number of a kind of item. -/
def kindNumber : Completion.Kind → Nat
  | .variable => 6
  | .key => 10
  | .value => 12
  | .color => 16
  | .action => 18
  | .scope => 20

/-- An item of a completion list. -/
structure Item where
  label : Text
  kind : Completion.Kind
  detail : Option Text
  sortText : Text
  edit : Edit
deriving DecidableEq, Inhabited

/-- The digits of a text that sorts items. -/
def sortWidth : Nat := 5

/-- The text that sorts the item at a place of the ranking. -/
def sortText (index : Nat) : Text :=
  let digits := Text.ofNat index
  List.replicate (sortWidth - digits.length) (CodeUnit.ofBasic '0') ++ digits

/-- The item of a candidate that replaces an extent; none when the extent has no place. -/
def item? (b : Buffer) (c : Completion.Candidate) (e : Extent) (index : Nat) : Option Item :=
  (b.rangeOf e).map fun range => ⟨c.displayText, c.kind, c.detail, sortText index,
    ⟨range, c.insertText⟩⟩

/-- The items of ranked candidates with the extents they replace. -/
def itemList? (b : Buffer) (cs : List (Completion.Candidate × Extent)) : Option (List Item) :=
  cs.zipIdx.mapM fun ((c, e), index) => item? b c e index

/-- The number of a severity. -/
def severityNumber : Validation.Severity → Nat
  | .error => 1
  | .warning => 2
  | .information => 3
  | .hint => 4

/-- A finding at places of the document. -/
structure Diagnostic where
  range : PlaceRange
  severity : Validation.Severity
  message : Text
  code : Validation.Code
deriving DecidableEq, Inhabited

/-- Where all diagnostics come from. -/
def diagnosticSource : Text := "syntax-dev"

/-- The diagnostic of a finding; none when its span has no place. -/
def diagnostic? (b : Buffer) (f : Validation.Finding) : Option Diagnostic :=
  (b.rangeOf f.span.extent).map fun range => ⟨range, f.severity, f.message, f.code⟩

end Client
end Scopewright
