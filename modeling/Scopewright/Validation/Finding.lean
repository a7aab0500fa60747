import Scopewright.Document.Basic
import Scopewright.Schema.Catalog

/-! # Findings

A finding is something to tell about a place of a document (`Validation.Finding`).  Most checks go
over the nodes of which the schema knows something (`Validation.visited`), parents before
children and in the order of the document. -/

namespace Scopewright
namespace Validation

open Document (Node Key)
open Schema (Position)

/-- How serious a finding is. -/
inductive Severity where
  | error
  | warning
  | information
  | hint
deriving DecidableEq, Repr, Inhabited

namespace Severity

/-- All severities. -/
def all : List Severity := [error, warning, information, hint]

/-- The name of a severity. -/
def name : Severity → Text
  | error => "error"
  | warning => "warning"
  | information => "information"
  | hint => "hint"

/-- The severity of a name. -/
def ofName? (t : Text) : Option Severity := all.find? fun s => decide (s.name = t)

end Severity

/-- What a finding is about. -/
inductive Code where
  | unknownKey
  | unknownScope
  | invalidValue
  | parseError
  | duplicateKey
deriving DecidableEq, Repr, Inhabited

namespace Code

/-- All codes. -/
def all : List Code := [unknownKey, unknownScope, invalidValue, parseError, duplicateKey]

/-- The name of a code. -/
def name : Code → Text
  | unknownKey => "unknown-key"
  | unknownScope => "unknown-scope"
  | invalidValue => "invalid-value"
  | parseError => "parse-error"
  | duplicateKey => "duplicate-key"

/-- The code of a name. -/
def ofName? (t : Text) : Option Code := all.find? fun c => decide (c.name = t)

end Code

/-- Something to tell about a place of a document. -/
structure Finding where
  span : Span
  severity : Severity
  message : Text
  code : Code
deriving DecidableEq, Inhabited

/-- By place: where they begin, then where they end. -/
def Finding.le (a b : Finding) : Bool := Span.le a.span b.span

/-- A text between single quotes. -/
def quoted (t : Text) : Text := ("'" : Text) ++ t ++ ("'" : Text)

mutual

/-- The nodes below and at a node of which the schema knows something, with their positions. -/
def visited (n : Node) (p : Position) : List (Node × Position) :=
  (n, p) :: match n with
    | .object _ ms => visitedMembers ms p
    | .array _ ns =>
      match p.items? with
      | some q => visitedItems ns q
      | none => []
    | _ => []

/-- The nodes in entries whose keys the schema knows. -/
def visitedMembers : List (Key × Node) → Position → List (Node × Position)
  | [], _ => []
  | (k, n) :: ms, p =>
    match p.child? k.name with
    | some q => visited n q ++ visitedMembers ms p
    | none => visitedMembers ms p

/-- The nodes in items. -/
def visitedItems : List Node → Position → List (Node × Position)
  | [], _ => []
  | n :: ns, p => visited n p ++ visitedItems ns p

end

end Validation
end Scopewright
