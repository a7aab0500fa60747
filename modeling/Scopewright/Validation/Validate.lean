import Scopewright.Document.Read
import Scopewright.Validation.Check
import Scopewright.Validation.Selector

/-! # Validation

The findings about a document in the order of their places (`Validation.validate`).  What does not
parse and keys that come again are always told; the other checks can be turned off
(`Validation.Checks`). -/

namespace Scopewright
namespace Validation

/-- The checks that can be turned off. -/
structure Checks where
  unknownKeys : Bool
  unknownScopes : Bool
  invalidValues : Bool
deriving DecidableEq, Repr, Inhabited

/-- All checks. -/
def Checks.all : Checks := ⟨true, true, true⟩

/-- The findings of a check that is turned on. -/
def when' (on : Bool) (findings : List Finding) : List Finding := if on then findings else []

/-- The findings about a document of which the whole structure is known. -/
def treeFindings (t : Text) (d : Dialect) (r : Registry) (checks : Checks) : List Finding :=
  let tree := Document.read t d.format
  let schema := Schema.root d
  parseFindings tree.problems ++
    match tree.root with
    | none => []
    | some root =>
      duplicateFindings root schema
        ++ when' checks.unknownKeys (unknownKeyFindings root schema)
        ++ when' checks.unknownScopes (selectorFindings t root schema r)
        ++ when' checks.invalidValues (valueFindings root schema)
        ++ when' checks.invalidValues (referenceFindings root schema r)

/-- The findings about a document. -/
def validate (t : Text) (d : Dialect) (r : Registry) (checks : Checks) : List Finding :=
  let findings :=
    if d = .syntaxTest then when' checks.unknownScopes (assertionFindings t r)
    else treeFindings t d r checks
  findings.mergeSort Finding.le

end Validation
end Scopewright
