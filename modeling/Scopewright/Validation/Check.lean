import Scopewright.Color
import Scopewright.Scope
import Scopewright.Validation.Finding

/-! # Checks

Findings about the document as such (what does not parse, keys that come again, and keys that the
schema does not have where they stand), about scalars that are not of the kind that their position
asks for, and about references to syntaxes that no package has. -/

namespace Scopewright
namespace Validation

open Document (Node Key Problem Scalar)
open Schema (Position)

/-! ### Structure -/

/-- What the format's grammar does not allow. -/
def parseFindings (problems : List Problem) : List Finding :=
  problems.map fun p =>
    ⟨p.span, .information, ("Parse error: " : Text) ++ p.message, .parseError⟩

/-- The keys of entries that come again and may not; `seen` ones have come before. -/
def repeatedKeys (p : Position) (seen : List Text) : List (Key × Node) → List Key
  | [] => []
  | (k, _) :: ms =>
    if (p.child? k.name).any fun q => q.label.isRepeatable then repeatedKeys p seen ms
    else if seen.contains k.name then k :: repeatedKeys p seen ms
    else repeatedKeys p (k.name :: seen) ms

/-- Keys that come again in their mapping. -/
def duplicateFindings (root : Node) (schema : Position) : List Finding :=
  (visited root schema).flatMap fun (n, p) =>
    (repeatedKeys p [] n.members).map fun k =>
      ⟨k.span, .information, ("Duplicate key " : Text) ++ quoted k.name, .duplicateKey⟩

/-- Keys that the schema does not have where they stand. -/
def unknownKeyFindings (root : Node) (schema : Position) : List Finding :=
  (visited root schema).flatMap fun (n, p) =>
    if p.acceptsMapping then
      (n.members.filter fun m => (p.child? m.1.name).isNone).map fun m =>
        ⟨m.1.span, .information,
          ("Unknown key " : Text) ++ quoted m.1.name ++ (" in " : Text) ++ p.name, .unknownKey⟩
    else []

/-! ### Values -/

/-- A value that counts as a boolean. -/
def isBoolean : Scalar → Bool
  | .bool _ => true
  | .number x => x == 0 || x == 1
  | _ => false

/-- What is wrong with a scalar that is not null at a position. -/
def valueProblem? (v : Scalar) (p : Position) : Option Text :=
  match p.kind, v with
  | .enum, .string t => do
    let allowed ← p.label.values
    let word ← (Text.words t).find? fun w => !allowed.contains w
    return ("Invalid value " : Text) ++ quoted word ++ (" for " : Text) ++ p.name
      ++ ("; expected " : Text) ++ Text.join ", " allowed
  | .boolean, v =>
    if isBoolean v then none else some (("Expected a boolean for " : Text) ++ p.name)
  | .number, .number _ => none
  | .number, _ => some (("Expected a number for " : Text) ++ p.name)
  | .color, .string t =>
    if Color.isValue t then none else some (("Invalid color for " : Text) ++ p.name)
  | .color, _ => some (("Invalid color for " : Text) ++ p.name)
  | _, _ => none

/-- Values that are not of the kind of their position. -/
def valueFindings (root : Node) (schema : Position) : List Finding :=
  (visited root schema).filterMap fun
    | (.scalar _ .null, _) => none
    | (.scalar span v, p) => (valueProblem? v p).map fun m => ⟨span, .hint, m, .invalidValue⟩
    | _ => none

/-- References to syntaxes that no package has; nothing is found before there are syntaxes. -/
def referenceFindings (root : Node) (schema : Position) (r : Registry) : List Finding :=
  if r.isEmpty then []
  else
    (visited root schema).filterMap fun (n, p) => do
      let path ← n.text?
      if p.label.target = some .syntaxFile ∧ Registry.Reference.pathMark.isPrefixOf path
          ∧ !r.snapshot.hasSyntax path then
        some ⟨n.span, .hint, ("Unknown syntax " : Text) ++ quoted path, .invalidValue⟩
      else none

end Validation
end Scopewright
