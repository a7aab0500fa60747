import Scopewright.Registry.Basic

/-! # Known scopes

The scope naming conventions give some scopes that begin all others (`Scope.conventional`); they
are always known, and so is every scope that the registry has (`Scope.isKnown`). -/

namespace Scopewright
namespace Scope

/-- The scopes of the naming conventions. -/
def conventional : List Text := Text.ofStrings [
  "comment", "constant", "entity", "invalid", "keyword", "markup", "meta", "punctuation",
  "region", "source", "storage", "string", "support", "text", "variable"]

/-- The registry has the scope, or it is one of the conventions. -/
def isKnown (r : Registry) (scope : Text) : Bool :=
  conventional.contains scope || r.snapshot.hasScope scope

/-- A word that begins with this unit asks for internal scopes too. -/
def internalMark : CodeUnit := '_'

end Scope
end Scopewright
