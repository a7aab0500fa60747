import Scopewright.Failure
import Scopewright.Log
import Scopewright.Registry.Reach
import Scopewright.Registry.Record

/-! # Snapshots

All that is known of the installed syntaxes at one time (`Registry.Snapshot`), made from their
records by `Snapshot.ofRecords`.  References are resolved among the records: by path, and by base
scope to the first record that has it.  Two records may share a path, so a record counts together
with its place among the others (`Numbered`).

A scope is internal when only hidden syntaxes lead to it.  Each cycle of references is warned of
once. -/

namespace Scopewright
namespace Registry

/-- A record and its place among others. -/
abbrev Numbered := Record × Nat

/-- The records that a record with a base scope or a path stands for. -/
def resolve? (records : List Numbered) : Reference → Option Numbered
  | .scope name =>
    records.find? fun r => decide (r.1.baseScope = some name) && !name.isEmpty
  | .path path => records.reverse.find? fun r => decide (r.1.resourcePath = path)

/-- The graph of references among records. -/
def referenceGraph (records : List Numbered) : Graph Numbered where
  nodes := records
  path r := r.1.resourcePath
  targets r := r.1.references.filterMap (resolve? records)

/-- By name, then by source. -/
def Entry.le (a b : Entry) : Bool :=
  if a.name = b.name then Text.le a.source b.source else Text.le a.name b.name

/-- The entries of a record. -/
def Record.entries (r : Record) (internal : Bool) : List Entry :=
  r.ownScopes.map fun name => ⟨name, r.resourcePath, r.packageId, internal⟩

/-- The beginnings of a name up to a point, and the name itself. -/
def dottedPrefixes (name : Text) : List Text :=
  let parts := Text.splitOn '.' name
  (List.range parts.length).map fun i => Text.join "." (parts.take (i + 1))

/-- All that is known of the installed syntaxes. -/
structure Snapshot where
  /-- By name, then by source. -/
  entries : List Entry
  /-- By resource path. -/
  records : List Record
  /-- All scopes and their beginnings up to a point, in order. -/
  knownScopes : List Text
deriving DecidableEq, Inhabited

namespace Snapshot

/-- Nothing is installed. -/
def empty : Snapshot := ⟨[], [], []⟩

/-- The records by resource path. -/
def sortRecords (records : List Record) : List Record :=
  records.mergeSort fun a b => Text.le a.resourcePath b.resourcePath

/-- The cycles without those that have the members of an earlier one. -/
def distinctCycles (cycles : List (List Text)) : List (List Text) :=
  let key (cycle : List Text) : Text := Text.join "\n" (Text.sortUnique cycle)
  (cycles.foldl (fun (seen, kept) cycle =>
    if seen.contains (key cycle) then (seen, kept) else (key cycle :: seen, cycle :: kept))
    (([] : List Text), ([] : List (List Text)))).2.reverse

/-- The warning of a cycle. -/
def cycleWarning (cycle : List Text) : Log.Message := ⟨.warn, (Failure.cycle cycle).message⟩

/-- The snapshot of some records, and the warnings of their cycles. -/
def ofRecords (records : List Record) : Snapshot × Log :=
  let sorted := sortRecords records
  let numbered : List Numbered := sorted.zipIdx
  let graph := referenceGraph numbered
  let searches := numbered.map fun root => (root.1.hidden, graph.reach root)
  let visible := (searches.filter (!·.1)).flatMap fun s =>
    s.2.nodes.map fun r => r.1.resourcePath
  let entries := sorted.flatMap fun r =>
    r.entries (r.hidden && !visible.contains r.resourcePath)
  (⟨entries.mergeSort Entry.le, sorted,
      Text.sortUnique ((sorted.flatMap Record.ownScopes).flatMap dottedPrefixes)⟩,
    (distinctCycles (searches.flatMap fun s => s.2.cycles)).map cycleWarning)

variable (s : Snapshot)

/-- The entries whose name contains a word, the ones that begin with it first. -/
def query (word : Text) (includeInternal : Bool) : List Entry :=
  let offered := s.entries.filter fun e => includeInternal || !e.internal
  (offered.filter fun e => word.isPrefixOf e.name)
    ++ offered.filter fun e => !word.isPrefixOf e.name && Text.has word e.name

/-- A scope, or the beginning of one up to a point. -/
def hasScope (scope : Text) : Bool := s.knownScopes.contains scope

/-- The base scopes of the syntaxes that are not hidden. -/
def baseScopes : List Text :=
  Text.sortUnique <| (s.records.filter (!·.hidden)).filterMap fun r =>
    r.baseScope.filter fun t => !t.isEmpty

/-- The resource paths of the syntaxes that are not hidden. -/
def syntaxPaths : List Text := (s.records.filter (!·.hidden)).map (·.resourcePath)

/-- There is a syntax with a resource path. -/
def hasSyntax (path : Text) : Bool := s.records.any fun r => decide (r.resourcePath = path)

end Snapshot
end Registry
end Scopewright
