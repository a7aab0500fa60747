import Scopewright.Registry.Index
import Scopewright.Registry.Snapshot
import Scopewright.Table

/-! # The scope registry

The registry keeps the records of every package and a snapshot of them all.  A change gives a
new registry with the messages to log: the files of a package are replaced
(`Registry.replace`), a package is dropped (`Registry.invalidate`), or the result of a scan of the
package directories replaces that of the scan before (`Registry.replaceScanned`).  Queries
read the snapshot. -/

namespace Scopewright

open Registry (File Record Entry Snapshot)

/-- What is known of the installed packages. -/
structure Registry where
  snapshot : Snapshot
  packages : Table (List Record)
  /-- The packages that the last scan has found. -/
  scanned : List Text

namespace Registry

/-- No packages. -/
def empty : Registry := ⟨.empty, [], []⟩

/-- The records of the files that can be indexed, and warnings of the others.  Of two files with one
path the last one counts. -/
def indexFiles (files : List File) : List Record × Log :=
  let results := files.map Record.ofFile
  let records := results.filterMap Except.toOption
  let warnings := results.filterMap fun
    | .error f => some (⟨.warn, f.message⟩ : Log.Message)
    | .ok _ => none
  ((Table.ofList (records.map fun r => (r.resourcePath, r))).map (·.2), warnings)

variable (r : Registry)

/-- The registry with other packages, and the warnings of the new snapshot. -/
def swap (packages : Table (List Record)) : Registry × Log :=
  let (snapshot, log) := Snapshot.ofRecords (packages.flatMap (·.2))
  ({ r with snapshot, packages }, log)

/-- Replaces all that a package contributes. -/
def replace (packageId : Text) (files : List File) : Registry × Log :=
  let (records, warnings) := indexFiles files
  let (r, log) := r.swap (Table.set r.packages packageId records)
  (r, warnings ++ log ++ [⟨.info,
    ("Indexed " : Text) ++ .ofNat records.length ++ (" of " : Text) ++ .ofNat files.length
      ++ (" syntax files in " : Text) ++ packageId⟩])

/-- Drops a package. -/
def invalidate (packageId : Text) : Registry × Log :=
  let r := { r with scanned := r.scanned.filter fun p => decide (p ≠ packageId) }
  if Table.has r.packages packageId then
    let (r, log) := r.swap (Table.erase r.packages packageId)
    (r, log ++ [⟨.info, ("Removed package " : Text) ++ packageId⟩])
  else (r, [])

/-- Replaces the result of the scan before.  Packages that only it has found are dropped; those that
came otherwise stay. -/
def replaceScanned (found : Table (List File)) : Registry × Log :=
  let kept := r.packages.filter fun p =>
    !(r.scanned.contains p.1 && !Table.has found p.1)
  let indexed := found.map fun p => (p.1, indexFiles p.2)
  let packages := indexed.foldl (fun t p => Table.set t p.1 p.2.1) kept
  let (r, log) := { r with scanned := Table.names found }.swap packages
  (r, indexed.flatMap (·.2.2) ++ log)

/-- The entries that a file contributes with the syntaxes it refers to, in the state that the
registry has; nothing changes. -/
def index (file : File) : List Entry × Log :=
  match Record.ofFile file with
  | .error f => ([], [⟨.warn, f.message⟩])
  | .ok record =>
    let others := r.snapshot.records.filter fun s =>
      decide (s.resourcePath ≠ record.resourcePath)
    let numbered : List Numbered := (record :: others).zipIdx
    let reached := (referenceGraph numbered).reach (record, 0)
    let entries := reached.nodes.flatMap fun s => s.1.entries (record.hidden && s.1.hidden)
    (entries.mergeSort Entry.le, reached.cycles.map Snapshot.cycleWarning)

/-- The number of entries. -/
def size : Nat := r.snapshot.entries.length

/-- There are no entries. -/
def isEmpty : Bool := r.snapshot.entries.isEmpty

/-- A change of the registry. -/
inductive Change where
  | replace (packageId : Text) (files : List File)
  | invalidate (packageId : Text)
  | scan (found : Table (List File))
  | fail (failure : Failure)

/-- Makes a change; one that fails is logged and changes nothing. -/
def apply : Change → Registry × Log
  | .replace packageId files => r.replace packageId files
  | .invalidate packageId => r.invalidate packageId
  | .scan found => r.replaceScanned found
  | .fail f => (r, [⟨.error, ("Registry update failed: " : Text) ++ f.message⟩])

/-- Makes changes one after the other. -/
def applyAll (r : Registry) : List Change → Registry × Log
  | [] => (r, [])
  | c :: cs =>
    let (r, log) := r.apply c
    let (r, more) := applyAll r cs
    (r, log ++ more)

end Registry
end Scopewright
