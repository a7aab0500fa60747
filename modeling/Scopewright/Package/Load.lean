import Scopewright.Disk.Reading
import Scopewright.Registry.Record

/-! # Loading packages

A packages directory holds one directory per package (`Package.discover`), and the syntax files of a
package may stand anywhere below its directory (`Package.load`).  A file that cannot be read is a
failure of its own and does not stop the others (`Package.readFiles`). -/

namespace Scopewright
namespace Package

open Disk (Reading)
open Registry (File)

/-- A package and its directory. -/
structure Location where
  packageId : Text
  packagePath : Text
deriving DecidableEq, Inhabited

/-- What was read of some files. -/
structure Loaded where
  files : List File
  failures : List Failure

/-- The packages in a packages directory, by name. -/
def discover (root : Text) : Reading (Except Failure (List Location)) := do
  let names ← Reading.ofQuestion (.directories root)
  return Except.map (List.map fun name => ⟨name, PathName.join root name⟩) names

/-- Reads a file of a package. -/
def readFile (packageId : Text) (packagePath : Option Text) (path : Text) :
    Reading (Except Failure File) := do
  let resourcePath := Registry.resourcePath packageId packagePath path
  match ← Reading.ofQuestion (.text path) with
  | .ok text => return .ok ⟨resourcePath, packageId, text⟩
  | .error f => return .error (.indexing resourcePath "unreadable file" (some f))

/-- Reads files of a package one after the other. -/
def readFiles (packageId : Text) (packagePath : Option Text) (paths : List Text) :
    Reading Loaded := do
  let results ← paths.mapM (readFile packageId packagePath)
  return ⟨results.filterMap Except.toOption, results.filterMap fun
    | .error f => some f
    | .ok _ => none⟩

/-- Reads all syntax files below the directory of a package. -/
def load (l : Location) : Reading (Except Failure Loaded) := do
  match ← Reading.ofQuestion (.syntaxFiles l.packagePath) with
  | .ok paths => return .ok (← readFiles l.packageId (some l.packagePath) paths)
  | .error f => return .error f

end Package
end Scopewright
