import Scopewright.Package.Event
import Scopewright.Package.Load
import Scopewright.Registry.Basic

/-! # Tasks

A task changes the registry after some reading (`Engine.Task`): a client tells that a package
changed, or the packages directories are scanned.  What it reads decides the change
(`Task.reading`); the registry stays out of it, so the reading may take any time. -/

namespace Scopewright
namespace Engine

open Disk (Reading)
open Registry (Change File)

/-- What takes reading. -/
inductive Task where
  | package (event : Package.Event)
  | scan (roots : List Text)
deriving DecidableEq, Inhabited

/-- What a task has read: the change to make and the messages about the reading. -/
structure Outcome where
  change : Change
  log : Log

/-- A warning. -/
def warning (text : Text) : Log.Message := ⟨.warn, text⟩

/-- The warnings of files that could not be read. -/
def failureWarnings (fs : List Failure) : Log := fs.map fun f => warning f.chain

/-- Reads the files that a client has named. -/
def readEvent (e : Package.Event) : Reading Outcome :=
  if e.kind = .removed then return ⟨.invalidate e.packageId, []⟩
  else do
    let loaded ← Package.readFiles e.packageId e.packagePath e.named
    return ⟨.replace e.packageId (e.supplied ++ loaded.files), failureWarnings loaded.failures⟩

/-- What a scan has found so far. -/
structure Found where
  packages : Table (List File)
  log : Log

/-- Reads a package that a scan has found. -/
def scanPackage (found : Found) (l : Package.Location) : Reading Found := do
  match ← Package.load l with
  | .ok loaded =>
    return ⟨Table.set found.packages l.packageId loaded.files,
      found.log ++ failureWarnings loaded.failures⟩
  | .error f =>
    return { found with log := found.log ++
      [warning (("Cannot read package " : Text) ++ l.packageId ++ (": " : Text) ++ f.message)] }

/-- Reads the packages in a packages directory. -/
def scanRoot (found : Found) (root : Text) : Reading Found := do
  match ← Package.discover root with
  | .ok locations => locations.foldlM scanPackage found
  | .error f =>
    return { found with log := found.log ++
      [warning (("Cannot read packages directory " : Text) ++ root ++ (": " : Text)
        ++ f.message)] }

/-- Reads the packages in all packages directories; of two packages with one name the later
counts. -/
def readScan (roots : List Text) : Reading Outcome := do
  let found ← roots.foldlM scanRoot ⟨[], []⟩
  return ⟨.scan found.packages, found.log⟩

/-- What a task reads. -/
def Task.reading : Task → Reading Outcome
  | package e => readEvent e
  | scan roots => readScan roots

end Engine
end Scopewright
