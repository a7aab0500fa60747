import Scopewright.Payload
import Scopewright.Registry.Record

/-! # Package events

A client tells that a package was added, updated or removed (`Package.Event`), and gives the
syntax files that the package now has, by their names or with their contents.  The notice comes as
untyped data (`Event.ofPayload?`). -/

namespace Scopewright
namespace Package

/-- What has happened to a package. -/
inductive EventKind where
  | added
  | updated
  | removed
deriving DecidableEq, Repr, Inhabited

namespace EventKind

/-- All kinds of events. -/
def all : List EventKind := [added, updated, removed]

/-- The name of a kind. -/
def name : EventKind → Text
  | added => "added"
  | updated => "updated"
  | removed => "removed"

/-- The kind of a name. -/
def ofName? (t : Text) : Option EventKind := all.find? fun k => decide (k.name = t)

end EventKind

/-- A syntax file as a client gives it. -/
inductive SyntaxFile where
  /-- A file to be read. -/
  | named (path : Text)
  /-- A file with its contents. -/
  | supplied (file : Registry.File)
deriving DecidableEq, Inhabited

/-- A notice that the syntax files of a package have changed. -/
structure Event where
  kind : EventKind
  packageId : Text
  /-- The directory of the package. -/
  packagePath : Option Text
  syntaxFiles : List SyntaxFile
deriving DecidableEq, Inhabited

namespace SyntaxFile

/-- A name, or a resource path with contents; the package is the one of the notice unless another one is
given. -/
def ofPayload? (packageId : Text) (p : Payload) : Option SyntaxFile :=
  match p with
  | .string path => some (.named path)
  | _ => do
    let resourcePath ← p.textField? "resourcePath"
    let text ← p.textField? "text"
    return .supplied ⟨resourcePath, (p.textField? "packageId").getD packageId, text⟩

end SyntaxFile

namespace Event

/-- The notice in untyped data: its kind and its package must be there, files that are no files are
left out. -/
def ofPayload? (p : Payload) : Option Event := do
  let kind ← (← p.textField? "kind") |> EventKind.ofName?
  let packageId ← (p.textField? "packageId").filter fun t => !t.isEmpty
  let files := ((p.field? "syntaxFiles").bind Payload.items?).getD []
  return ⟨kind, packageId, p.textField? "packagePath",
    files.filterMap (SyntaxFile.ofPayload? packageId)⟩

/-- The files that come with their contents. -/
def supplied (e : Event) : List Registry.File :=
  e.syntaxFiles.filterMap fun
    | .supplied file => some file
    | .named _ => none

/-- The names of the files to be read. -/
def named (e : Event) : List Text :=
  e.syntaxFiles.filterMap fun
    | .named path => some path
    | .supplied _ => none

end Event
end Package
end Scopewright
