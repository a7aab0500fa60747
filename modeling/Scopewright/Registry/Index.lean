import Scopewright.Document.Read
import Scopewright.Failure
import Scopewright.Registry.Harvest

/-! # Indexing a syntax file

The record of a syntax file (`Record.ofFile`), unless the file is no syntax definition, does not
parse, or is no mapping. -/

namespace Scopewright
namespace Registry

open Document (Node)

/-- The text of a string node without white space at its ends, if anything is left. -/
def scalarText? (n : Option Node) : Option Text :=
  ((n.bind Node.text?).map Text.trim).filter fun t => !t.isEmpty

/-- The extension of grammars that are hidden by their name. -/
def hiddenExtension : Text := ".hidden-tmlanguage"

/-- The record of a `.sublime-syntax` definition with the given root. -/
def definitionRecord (file : File) (root : Node) : Record :=
  let found := Harvest.collect Harvest.definitionRule true [root]
  ⟨file.resourcePath, file.packageId, scalarText? (root.child? "scope"),
    (root.child? "hidden").any Node.isTrue, Text.sortUnique found.scopes, found.references⟩

/-- The record of a grammar with the given root. -/
def grammarRecord (file : File) (root : Node) : Record :=
  let found := Harvest.collect Harvest.grammarRule true [root]
  let base := scalarText? (root.child? "scopeName")
  ⟨file.resourcePath, file.packageId, base,
    (root.child? "hideFromUser").any Node.isTrue
      || PathName.extensionKey file.resourcePath = hiddenExtension,
    Text.sortUnique (found.scopes ++ base.toList), found.references⟩

/-- The record of a syntax file. -/
def Record.ofFile (file : File) : Except Failure Record :=
  let refuse (reason : Text) : Except Failure Record :=
    .error (.indexing file.resourcePath reason none)
  let read (d : Dialect) (record : File → Node → Record) : Except Failure Record :=
    let tree := Document.read file.text d.format
    match tree.problems, tree.root with
    | p :: _, _ => refuse p.message
    | [], some root => if root.isObject then .ok (record file root)
                       else refuse "document is not a mapping"
    | [], none => refuse "document is not a mapping"
  match Dialect.ofFileName? file.resourcePath with
  | some .sublimeSyntax => read .sublimeSyntax definitionRecord
  | some .tmLanguage => read .tmLanguage grammarRecord
  | _ => refuse "not a syntax definition"

end Registry
end Scopewright
