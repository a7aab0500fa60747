import Scopewright.Dialect
import Scopewright.Document.Markup
import Scopewright.Document.Yaml
import Scopewright.Json.Tree

/-! # Reading a document

A document is read as a whole in the grammar of its format (`Document.read`).  A text without a
format of its own has no tree. -/

namespace Scopewright
namespace Document

/-- The tree of a document in the given format. -/
def read (t : Text) : Format → Tree
  | .json => Json.tree t
  | .yaml => yamlTree t
  | .plist => plistTree t
  | .xml => xmlTree t
  | .text => .empty

end Document
end Scopewright
