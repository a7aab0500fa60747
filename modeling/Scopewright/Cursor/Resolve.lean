import Scopewright.Cursor.Json
import Scopewright.Cursor.Markup
import Scopewright.Cursor.SyntaxTest
import Scopewright.Cursor.Yaml
import Scopewright.Dialect

/-! # The cursor in any document

`Cursor.resolve` tells what the cursor stands on, in the way of the document's format.  The
offset is brought into the text first. -/

namespace Scopewright
namespace Cursor

/-- What the cursor at an offset of a document stands on. -/
def resolve (t : Text) (offset : Int) (d : Dialect) : Resolution :=
  let at' := t.clamp offset
  match d.format with
  | .json => Json.resolve t at'
  | .yaml => Yaml.resolve t at'
  | .plist => Markup.resolve true t at'
  | .xml => Markup.resolve false t at'
  | .text => SyntaxTest.resolve t at'

end Cursor
end Scopewright
