import Scopewright.Dialect
import Scopewright.Schema.Definition
import Scopewright.Schema.Tool

/-! # The catalog of schemas

Each dialect has its schema (`Schema.root`), and a path of a document leads to a position of it
(`Schema.at?`). -/

namespace Scopewright
namespace Schema

/-- The position of a tree without named rules. -/
def plainRoot (n : Node) : Position := (Rules.position? [] n).getD ⟨[], default, none, none, none⟩

/-- The position of a whole document. -/
def root : Dialect → Position
  | .sublimeSyntax => (Rules.position? definitionRules definition).getD (plainRoot definition)
  | .tmLanguage => (Rules.position? grammarRules grammar).getD (plainRoot grammar)
  | .colorScheme => plainRoot colorScheme
  | .tmTheme => plainRoot theme
  | .tmPreferences => plainRoot metadata
  | .keymap => plainRoot keymap
  | .buildSystem => plainRoot buildSystem
  | .snippet => plainRoot snippet
  | .syntaxTest => plainRoot syntaxTest

/-- The position of a path in a document. -/
def at? (d : Dialect) (path : Cursor.Path) : Option Position := (root d).at? path

end Schema
end Scopewright
