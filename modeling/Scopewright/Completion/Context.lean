import Scopewright.Color
import Scopewright.Cursor.Resolve
import Scopewright.Document.Read
import Scopewright.Schema.Catalog

/-! # What can be completed

The place of the cursor in the schema tells what can be completed there
(`Completion.Context`, `Completion.classify`).  Some of it is defined by the document itself: the
variables of a color scheme and the contexts of a syntax (`Completion.Names`). -/

namespace Scopewright
namespace Completion

/-- The names that a document defines. -/
structure Names where
  /-- The variables of a color scheme. -/
  variableNames : List Text
  /-- The contexts of a syntax, as references write them. -/
  contexts : List Text
deriving DecidableEq, Inhabited

namespace Names

/-- A document that defines nothing. -/
def none : Names := ⟨[], []⟩

/-- The keys of a mapping, each of them once, without the empty key. -/
def keysOf (n : Option Document.Node) : List Text :=
  let keys := ((n.map Document.Node.members).getD []).map fun m => m.1.name
  (keys.filter fun k => !k.isEmpty).eraseDups

/-- The names that the readable part of a document defines. -/
def ofDocument (t : Text) (d : Dialect) : Names :=
  let keys (name : Text) : List Text :=
    keysOf ((Document.read t d.format).root.bind (·.child? name))
  match d with
  | .colorScheme => ⟨keys "variables", []⟩
  | .sublimeSyntax => ⟨[], keys "contexts"⟩
  | .tmLanguage => ⟨[], (keys "repository").map (("#" : Text) ++ ·)⟩
  | _ => none

end Names

/-- What can be completed at a cursor. -/
inductive Context where
  /-- A key of a mapping. -/
  | keyName (parent : Schema.Position) (siblingKeys : List Text)
  /-- A word of a selector. -/
  | scopeSelector (node : Option Schema.Position) (word : Text) (wordStart : Int)
    (inSelector : Bool)
  /-- A reference to a variable. -/
  | cssVariable (word : Text) (wordStart : Int) (variableNames : List Text)
  /-- A reference to a context or a syntax. -/
  | actionName (node : Schema.Position) (contexts : List Text)
  /-- One of a few values. -/
  | valueEnum (node : Schema.Position)
  /-- A color. -/
  | color (node : Schema.Position) (variableNames : List Text)
  /-- Nothing that is known. -/
  | freeText

/-- The name of a kind of context. -/
def Context.name : Context → Text
  | .keyName .. => "key-name"
  | .scopeSelector .. => "scope-selector"
  | .cssVariable .. => "css-variable"
  | .actionName .. => "action-name"
  | .valueEnum .. => "value-enum"
  | .color .. => "color"
  | .freeText => "free-text"

/-- The reference to a variable that is being typed at the end of a token: the name so far, and
where it begins. -/
def reference? (token : Cursor.Token) : Option (Text × Int) :=
  (Color.reference? token.text).map fun name => (name, token.stop - name.length)

/-- The keys whose value is taken for a selector where the schema knows nothing. -/
def selectorKeys : List Text := ["scope", "selector"]

/-- A word of a selector at a token. -/
def selectorContext (node : Option Schema.Position) (token : Cursor.Token) : Context :=
  .scopeSelector node token.selector.word token.selector.wordStart token.selector.inParens

/-- The reference to a variable at a token, or something else. -/
def referenceOr (token : Cursor.Token) (names : Names) (other : Context) : Context :=
  match reference? token with
  | some (word, start) => .cssVariable word start names.variableNames
  | none => other

/-- What can be completed in a value at the end of a path. -/
def classifyValue (node : Option Schema.Position) (path : Cursor.Path) (token : Cursor.Token)
    (names : Names) : Context :=
  match node with
  | none =>
    match path.getLast? with
    | some (.key k) => if selectorKeys.contains k then selectorContext none token else .freeText
    | _ => .freeText
  | some node =>
    match node.kind with
    | .scopeSelector | .scopeName => selectorContext node token
    | .cssVariable => referenceOr token names .freeText
    | .color => referenceOr token names (.color node names.variableNames)
    | .actionReference => .actionName node names.contexts
    | .enum | .boolean => .valueEnum node
    | _ => if node.label.values.isSome then .valueEnum node else .freeText

/-- What can be completed at a resolved cursor.  A key is one of the mapping around it; where there
is no mapping but values, it is a value that has only begun. -/
def classify (r : Cursor.Resolution) (d : Dialect) (names : Names) : Context :=
  if r.malformed then .freeText
  else
    match r.token.position with
    | .unknown => .freeText
    | .value => classifyValue (Schema.at? d r.path) r.path r.token names
    | .key =>
      match Schema.at? d r.path.dropLast with
      | none => .freeText
      | some parent =>
        if parent.keyNodes.isSome then .keyName parent r.siblingKeys
        else if parent.acceptsMapping then .freeText
        else classifyValue parent r.path.dropLast r.token names

/-- What can be completed at an offset of a document. -/
def contextAt (t : Text) (offset : Int) (d : Dialect) : Context :=
  classify (Cursor.resolve t offset d) d (.ofDocument t d)

end Completion
end Scopewright
