import Scopewright.Cursor.Basic

/-! # Schemas

A schema says what a package file may hold at each position: a scalar of some kind, a mapping with
known or free keys, a sequence.  Rules nest inside rules, so the positions form a graph: a schema is
a tree of nodes (`Schema.Node`) in which a node may stand for a named rule, and a table of the
rules.

A `Schema.Position` is a node together with the table, so that one can go on from it:
`Position.child?` to the value of a key, `Position.items?` to the items of a sequence,
`Position.at?` along a whole path. -/

namespace Scopewright
namespace Schema

/-- What a position holds when its value is a scalar; the first two hold none. -/
inductive ValueKind where
  | object
  | array
  | string
  | enum
  | number
  | boolean
  | scopeSelector
  | scopeName
  | color
  | cssVariable
  | actionReference
  | regex
  | any
deriving DecidableEq, Repr, Inhabited

/-- The name of a kind. -/
def ValueKind.name : ValueKind → Text
  | object => "object"
  | array => "array"
  | string => "string"
  | enum => "enum"
  | number => "number"
  | boolean => "boolean"
  | scopeSelector => "scope-selector"
  | scopeName => "scope-name"
  | color => "color"
  | cssVariable => "css-variable"
  | actionReference => "action-reference"
  | regex => "regex"
  | any => "any"

/-- What a reference points at. -/
inductive Target where
  | context
  | inclusion
  | syntaxFile
deriving DecidableEq, Repr, Inhabited

/-- The name of a target. -/
def Target.name : Target → Text
  | context => "context"
  | inclusion => "include"
  | syntaxFile => "syntax-file"

/-- What is known of a position by itself. -/
structure Label where
  name : Text
  kind : ValueKind
  description : Option Text
  /-- The values of an enumeration, or the fixed names of a reference. -/
  values : Option (List Text)
  target : Option Target
  /-- The key may come more than once in a mapping. -/
  isRepeatable : Bool
deriving DecidableEq, Inhabited

/-- A node of a schema: a position with its known keys, the position of all other keys, and the
position of the items of a sequence; or the name of a rule. -/
inductive Node where
  | node (label : Label) (keys : Option (List Node)) (anyKey items : Option Node)
  | rule (name : Text)

instance : Inhabited Node := ⟨.rule []⟩

namespace Node

/-- A position that holds a scalar. -/
def scalar (name : Text) (kind : ValueKind) (description : Option Text) : Node :=
  node ⟨name, kind, description, none, none, false⟩ none none none

/-- A position that holds a string. -/
def str (name : Text) (description : Option Text) : Node := scalar name .string description

/-- A position that holds a boolean. -/
def bool (name : Text) (description : Option Text) : Node := scalar name .boolean description

/-- A position that holds a regular expression. -/
def regex (name : Text) (description : Option Text) : Node := scalar name .regex description

/-- A position that holds a color. -/
def color (name : Text) (description : Option Text) : Node := scalar name .color description

/-- A position that holds one of some values. -/
def oneOf (name : Text) (values : List Text) (description : Option Text) : Node :=
  node ⟨name, .enum, description, values, none, false⟩ none none none

/-- A position that holds a mapping with known keys. -/
def mapping (name : Text) (keys : List Node) (description : Option Text) : Node :=
  node ⟨name, .object, description, none, none, false⟩ keys none none

/-- A position that holds a mapping whose keys the author chooses. -/
def dictionary (name : Text) (anyKey : Node) (description : Option Text) : Node :=
  node ⟨name, .object, description, none, none, false⟩ none anyKey none

/-- A position that holds a sequence. -/
def list (name : Text) (items : Node) (description : Option Text) : Node :=
  node ⟨name, .array, description, none, none, false⟩ none none items

/-- A position that holds a reference. -/
def reference (name : Text) (target : Target) (description : Option Text)
    (values : Option (List Text)) : Node :=
  node ⟨name, .actionReference, description, values, target, false⟩ none none none

/-- The position may hold a mapping with these keys besides. -/
def orMapping (n : Node) (keys : List Node) : Node :=
  match n with
  | node l _ a i => node l keys a i
  | rule r => rule r

/-- The position may hold a sequence of these items besides. -/
def orList (n items : Node) : Node :=
  match n with
  | node l k a _ => node l k a items
  | rule r => rule r

/-- The position has fixed names besides. -/
def withValues (n : Node) (values : List Text) : Node :=
  match n with
  | node l k a i => node { l with values := some values } k a i
  | rule r => rule r

end Node

/-- The named rules of a schema. -/
abbrev Rules := List (Text × Node)

/-- A node of a schema that is no name, and the rules that the names in it stand for. -/
structure Position where
  rules : Rules
  label : Label
  keyNodes : Option (List Node)
  anyKeyNode : Option Node
  itemsNode : Option Node

/-- The position of a node; a name stands for its rule. -/
def Rules.position? (rules : Rules) : Node → Option Position
  | .node label keys anyKey items => some ⟨rules, label, keys, anyKey, items⟩
  | .rule name =>
    match rules.lookup name with
    | some (.node label keys anyKey items) => some ⟨rules, label, keys, anyKey, items⟩
    | _ => none

namespace Position

variable (p : Position)

/-- The name of the position. -/
def name : Text := p.label.name

/-- The kind of its scalars. -/
def kind : ValueKind := p.label.kind

/-- The positions of the known keys of a mapping. -/
def keys? : Option (List Position) :=
  p.keyNodes.map fun nodes => nodes.filterMap p.rules.position?

/-- The position of the keys that are not known. -/
def anyKey? : Option Position := p.anyKeyNode.bind p.rules.position?

/-- The position of the items of a sequence. -/
def items? : Option Position := p.itemsNode.bind p.rules.position?

/-- The position of a key's value. -/
def child? (key : Text) : Option Position :=
  ((p.keys?.getD []).find? fun c => decide (c.name = key)).or p.anyKey?

/-- The position one step down; all items of a sequence have the same one. -/
def step? : Cursor.Segment → Option Position
  | .key key => p.child? key
  | .index _ => p.items?

/-- The position at the end of a path. -/
def at? (p : Position) : Cursor.Path → Option Position
  | [] => some p
  | s :: path =>
    match p.step? s with
    | some q => q.at? path
    | none => none

/-- The position may hold a mapping. -/
def acceptsMapping : Bool := p.keyNodes.isSome || p.anyKeyNode.isSome

/-- The position may hold a scalar. -/
def acceptsScalar : Bool := p.kind != .object && p.kind != .array

end Position
end Schema
end Scopewright
