import Scopewright.Document.Basic
import Scopewright.Markup.Element

/-! # Trees of property lists and element documents

In a property list the element names are types: dictionaries alternate keys and values, and a
value without a key is passed over (`Document.plistNode`).  In an element document the names
are keys, elements with elements inside are mappings, and others are strings
(`Document.xmlMember`); the document element is the single entry of the root. -/

namespace Scopewright
namespace Document

open Markup (Element elementsOf contentOf root?)

/-- The value of a numeric element; text that is no number stays a string. -/
def numericScalar (t : Text) : Scalar :=
  if t.trim.isEmpty then .string t
  else match Number.ofText? t with
    | some x => .number x
    | none => .string t

/-- The entry of a key without a value. -/
def lonelyKey (k : Key) : Key × Node := (k, .unknown ⟨k.span.stop, k.span.stop⟩)

mutual

/-- The node of an element of a property list; none for character data. -/
def plistNode : Markup.Node → Option Node
  | .data _ => none
  | .element name span children =>
    let text := contentOf children
    some <|
      if name = "dict" then .object span (plistMembers none children)
      else if name = "array" then .array span (plistItems children)
      else if name = "string" ∨ name = "date" ∨ name = "data" then .scalar span (.string text)
      else if name = "integer" ∨ name = "real" then .scalar span (numericScalar text)
      else if name = "true" then .scalar span (.bool true)
      else if name = "false" then .scalar span (.bool false)
      else .unknown span

/-- The nodes of the elements of an array. -/
def plistItems : List Markup.Node → List Node
  | [] => []
  | n :: ns => (plistNode n).toList ++ plistItems ns

/-- The entries of a dictionary; `pending` is a key that waits for its value. -/
def plistMembers (pending : Option Key) : List Markup.Node → List (Key × Node)
  | [] => (pending.map lonelyKey).toList
  | n :: ns =>
    match n.element? with
    | none => plistMembers pending ns
    | some e =>
      if e.name = "key" then plistMembers (some ⟨Text.trim e.textContent, e.span⟩) ns
      else match pending, plistNode n with
        | some k, some v => (k, v) :: plistMembers none ns
        | _, _ => plistMembers pending ns

end

/-- The key of an element: its name, with the `<` in front. -/
def elementKey (name : Text) (span : Span) : Key := ⟨name, ⟨span.start, span.start + name.length + 1⟩⟩

mutual

/-- The entry of an element; none for character data. -/
def xmlMember : Markup.Node → Option (Key × Node)
  | .data _ => none
  | .element name span children =>
    let inner := xmlMembers children
    some (elementKey name span,
      if inner.isEmpty then .scalar span (.string (contentOf children)) else .object span inner)

/-- The entries of the elements among nodes. -/
def xmlMembers : List Markup.Node → List (Key × Node)
  | [] => []
  | n :: ns => (xmlMember n).toList ++ xmlMembers ns

end

/-- An element as a node. -/
def ofElement (e : Element) : Markup.Node := .element e.name e.span e.children

/-- The tree of a property list; the dictionary may stand alone or in a `plist` element. -/
def plistTree (t : Text) : Tree :=
  let top := (root? t).bind fun e => if e.name = "plist" then e.elements.head? else some e
  ⟨top.bind (plistNode ∘ ofElement), []⟩

/-- The tree of an element document. -/
def xmlTree (t : Text) : Tree :=
  ⟨(root? t).map fun e => .object ⟨0, t.length⟩ (xmlMember (ofElement e)).toList, []⟩

end Document
end Scopewright
