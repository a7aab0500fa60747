import Scopewright.Number.Total
import Scopewright.Payload

/-! # Documents as trees

All formats are read into one kind of tree (`Document.Node`): mappings with the places of their
keys, sequences, scalars, and nodes of which nothing is known.  Reading never fails; what the
format's grammar does not allow is listed beside the tree (`Document.Tree`).

`Node.plain` forgets the places, and `Node.child?` finds an entry by its key. -/

namespace Scopewright
namespace Document

open Number (total)

/-- The value of a scalar node. -/
inductive Scalar where
  | string (value : Text)
  | number (value : Float)
  | bool (value : Bool)
  | null
deriving Inhabited

/-- A key of a mapping, and where it is written. -/
structure Key where
  name : Text
  span : Span
deriving DecidableEq, Inhabited

/-- A node of a document. -/
inductive Node where
  | object (span : Span) (members : List (Key × Node))
  | array (span : Span) (items : List Node)
  | scalar (span : Span) (value : Scalar)
  | unknown (span : Span)
deriving Inhabited

/-- Something that the grammar of the format does not allow. -/
structure Problem where
  message : Text
  span : Span

/-- A document read as a whole. -/
structure Tree where
  root : Option Node
  problems : List Problem

namespace Node

/-- Where a node is written. -/
def span : Node → Span
  | object s _ => s
  | array s _ => s
  | scalar s _ => s
  | unknown s => s

/-- The entries of a mapping; none for other nodes. -/
def members : Node → List (Key × Node)
  | object _ ms => ms
  | _ => []

/-- The nodes one level down, those of a mapping with their keys. -/
def children : Node → List (Option Text × Node)
  | object _ ms => ms.map fun m => (some m.1.name, m.2)
  | array _ ns => ns.map fun n => (none, n)
  | _ => []

mutual

/-- The number of nodes, the node itself included. -/
def size : Node → Nat
  | object _ ms => membersSize ms + 1
  | array _ ns => itemsSize ns + 1
  | _ => 1

/-- The number of nodes in entries. -/
def membersSize : List (Key × Node) → Nat
  | [] => 0
  | (_, n) :: ms => size n + membersSize ms

/-- The number of nodes in items. -/
def itemsSize : List Node → Nat
  | [] => 0
  | n :: ns => size n + itemsSize ns

end

theorem membersSize_eq (ms : List (Key × Node)) :
    membersSize ms = total (ms.map fun m => m.2.size) := by
  induction ms with
  | nil => rfl
  | cons m ms ih => simp [membersSize, total, ih]

theorem itemsSize_eq (ns : List Node) : itemsSize ns = total (ns.map size) := by
  induction ns with
  | nil => rfl
  | cons n ns ih => simp [itemsSize, total, ih]

/-- The nodes one level down are all the other nodes. -/
theorem total_children_size (n : Node) : total (n.children.map fun c => c.2.size) + 1 = n.size := by
  cases n with
  | object s ms => simp [children, size, membersSize_eq, Function.comp_def]
  | array s ns => simp [children, size, itemsSize_eq, Function.comp_def]
  | scalar s v => rfl
  | unknown s => rfl

/-- The node is a mapping. -/
def isObject : Node → Bool
  | object .. => true
  | _ => false

/-- The text of a string node. -/
def text? : Node → Option Text
  | scalar _ (.string t) => some t
  | _ => none

/-- The node is the boolean `true`. -/
def isTrue : Node → Bool
  | scalar _ (.bool b) => b
  | _ => false

/-- The first entry of a mapping with the given key. -/
def member? (n : Node) (key : Text) : Option (Key × Node) :=
  n.members.find? fun m => decide (m.1.name = key)

/-- The value of the first entry with the given key. -/
def child? (n : Node) (key : Text) : Option Node := (n.member? key).map (·.2)

/-- The one key that plain data has no field for. -/
def reservedKey : Text := "__proto__"

/-- Plain fields in which a later value replaces an earlier one of the same name. -/
def putField (fields : List (Text × Payload)) (name : Text) (value : Payload) :
    List (Text × Payload) :=
  if name = reservedKey then fields
  else if fields.any (·.1 = name) then
    fields.map fun f => if f.1 = name then (name, value) else f
  else fields ++ [(name, value)]

mutual

/-- The data of a node without places; of two entries with one key the later one counts. -/
def plain : Node → Payload
  | object _ ms => .object (plainMembers [] ms)
  | array _ items => .array (plainItems items)
  | scalar _ (.string t) => .string t
  | scalar _ (.number x) => .number x
  | scalar _ (.bool b) => .bool b
  | scalar _ .null => .null
  | unknown _ => .null

/-- The data of entries, added to the fields before them. -/
def plainMembers (fields : List (Text × Payload)) : List (Key × Node) → List (Text × Payload)
  | [] => fields
  | (k, n) :: ms => plainMembers (putField fields k.name (plain n)) ms

/-- The data of items. -/
def plainItems : List Node → List Payload
  | [] => []
  | n :: ns => plain n :: plainItems ns

end

end Node

/-- A tree without a root. -/
def Tree.empty : Tree := ⟨none, []⟩

end Document
end Scopewright
