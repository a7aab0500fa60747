import Scopewright.Yaml.Stream

/-! # YAML documents

The first document of a YAML text as a tree.  Entries with a key that is a scalar are kept, their
keys as text; an entry without a value, or with an alias for one, has the value null.  Of sequences
the items that are no aliases are kept. -/

namespace Scopewright
namespace Document

/-- The value of a scalar; other types are known by how they are shown. -/
def Scalar.ofDatum : Yaml.Datum → Scalar
  | .plain s => s
  | .other t => .string t

mutual

/-- The node of a tree, for all but aliases. -/
def Node.ofYaml? : Yaml.Node → Option Node
  | .scalar e d _ => some (.scalar e.span (.ofDatum d))
  | .reference _ => none
  | .map e ps => some (.object e.span (membersOfYaml ps))
  | .seq e ns => some (.array e.span (itemsOfYaml ns))
  | .pairs e => some (.array e.span [])

/-- The entries of a mapping. -/
def membersOfYaml : List (Yaml.Node × Option Yaml.Node) → List (Key × Node)
  | [] => []
  | (.scalar e d _, value) :: ps =>
    let missing : Node := .scalar ⟨e.valueStop, e.valueStop⟩ .null
    let node : Node :=
      match value with
      | some v => (Node.ofYaml? v).getD missing
      | none => missing
    (⟨d.toText, e.span⟩, node) :: membersOfYaml ps
  | _ :: ps => membersOfYaml ps

/-- The items of a sequence. -/
def itemsOfYaml : List Yaml.Node → List Node
  | [] => []
  | n :: ns =>
    match Node.ofYaml? n with
    | some m => m :: itemsOfYaml ns
    | none => itemsOfYaml ns

end

/-- The tree of a YAML text. -/
def yamlTree (t : Text) : Tree :=
  let d := Yaml.firstDocument t
  ⟨d.root.map fun n => (Node.ofYaml? n).getD (.unknown n.extent.span), d.problems⟩

end Document
end Scopewright
