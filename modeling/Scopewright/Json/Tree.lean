import Scopewright.Json.Event

/-! # The tree of a document in JSON

The events of a document build its tree (`Json.nodeOf`): a stack of open collections, the
innermost first, each with the entries it has so far.  An entry whose value is missing holds an
unknown node right behind its key.  `Json.tree` reads a text with comments and with commas
before the end of a collection; the faults become the tree's problems. -/

namespace Scopewright
namespace Json

open Document (Key Node Tree Problem)

/-- A collection that is being built. -/
inductive Open where
  | object (start : Nat) (members : List (Key × Node)) (pending : Option Key)
  | array (start : Nat) (items : List Node)

/-- The entry of a key without a value. -/
def bareEntry (k : Key) : Key × Node := (k, .unknown ⟨k.span.stop, k.span.stop⟩)

/-- Puts a value into a collection: under the key that waits for it, or as an item. -/
def Open.add (o : Open) (n : Node) : Open :=
  match o with
  | object start members (some k) => object start (members ++ [(k, n)]) none
  | object start members none => object start members none
  | array start items => array start (items ++ [n])

/-- Gives up waiting for the value of a key. -/
def Open.settle (o : Open) : Open :=
  match o with
  | object start members (some k) => object start (members ++ [bareEntry k]) none
  | o => o

/-- Notes a key. -/
def Open.expect (o : Open) (k : Key) : Open :=
  match o.settle with
  | object start members _ => object start members (some k)
  | o => o

/-- The node of a collection that ends at `stop`. -/
def Open.close (o : Open) (stop : Nat) : Node :=
  match o.settle with
  | object start members _ => .object ⟨start, stop⟩ members
  | array start items => .array ⟨start, stop⟩ items

/-- The node that the events build: the first value outside all collections. -/
def nodeOf (stack : List Open) : List Event → Option Node
  | [] => none
  | e :: es =>
    match e.kind, stack with
    | .objectBegin, _ => nodeOf (.object e.start [] none :: stack) es
    | .arrayBegin, _ => nodeOf (.array e.start [] :: stack) es
    | .literal v, [] => some (.scalar e.span v)
    | .literal v, o :: os => nodeOf (o.add (.scalar e.span v) :: os) es
    | .property name, o :: os => nodeOf (o.expect ⟨name, e.span⟩ :: os) es
    | .comma, o :: os => nodeOf (o.settle :: os) es
    | .objectEnd, [o] => some (o.close e.stop)
    | .arrayEnd, [o] => some (o.close e.stop)
    | .objectEnd, o :: p :: os => nodeOf (p.add (o.close e.stop) :: os) es
    | .arrayEnd, o :: p :: os => nodeOf (p.add (o.close e.stop) :: os) es
    | _, _ => nodeOf stack es

/-- The faults among the events. -/
def problems (es : List Event) : List Problem :=
  es.filterMap fun e => match e.kind with
    | .fault cause => some ⟨cause.name, e.span⟩
    | _ => none

/-- The tree of a document. -/
def tree (t : Text) : Tree :=
  let es := events true t
  ⟨nodeOf [] es, problems es⟩

end Json
end Scopewright
