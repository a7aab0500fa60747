import Scopewright.Markup.Piece

/-! # Elements

The pieces of a document nest into elements (`Markup.Node`).  A closing tag closes the innermost
element of its name with all that is open inside, and nothing when there is none.  Elements
that are open at the end of the text end there, with their span reaching past the text by the
unit that would have closed them. -/

namespace Scopewright
namespace Markup

/-- Character data, or an element with what stands inside. -/
inductive Node where
  | data (text : Text)
  | element (name : Text) (span : Span) (children : List Node)
deriving Inhabited

/-- An element. -/
structure Element where
  name : Text
  span : Span
  children : List Node

/-- The element that a node is. -/
def Node.element? : Node → Option Element
  | element name span children => some ⟨name, span, children⟩
  | data _ => none

mutual

/-- The character data of a node. -/
def Node.textContent : Node → Text
  | .data t => t
  | .element _ _ children => contentOf children

/-- The character data of nodes in order. -/
def contentOf : List Node → Text
  | [] => []
  | n :: ns => n.textContent ++ contentOf ns

end

/-- The elements among nodes. -/
def elementsOf (nodes : List Node) : List Element := nodes.filterMap Node.element?

/-- The elements inside an element. -/
def Element.elements (e : Element) : List Element := elementsOf e.children

/-- The character data of an element. -/
def Element.textContent (e : Element) : Text := contentOf e.children

/-- An element that is open, with what stands inside so far, last first. -/
structure Open where
  name : Text
  start : Nat
  reversed : List Node

/-- The open elements, innermost first, and what stands outside of all, last first. -/
structure Builder where
  stack : List Open
  outside : List Node
  /-- Where the next element begins. -/
  next : Nat

namespace Builder

/-- Nothing read yet. -/
def start : Builder := ⟨[], [], 0⟩

/-- Adds a node where the reading stands. -/
def add (b : Builder) (n : Node) : Builder :=
  match b.stack with
  | [] => { b with outside := n :: b.outside }
  | o :: os => { b with stack := { o with reversed := n :: o.reversed } :: os }

/-- Closes the innermost element, at the unit `stop`. -/
def close (b : Builder) (stop : Nat) : Builder :=
  match b.stack with
  | [] => b
  | o :: os =>
    add { b with stack := os } (.element o.name ⟨o.start, stop + 1⟩ o.reversed.reverse)

/-- Closes a number of elements. -/
def closeMany (stop : Nat) : Nat → Builder → Builder
  | 0, b => b
  | n + 1, b => closeMany stop n (b.close stop)

/-- Reads a piece. -/
def read (b : Builder) (p : Piece) : Builder :=
  let b' := match p.kind with
    | .text t => b.add (.data t)
    | .opening name => { b with stack := ⟨name, b.next, []⟩ :: b.stack }
    | .empty name => b.add (.element name ⟨b.next, p.stop + 1⟩ [])
    | .closing name =>
      match b.stack.findIdx? fun (o : Open) => decide (o.name = name) with
      | some k => closeMany p.stop (k + 1) b
      | none => b
    | .aside => b
  { b' with next := p.next }

/-- Reads what the end of the text leaves over and closes all elements. -/
def finish (b : Builder) (t : Tail) : List Node :=
  let b := if t.text.isEmpty then b else b.add (.data t.text)
  let stop := t.next.getD b.next
  (closeMany stop b.stack.length b).outside.reverse

end Builder

/-- The nodes of a document. -/
def nodes (t : Text) : List Node :=
  let (ps, tail) := pieces t
  (ps.foldl Builder.read .start).finish tail

/-- The document element, the first one outside of all others. -/
def root? (t : Text) : Option Element := (elementsOf (nodes t)).head?

end Markup
end Scopewright
