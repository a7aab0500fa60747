import Scopewright.Number.Total
import Scopewright.Text.Basic

/-! # What a syntax leads to

Syntaxes refer to each other, possibly in cycles.  A graph (`Registry.Graph`) gives each node a path
and the nodes it refers to, in order.  `Graph.reach` searches it in depth from one node: every node
that the node leads to is found once, and a reference back into the current chain is reported as a cycle
and not followed.

`Graph.Leads` is the relation that the search decides. -/

namespace Scopewright
namespace Registry

/-- Nodes with paths, and the nodes that each of them refers to. -/
structure Graph (ν : Type) where
  nodes : List ν
  path : ν → Text
  targets : ν → List ν

namespace Graph

variable {ν : Type} [DecidableEq ν] (g : Graph ν)

/-- A chain of references leads from one node to another. -/
inductive Leads (g : Graph ν) : ν → ν → Prop where
  | refl (n : ν) : Leads g n n
  | step {a b c : ν} : b ∈ g.targets a → Leads g b c → Leads g a c

/-- A search: the chain from the root, innermost first, with the references that each node has still to
follow; the nodes found and the cycles met, last first. -/
structure Search (ν : Type) where
  chain : List (ν × List ν)
  found : List ν
  cycles : List (List Text)

namespace Search

variable {g}

/-- The search that begins at a node. -/
def start (g : Graph ν) (root : ν) : Search ν := ⟨[(root, g.targets root)], [root], []⟩

/-- The path of a node occurs on the chain. -/
def onChain (g : Graph ν) (s : Search ν) (n : ν) : Bool :=
  s.chain.any fun f => decide (g.path f.1 = g.path n)

/-- The path of a node has been found. -/
def isFound (g : Graph ν) (s : Search ν) (n : ν) : Bool :=
  s.found.any fun m => decide (g.path m = g.path n)

/-- The cycle that a reference back to a node closes.  When another node with its path is on the
chain, only the last reference is told. -/
def cycleTo (g : Graph ν) (s : Search ν) (n : ν) : List Text :=
  let nodes := (s.chain.map (·.1)).reverse
  let start := (nodes.findIdx? fun m => decide (m = n)).getD (nodes.length - 1)
  (nodes.drop start).map g.path ++ [g.path n]

/-- Follows one more reference, or leaves a node that has none. -/
def advance (g : Graph ν) (s : Search ν) : Search ν :=
  match s.chain with
  | [] => s
  | (_, []) :: rest => { s with chain := rest }
  | (n, t :: ts) :: rest =>
    let s := { s with chain := (n, ts) :: rest }
    if t = n then s
    else if s.onChain g t then { s with cycles := s.cycleTo g t :: s.cycles }
    else if s.isFound g t then s
    else { s with chain := (t, g.targets t) :: s.chain, found := t :: s.found }

/-- Goes on until the chain is empty, for at most `fuel` steps. -/
def run (g : Graph ν) (s : Search ν) : (fuel : Nat) → Search ν
  | 0 => s
  | fuel + 1 => if s.chain.isEmpty then s else (s.advance g).run g fuel

end Search

/-- As many steps as a search can take: one for each reference of a node, and one to leave it. -/
def searchFuel (root : ν) : Nat :=
  Number.total ((root :: g.nodes).map fun n => (g.targets n).length + 1)

/-- What a node leads to. -/
structure Reached (ν : Type) where
  /-- The nodes in the order in which they are found, the root first. -/
  nodes : List ν
  /-- The cycles in the order in which they are met; the first path of each comes again at its
  end. -/
  cycles : List (List Text)

/-- What a node leads to. -/
def reach (root : ν) : Reached ν :=
  let s := (Search.start g root).run g (g.searchFuel root)
  ⟨s.found.reverse, s.cycles.reverse⟩

end Graph
end Registry
end Scopewright
