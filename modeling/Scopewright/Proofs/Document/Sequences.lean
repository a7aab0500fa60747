import Scopewright.Document.Yaml
import Scopewright.Proofs.Document.Plist

/-! # Sequences in the tree

The sequences of a YAML document are listed in order, also those in keys (`Yaml.sequences`).  A
sequence has a way from the root unless it stands in an entry whose key is no scalar: such an entry has
no place in a tree, whose keys are texts.

The arrays of the tree are just the sequences that have a way, each at its place
(`arrays_yamlTree`).  The nodes of an array are those of the items in their order, and the item at
each place has the node at that place when no item is an alias. -/

namespace Scopewright

namespace Yaml

/-- A step down from a value to one that it holds. -/
inductive Step where
  /-- To an item behind so many aliases and so many others. -/
  | item (aliases others : ℕ)
  /-- To the value of an entry. -/
  | entry (name : Text)

namespace Step

open Cursor (Segment)

/-- The step in the text: all items in front are counted. -/
def written : Step → Segment
  | item aliases others => .index (aliases + others)
  | entry name => .key name

/-- The step in the tree: an alias has no node. -/
def shown : Step → Segment
  | item _ others => .index others
  | entry name => .key name

end Step

namespace Node

/-- The node stands for another one. -/
def isAlias : Node → Bool
  | reference _ => true
  | _ => false

/-- The step to the value of an entry with a key. -/
def stepTo? : Node → Option Step
  | scalar _ d _ => some (.entry d.toText)
  | _ => none

end Node

/-- A sequence of a document, and the way to it from the root. -/
structure Sequence where
  way : Option (List Step)
  extent : Extent
  items : List Node

/-- The sequence seen from one level up. -/
def Sequence.below (step : Option Step) (s : Sequence) : Sequence :=
  { s with way := step.bind fun first => s.way.map (first :: ·) }

mutual

/-- The sequences at and below a node.  What the items of a sequence of pairs are made into are no
nodes, so it has none. -/
def Node.sequences : Node → List Sequence
  | .scalar .. => []
  | .reference _ => []
  | .map _ ps => sequencesOfPairs ps
  | .seq e ns => ⟨some [], e, ns⟩ :: sequencesOfItems 0 0 ns
  | .pairs e => [⟨some [], e, []⟩]

/-- The sequences in the keys and values of entries. -/
def sequencesOfPairs : List (Node × Option Node) → List Sequence
  | [] => []
  | (k, none) :: ps => k.sequences.map (.below none) ++ sequencesOfPairs ps
  | (k, some v) :: ps =>
    k.sequences.map (.below none) ++ v.sequences.map (.below k.stepTo?) ++ sequencesOfPairs ps

/-- The sequences in items behind so many aliases and so many others. -/
def sequencesOfItems (aliases others : ℕ) : List Node → List Sequence
  | [] => []
  | n :: ns =>
    n.sequences.map (.below (some (.item aliases others))) ++
      if n.isAlias then sequencesOfItems (aliases + 1) others ns
      else sequencesOfItems aliases (others + 1) ns

end

/-- The sequences of the first document of a text. -/
def sequences (t : Text) : List Sequence := (firstDocument t).root.toList.flatMap Node.sequences

end Yaml

namespace Document

open Cursor (Path Segment)
open Yaml (Sequence Step sequencesOfItems sequencesOfPairs)

/-! ### Items -/

theorem itemsOfYaml_eq_filterMap (ns : List Yaml.Node) :
    itemsOfYaml ns = ns.filterMap Node.ofYaml? := by
  induction ns with
  | nil => rfl
  | cons n ns ih =>
      rw [itemsOfYaml, List.filterMap_cons, ← ih]
      cases Node.ofYaml? n <;> rfl

theorem ofYaml_isNone (n : Yaml.Node) : (Node.ofYaml? n).isNone = n.isAlias := by
  cases n <;> rfl

theorem ofYaml_of_isAlias {n : Yaml.Node} (h : n.isAlias = true) : Node.ofYaml? n = none :=
  Option.isNone_iff_eq_none.mp ((ofYaml_isNone n).trans h)

theorem exists_ofYaml {n : Yaml.Node} (h : n.isAlias = false) : ∃ m, Node.ofYaml? n = some m := by
  rw [← ofYaml_isNone, Option.isNone_eq_false_iff] at h
  exact Option.isSome_iff_exists.mp h

/-- The nodes of the items. -/
def nodesOf (s : Sequence) : List Node := s.items.filterMap Node.ofYaml?

/-- The node is a sequence. -/
def Node.isArray : Node → Bool
  | array .. => true
  | _ => false

/-- The sequences among nodes. -/
def arraysAmong (ps : List (Path × Node)) : List (Path × Node) := ps.filter fun p => p.2.isArray

/-- The node of a sequence, with the path that leads to it, if there is a way. -/
def place? (s : Sequence) : Option (Path × Node) :=
  s.way.map fun way => (way.map Step.shown, .array s.extent.span (nodesOf s))

theorem arraysAmong_append (ps qs : List (Path × Node)) :
    arraysAmong (ps ++ qs) = arraysAmong ps ++ arraysAmong qs := List.filter_append ..

theorem arraysAmong_step (first : Segment) (ps : List (Path × Node)) :
    arraysAmong (ps.map fun p => (first :: p.1, p.2)) =
      (arraysAmong ps).map fun p => (first :: p.1, p.2) := List.filter_map ..

theorem filterMap_below_none (ss : List Sequence) :
    (ss.map (Sequence.below none)).filterMap place? = [] := by
  rw [List.filterMap_map]
  exact List.filterMap_eq_nil_iff.mpr fun _ _ => rfl

theorem filterMap_below (step : Step) (ss : List Sequence) :
    (ss.map (Sequence.below (some step))).filterMap place? =
      (ss.filterMap place?).map fun p => (step.shown :: p.1, p.2) := by
  rw [List.filterMap_map, List.map_filterMap]
  refine List.filterMap_congr fun s _ => ?_
  simp only [Function.comp_apply, place?, Sequence.below, Option.bind_some, Option.map_map]
  rfl

theorem sequences_of_isAlias {n : Yaml.Node} (h : n.isAlias = true) : n.sequences = [] := by
  cases n with
  | reference e => rw [Yaml.Node.sequences]
  | _ => cases h

/-- An entry without a scalar for its key is left out, and no way leads to what it holds. -/
theorem arraysAmong_members_keyless {k : Yaml.Node} {value : Option Yaml.Node}
    {ps : List (Yaml.Node × Option Yaml.Node)} (hstep : k.stepTo? = none)
    (hmembers : membersOfYaml ((k, value) :: ps) = membersOfYaml ps)
    (hrest : arraysAmong (placesOfMembers (membersOfYaml ps)) =
      (sequencesOfPairs ps).filterMap place?) :
    arraysAmong (placesOfMembers (membersOfYaml ((k, value) :: ps))) =
      (sequencesOfPairs ((k, value) :: ps)).filterMap place? := by
  rw [hmembers, hrest]
  cases value with
  | none =>
      rw [sequencesOfPairs, List.filterMap_append, filterMap_below_none, List.nil_append]
  | some v =>
      rw [sequencesOfPairs, hstep, List.filterMap_append, List.filterMap_append,
        filterMap_below_none, filterMap_below_none, List.nil_append, List.nil_append]

mutual

/-- The sequences at and below a node of the tree are those at and below what it is made of. -/
theorem arraysAmong_places : ∀ {n : Yaml.Node} {m : Node}, Node.ofYaml? n = some m →
    arraysAmong m.places = n.sequences.filterMap place?
  | .scalar e d b, m, h => by
      rw [Node.ofYaml?] at h
      rw [← Option.some.inj h]
      rfl
  | .reference e, m, h => by
      rw [Node.ofYaml?] at h
      cases h
  | .map e ps, m, h => by
      rw [Node.ofYaml?] at h
      rw [← Option.some.inj h, Node.places, Yaml.Node.sequences, ← arraysAmong_members ps]
      rfl
  | .seq e ns, m, h => by
      rw [Node.ofYaml?] at h
      rw [← Option.some.inj h, Node.places, Yaml.Node.sequences, List.filterMap_cons,
        ← arraysAmong_items 0 0 ns, itemsOfYaml_eq_filterMap]
      rfl
  | .pairs e, m, h => by
      rw [Node.ofYaml?] at h
      rw [← Option.some.inj h]
      rfl

theorem arraysAmong_members : ∀ ps : List (Yaml.Node × Option Yaml.Node),
    arraysAmong (placesOfMembers (membersOfYaml ps)) = (sequencesOfPairs ps).filterMap place?
  | [] => rfl
  | (.scalar e d b, none) :: ps => by
      rw [membersOfYaml, placesOfMembers, arraysAmong_append, arraysAmong_members ps,
        sequencesOfPairs]
      rfl
  | (.scalar e d b, some v) :: ps => by
      rw [membersOfYaml, placesOfMembers, arraysAmong_append, arraysAmong_members ps,
        arraysAmong_step, sequencesOfPairs, List.filterMap_append, List.filterMap_append,
        filterMap_below_none, List.nil_append, Yaml.Node.stepTo?, filterMap_below]
      cases halias : v.isAlias with
      | false =>
          obtain ⟨m, hm⟩ := exists_ofYaml halias
          rw [← arraysAmong_places hm, hm]
          rfl
      | true =>
          rw [ofYaml_of_isAlias halias, sequences_of_isAlias halias]
          rfl
  | (.reference e, value) :: ps => arraysAmong_members_keyless rfl rfl (arraysAmong_members ps)
  | (.map e qs, value) :: ps => arraysAmong_members_keyless rfl rfl (arraysAmong_members ps)
  | (.seq e ns, value) :: ps => arraysAmong_members_keyless rfl rfl (arraysAmong_members ps)
  | (.pairs e, value) :: ps => arraysAmong_members_keyless rfl rfl (arraysAmong_members ps)

theorem arraysAmong_items (aliases others : ℕ) : ∀ ns : List Yaml.Node,
    arraysAmong (placesOfItems others (itemsOfYaml ns)) =
      (sequencesOfItems aliases others ns).filterMap place?
  | [] => rfl
  | n :: ns => by
      rw [sequencesOfItems, List.filterMap_append, filterMap_below, itemsOfYaml]
      cases halias : n.isAlias with
      | false =>
          obtain ⟨m, hm⟩ := exists_ofYaml halias
          rw [if_neg Bool.false_ne_true, ← arraysAmong_items aliases (others + 1) ns, hm,
            placesOfItems, arraysAmong_append, arraysAmong_step, arraysAmong_places hm]
          rfl
      | true =>
          rw [if_pos rfl, ← arraysAmong_items (aliases + 1) others ns, ofYaml_of_isAlias halias,
            sequences_of_isAlias halias]
          rfl

end

end Document
end Scopewright
