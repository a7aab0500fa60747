import Mathlib.Data.List.TakeDrop
import Mathlib.Logic.Function.Iterate
import Scopewright.Proofs.Document.Plist
import Scopewright.Validation.Check

/-! # The walk through a document

The checks go over the nodes of which the schema knows something.  They are the nodes whose way from
the root leads to a position of the schema as well (`visited_eq_known`), in the order of the document.

A walk holds them on a stack (`Walk`): the frame on top is visited, and the frames below it are put
in its place (`Walk.advance`).  What has been visited and what is still to come are together always
the same nodes (`Walk.seen_pending_iterate`), and each step visits one of them; so a walk comes to its
end in any schema, also where rules lead back to themselves (`walk_visits_known`). -/

namespace Scopewright

namespace Schema
namespace Position

open Cursor (Path Segment)

variable (p : Position)

@[simp]
theorem at?_nil : p.at? [] = some p := rfl

@[simp]
theorem at?_cons (s : Segment) (path : Path) :
    p.at? (s :: path) = (p.step? s).bind fun q => q.at? path := by
  rw [at?]
  cases p.step? s <;> rfl

/-- A way leads on from where its first part leads. -/
theorem at?_append (path path' : Path) :
    p.at? (path ++ path') = (p.at? path).bind fun q => q.at? path' := by
  induction path generalizing p with
  | nil => rfl
  | cons s path ih =>
      rw [List.cons_append, at?_cons, at?_cons]
      cases p.step? s with
      | none => rfl
      | some q => exact ih q

/-- Where no mapping may stand no key is known. -/
theorem child?_eq_none (h : p.acceptsMapping = false) (key : Text) : p.child? key = none := by
  obtain ⟨hkeys, hany⟩ := Bool.or_eq_false_iff.mp h
  rw [Option.isSome_eq_false_iff, Option.isNone_iff_eq_none] at hkeys hany
  rw [child?, keys?, anyKey?, hkeys, hany]
  rfl

end Position
end Schema

namespace Validation

open Cursor (Path Segment)
open Document (Node Key placesOfMembers placesOfItems)
open Schema (Position)

/-! ### Nodes by their ways -/

/-- The nodes among some that the schema knows by the ways to them, with their positions. -/
def knownAmong (schema : Position) (places : List (Path × Node)) : List (Node × Position) :=
  places.filterMap fun (path, n) => (schema.at? path).map fun p => (n, p)

/-- The nodes of a document that the schema knows by the ways to them, in the order of the
document. -/
def known (root : Node) (schema : Position) : List (Node × Position) :=
  knownAmong schema root.places

/-- One step further down the same nodes are known from the position that the step leads to. -/
theorem knownAmong_step (schema : Position) (s : Segment) (places : List (Path × Node)) :
    knownAmong schema (places.map fun q => (s :: q.1, q.2)) =
      match schema.step? s with
      | some p => knownAmong p places
      | none => [] := by
  rw [knownAmong, List.filterMap_map]
  cases hstep : schema.step? s with
  | none => simp [hstep]
  | some p => simp [hstep, knownAmong]

/-- What a check tells of the nodes known, told by the ways to them. -/
theorem flatMap_knownAmong {β : Type} (schema : Position) (places : List (Path × Node))
    (check : Node × Position → List β) :
    (knownAmong schema places).flatMap check =
      places.flatMap fun q =>
        match schema.at? q.1 with
        | some p => check (q.2, p)
        | none => [] := by
  induction places with
  | nil => rfl
  | cons q places ih =>
      rw [List.flatMap_cons, ← ih, knownAmong, List.filterMap_cons, ← knownAmong]
      dsimp only
      cases schema.at? q.1 <;> rfl

mutual

/-- The nodes that the checks visit are those that the schema knows by the ways to them. -/
theorem visited_eq_known : ∀ (n : Node) (p : Position), visited n p = known n p
  | .object span members, p => by
      rw [visited, visitedMembers_eq members p]
      rfl
  | .array span items, p => by
      rw [visited, known, Node.places, knownAmong, List.filterMap_cons]
      refine congrArg ((Node.array span items, p) :: ·) ?_
      exact visitedItems_eq items 0 p
  | .scalar _ _, _ => rfl
  | .unknown _, _ => rfl

theorem visitedMembers_eq : ∀ (ms : List (Key × Node)) (p : Position),
    visitedMembers ms p = knownAmong p (placesOfMembers ms)
  | [], _ => rfl
  | (k, n) :: ms, p => by
      have hstep := knownAmong_step p (.key k.name) n.places
      rw [visitedMembers, placesOfMembers, knownAmong, List.filterMap_append, ← knownAmong,
        ← knownAmong, hstep, Position.step?, visitedMembers_eq ms p]
      cases p.child? k.name with
      | none => rfl
      | some q =>
          simp only
          rw [visited_eq_known n q, known]

theorem visitedItems_eq : ∀ (ns : List Node) (i : ℕ) (p : Position),
    (match p.items? with
      | some q => visitedItems ns q
      | none => []) = knownAmong p (placesOfItems i ns)
  | [], _, p => by cases p.items? <;> rfl
  | n :: ns, i, p => by
      have hstep := knownAmong_step p (.index i) n.places
      have hrest := visitedItems_eq ns (i + 1) p
      rw [placesOfItems, knownAmong, List.filterMap_append, ← knownAmong, ← knownAmong, hstep,
        ← hrest, Position.step?]
      cases p.items? with
      | none => rfl
      | some q =>
          simp only
          rw [visitedItems, visited_eq_known n q, known]

end

/-! ### The walk -/

/-- The nodes right below a node of which the schema knows something. -/
def below (n : Node) (p : Position) : List (Node × Position) :=
  match n with
  | .object _ members =>
    if p.acceptsMapping then members.filterMap fun m => (p.child? m.1.name).map fun q => (m.2, q)
    else []
  | .array _ items =>
    match p.items? with
    | some q => items.map fun item => (item, q)
    | none => []
  | _ => []

/-- A walk under way: the nodes that wait for their visit, the next one on top, and those that have
been visited. -/
structure Walk where
  stack : List (Node × Position)
  seen : List (Node × Position)

namespace Walk

/-- A walk that begins at the root. -/
def start (root : Node) (schema : Position) : Walk := ⟨[(root, schema)], []⟩

/-- Puts nodes on a stack, one after the other. -/
def push (stack nodes : List (Node × Position)) : List (Node × Position) :=
  nodes.foldl (fun stack f => f :: stack) stack

/-- Visits the node on top.  Those right below it are put on the stack from the last one to the first
one, which is then on top. -/
def advance : Walk → Walk
  | ⟨[], seen⟩ => ⟨[], seen⟩
  | ⟨(n, p) :: rest, seen⟩ => ⟨push rest (below n p).reverse, seen ++ [(n, p)]⟩

/-- The nodes that a walk is still going to visit. -/
def pending (w : Walk) : List (Node × Position) := w.stack.flatMap fun f => visited f.1 f.2

theorem push_reverse (stack nodes : List (Node × Position)) :
    push stack nodes.reverse = nodes ++ stack := by
  rw [push, List.foldl_reverse]
  induction nodes with
  | nil => rfl
  | cons f nodes ih => rw [List.foldr_cons, ih, List.cons_append]

end Walk

theorem visitedMembers_eq_flatMap (ms : List (Key × Node)) (p : Position) :
    visitedMembers ms p =
      (ms.filterMap fun m => (p.child? m.1.name).map fun q => (m.2, q)).flatMap fun f =>
        visited f.1 f.2 := by
  induction ms with
  | nil => rfl
  | cons m ms ih =>
      obtain ⟨k, n⟩ := m
      rw [visitedMembers, List.filterMap_cons, ih]
      cases p.child? k.name <;> rfl

theorem visitedItems_eq_flatMap (ns : List Node) (q : Position) :
    visitedItems ns q = (ns.map fun n => (n, q)).flatMap fun f => visited f.1 f.2 := by
  induction ns with
  | nil => rfl
  | cons n ns ih => rw [visitedItems, ih, List.map_cons, List.flatMap_cons]

/-- A node is visited before the nodes right below it and all that is below them. -/
theorem visited_eq_cons (n : Node) (p : Position) :
    visited n p = (n, p) :: (below n p).flatMap fun f => visited f.1 f.2 := by
  cases n with
  | object span members =>
      rw [visited, below, visitedMembers_eq_flatMap]
      cases hmapping : p.acceptsMapping with
      | true => rfl
      | false => simp [Position.child?_eq_none p hmapping]
  | array span items =>
      rw [visited, below]
      cases p.items? with
      | none => rfl
      | some q => simp only [visitedItems_eq_flatMap]
  | scalar span value => rfl
  | unknown span => rfl

namespace Walk

variable (w : Walk)

/-- A step visits the first one of the nodes that are still to come. -/
theorem seen_advance : w.advance.seen = w.seen ++ w.pending.take 1 := by
  obtain ⟨stack, seen⟩ := w
  cases stack with
  | nil => exact (List.append_nil seen).symm
  | cons f rest =>
      obtain ⟨n, p⟩ := f
      rw [pending, List.flatMap_cons, visited_eq_cons, advance]
      rfl

theorem pending_advance : w.advance.pending = w.pending.drop 1 := by
  obtain ⟨stack, seen⟩ := w
  cases stack with
  | nil => rfl
  | cons f rest =>
      obtain ⟨n, p⟩ := f
      simp only [pending, advance]
      rw [push_reverse, List.flatMap_append, List.flatMap_cons, visited_eq_cons n p]
      rfl

/-- After some steps as many nodes have been visited, and the others are still to come. -/
theorem seen_pending_iterate (k : ℕ) :
    (advance^[k] w).seen = w.seen ++ w.pending.take k ∧
      (advance^[k] w).pending = w.pending.drop k := by
  induction k with
  | zero => exact ⟨(List.append_nil w.seen).symm, rfl⟩
  | succ k ih =>
      obtain ⟨hseen, hpending⟩ := ih
      rw [Function.iterate_succ_apply', seen_advance, pending_advance, hseen, hpending,
        List.append_assoc, List.drop_drop, List.take_add]
      exact ⟨rfl, rfl⟩

/-- Nothing is to come exactly when the stack is empty. -/
theorem stack_eq_nil_iff : w.stack = [] ↔ w.pending = [] := by
  obtain ⟨stack, seen⟩ := w
  cases stack with
  | nil => exact ⟨fun _ => rfl, fun _ => rfl⟩
  | cons f rest =>
      refine iff_of_false (List.cons_ne_nil f rest) ?_
      rw [pending, List.flatMap_cons, visited_eq_cons, List.cons_append]
      exact List.cons_ne_nil _ _

end Walk

/-! ### Unknown keys -/

/-- A key that the position of its mapping does not know. -/
def unknownKey (p : Position) (k : Key) : Finding :=
  ⟨k.span, .information, ("Unknown key " : Text) ++ quoted k.name ++ (" in " : Text) ++ p.name,
    .unknownKey⟩

/-- The keys of a node, reached by a way, to the values of which the schema has no way. -/
def strangeKeys (schema : Position) (path : Path) (n : Node) : List Key :=
  (n.members.map (·.1)).filter fun k => (schema.at? (path ++ [.key k.name])).isNone

theorem strangeKeys_eq {schema p : Position} {path : Path} (h : schema.at? path = some p)
    (n : Node) :
    strangeKeys schema path n =
      (n.members.filter fun m => (p.child? m.1.name).isNone).map (·.1) := by
  have hstep (k : Key) : schema.at? (path ++ [.key k.name]) = p.child? k.name := by
    rw [Position.at?_append, h, Option.bind_some, Position.at?_cons, Position.step?]
    exact Option.bind_fun_some _
  simp only [strangeKeys, hstep, List.filter_map]
  rfl

/-- The unknown keys are told node by node, by the ways to the nodes. -/
theorem unknownKeyFindings_eq (root : Node) (schema : Position) :
    unknownKeyFindings root schema =
      root.places.flatMap fun q =>
        match schema.at? q.1 with
        | some p =>
          if p.acceptsMapping then (strangeKeys schema q.1 q.2).map (unknownKey p) else []
        | none => [] := by
  rw [unknownKeyFindings, visited_eq_known, known, flatMap_knownAmong]
  refine List.flatMap_congr fun q _ => ?_
  cases hat : schema.at? q.1 with
  | none => rfl
  | some p =>
      simp only
      rw [strangeKeys_eq hat, List.map_map]
      rfl

/-- **The walk.**  In any schema, also one that leads back to itself, the walk through a document
visits the nodes that the schema knows by the ways to them, each of them once and in the order of the
document: after `k` steps the first `k` of them, and when there are no more the stack is empty.  An
unknown key is one of a node where the schema has a mapping but no way on to its value; it is told
once, and below it the schema has no way to anything. -/
theorem walk_visits_known (root : Node) (schema : Position) :
    (∀ k, (Walk.advance^[k] (.start root schema)).seen = (known root schema).take k ∧
      ((Walk.advance^[k] (.start root schema)).stack = [] ↔ (known root schema).length ≤ k)) ∧
    visited root schema = known root schema ∧
    (unknownKeyFindings root schema =
      root.places.flatMap fun q =>
        match schema.at? q.1 with
        | some p =>
          if p.acceptsMapping then (strangeKeys schema q.1 q.2).map (unknownKey p) else []
        | none => []) ∧
    ∀ path path', schema.at? path = none → schema.at? (path ++ path') = none := by
  have hpending : (Walk.start root schema).pending = known root schema := by
    rw [← visited_eq_known]
    exact List.append_nil _
  refine ⟨fun k => ?_, visited_eq_known root schema, unknownKeyFindings_eq root schema, ?_⟩
  · obtain ⟨hseen, hrest⟩ := (Walk.start root schema).seen_pending_iterate k
    rw [hpending] at hseen hrest
    rw [Walk.stack_eq_nil_iff, hseen, hrest]
    exact ⟨List.nil_append _, List.drop_eq_nil_iff⟩
  · intro path path' hnone
    rw [Position.at?_append, hnone]
    rfl

end Validation
end Scopewright
