import Scopewright.Proofs.Document.Plist

/-! # The keys of a tree

The keys of a tree are listed in the order of the document, each with the path that leads to it and the
object that it is a key of (`Node.keyPlaces`).  The keys of every object in the tree are among them, in
their order (`spans_sublist`). -/

namespace Scopewright
namespace Document

open Cursor (Path Segment)

mutual

/-- The keys at and below a node, each with the path to it and its object. -/
def Node.keyPlaces : Node → List (Path × Node × Key)
  | .object span members => keyPlacesOfMembers (.object span members) members
  | .array _ items => keyPlacesOfItems 0 items
  | .scalar .. => []
  | .unknown _ => []

/-- The keys of entries of an object, and those below the values. -/
def keyPlacesOfMembers (owner : Node) : List (Key × Node) → List (Path × Node × Key)
  | [] => []
  | (k, n) :: ms => ([.key k.name], owner, k) ::
      (n.keyPlaces.map (fun p => (.key k.name :: p.1, p.2)) ++ keyPlacesOfMembers owner ms)

/-- The keys at and below items, the first of which is the `i`-th. -/
def keyPlacesOfItems (i : ℕ) : List Node → List (Path × Node × Key)
  | [] => []
  | n :: ns => n.keyPlaces.map (fun p => (.index i :: p.1, p.2)) ++ keyPlacesOfItems (i + 1) ns

end

theorem mem_keyPlacesOfMembers {owner : Node} {ms : List (Key × Node)} {m : Key × Node}
    (hm : m ∈ ms) : ([.key m.1.name], owner, m.1) ∈ keyPlacesOfMembers owner ms := by
  induction ms with
  | nil => cases hm
  | cons m' ms ih =>
      obtain ⟨k, n⟩ := m'
      rw [keyPlacesOfMembers]
      rcases List.mem_cons.mp hm with rfl | hm
      · exact List.mem_cons_self
      · exact List.mem_cons_of_mem _ (List.mem_append_right _ (ih hm))

mutual

/-- The keys of an object in the tree are keys of the tree. -/
theorem mem_keyPlaces : ∀ (n : Node) {p : Path × Node} {m : Key × Node}, p ∈ n.places →
    m ∈ p.2.members → (p.1 ++ [.key m.1.name], p.2, m.1) ∈ n.keyPlaces
  | .object span members, p, m, hp, hm => by
      rw [Node.places] at hp
      rw [Node.keyPlaces]
      rcases List.mem_cons.mp hp with rfl | hp
      · exact mem_keyPlacesOfMembers hm
      · exact mem_keyPlaces_members members hp hm
  | .array span items, p, m, hp, hm => by
      rw [Node.places] at hp
      rw [Node.keyPlaces]
      rcases List.mem_cons.mp hp with rfl | hp
      · cases hm
      · exact mem_keyPlaces_items items hp hm
  | .scalar span value, p, m, hp, hm => by
      rw [Node.places] at hp
      rw [List.mem_singleton.mp hp] at hm
      cases hm
  | .unknown span, p, m, hp, hm => by
      rw [Node.places] at hp
      rw [List.mem_singleton.mp hp] at hm
      cases hm

theorem mem_keyPlaces_members {owner : Node} : ∀ (ms : List (Key × Node)) {p : Path × Node}
    {m : Key × Node}, p ∈ placesOfMembers ms → m ∈ p.2.members →
    (p.1 ++ [.key m.1.name], p.2, m.1) ∈ keyPlacesOfMembers owner ms
  | [], p, m, hp, _ => by cases hp
  | (k, n) :: ms, p, m, hp, hm => by
      rw [placesOfMembers, List.mem_append] at hp
      rw [keyPlacesOfMembers]
      refine List.mem_cons_of_mem _ (List.mem_append.mpr ?_)
      rcases hp with hp | hp
      · obtain ⟨p', hp', rfl⟩ := List.mem_map.mp hp
        exact .inl (List.mem_map.mpr ⟨_, mem_keyPlaces n hp' hm, rfl⟩)
      · exact .inr (mem_keyPlaces_members ms hp hm)

theorem mem_keyPlaces_items : ∀ (ns : List Node) {i : ℕ} {p : Path × Node} {m : Key × Node},
    p ∈ placesOfItems i ns → m ∈ p.2.members →
    (p.1 ++ [.key m.1.name], p.2, m.1) ∈ keyPlacesOfItems i ns
  | [], i, p, m, hp, _ => by cases hp
  | n :: ns, i, p, m, hp, hm => by
      rw [placesOfItems, List.mem_append] at hp
      rw [keyPlacesOfItems]
      refine List.mem_append.mpr ?_
      rcases hp with hp | hp
      · obtain ⟨p', hp', rfl⟩ := List.mem_map.mp hp
        exact .inl (List.mem_map.mpr ⟨_, mem_keyPlaces n hp' hm, rfl⟩)
      · exact .inr (mem_keyPlaces_items ns hp hm)

end

/-! ### Where keys are written -/

/-- Where keys are written. -/
def keySpans (ps : List (Path × Node × Key)) : List Span := ps.map fun p => p.2.2.span

theorem keySpans_map (ps : List (Path × Node × Key)) (s : Segment) :
    keySpans (ps.map fun p => (s :: p.1, p.2)) = keySpans ps := List.map_map

theorem keySpans_append (ps qs : List (Path × Node × Key)) :
    keySpans (ps ++ qs) = keySpans ps ++ keySpans qs := List.map_append

theorem keySpans_members (owner : Node) (k : Key) (n : Node) (ms : List (Key × Node)) :
    keySpans (keyPlacesOfMembers owner ((k, n) :: ms)) =
      k.span :: (keySpans n.keyPlaces ++ keySpans (keyPlacesOfMembers owner ms)) := by
  rw [keyPlacesOfMembers, ← keySpans_map n.keyPlaces, ← keySpans_append]
  rfl

theorem keySpans_items (i : ℕ) (n : Node) (ns : List Node) :
    keySpans (keyPlacesOfItems i (n :: ns)) =
      keySpans n.keyPlaces ++ keySpans (keyPlacesOfItems (i + 1) ns) := by
  rw [keyPlacesOfItems, keySpans_append, keySpans_map]

theorem spans_members_sublist (owner : Node) (ms : List (Key × Node)) :
    (ms.map fun m => m.1.span).Sublist (keySpans (keyPlacesOfMembers owner ms)) := by
  induction ms with
  | nil => exact List.Sublist.refl []
  | cons m ms ih =>
      obtain ⟨k, n⟩ := m
      rw [keySpans_members]
      exact (ih.trans (List.sublist_append_right _ _)).cons_cons k.span

mutual

/-- The keys of an object in the tree are written in their order, among the others of the tree. -/
theorem spans_sublist : ∀ (n : Node) {p : Path × Node}, p ∈ n.places →
    (p.2.members.map fun m => m.1.span).Sublist (keySpans n.keyPlaces)
  | .object span members, p, hp => by
      rw [Node.places] at hp
      rw [Node.keyPlaces]
      rcases List.mem_cons.mp hp with rfl | hp
      · exact spans_members_sublist _ members
      · exact spans_sublist_members members hp
  | .array span items, p, hp => by
      rw [Node.places] at hp
      rw [Node.keyPlaces]
      rcases List.mem_cons.mp hp with rfl | hp
      · exact List.nil_sublist _
      · exact spans_sublist_items items hp
  | .scalar span value, p, hp => by
      rw [Node.places] at hp
      rw [List.mem_singleton.mp hp]
      exact List.nil_sublist _
  | .unknown span, p, hp => by
      rw [Node.places] at hp
      rw [List.mem_singleton.mp hp]
      exact List.nil_sublist _

theorem spans_sublist_members {owner : Node} : ∀ (ms : List (Key × Node)) {p : Path × Node},
    p ∈ placesOfMembers ms →
    (p.2.members.map fun m => m.1.span).Sublist (keySpans (keyPlacesOfMembers owner ms))
  | [], p, hp => by cases hp
  | (k, n) :: ms, p, hp => by
      rw [placesOfMembers, List.mem_append] at hp
      rw [keySpans_members]
      refine List.Sublist.cons _ ?_
      rcases hp with hp | hp
      · obtain ⟨p', hp', rfl⟩ := List.mem_map.mp hp
        exact (spans_sublist n hp').trans (List.sublist_append_left _ _)
      · exact (spans_sublist_members ms hp).trans (List.sublist_append_right _ _)

theorem spans_sublist_items : ∀ (ns : List Node) {i : ℕ} {p : Path × Node},
    p ∈ placesOfItems i ns →
    (p.2.members.map fun m => m.1.span).Sublist (keySpans (keyPlacesOfItems i ns))
  | [], i, p, hp => by cases hp
  | n :: ns, i, p, hp => by
      rw [placesOfItems, List.mem_append] at hp
      rw [keySpans_items]
      rcases hp with hp | hp
      · obtain ⟨p', hp', rfl⟩ := List.mem_map.mp hp
        exact (spans_sublist n hp').trans (List.sublist_append_left _ _)
      · exact (spans_sublist_items ns hp).trans (List.sublist_append_right _ _)

end

end Document
end Scopewright
