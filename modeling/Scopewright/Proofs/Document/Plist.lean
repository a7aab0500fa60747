import Mathlib.Data.List.Nodup
import Scopewright.Cursor.Markup
import Scopewright.Document.Markup
import Scopewright.Proofs.Markup.Growth

/-! # Property lists

A text is a property list when its document element is a value, alone or in a `plist` element, where
dictionaries have keys and values in turn and arrays have values (`isPropertyList`).  The nodes of a
tree are listed with the keys and places that lead to them (`Node.places`); in the tree of a property
list they begin where their elements do, so that no two of them begin at one place
(`places_start_nodup`). -/

namespace Scopewright
namespace Document

open Cursor (Path Segment)
open Cursor.Markup (valueNames)
open Markup (Element elementsOf nodes startsOf)

/-! ### Well-formed property lists -/

mutual

/-- The node is an element that stands for a value. -/
def isValue : Markup.Node → Bool
  | .data _ => false
  | .element name _ children =>
    if name = "dict" then areEntries false children
    else if name = "array" then areItems children
    else valueNames.contains name && (elementsOf children).isEmpty

/-- The elements among nodes are values. -/
def areItems : List Markup.Node → Bool
  | [] => true
  | n :: ns => (n.element?.isNone || isValue n) && areItems ns

/-- The elements among nodes are keys and values in turn; `pending` when a value comes first. -/
def areEntries (pending : Bool) : List Markup.Node → Bool
  | [] => !pending
  | n :: ns =>
    match n.element? with
    | none => areEntries pending ns
    | some e =>
      if pending then isValue n && areEntries false ns
      else decide (e.name = "key") && e.elements.isEmpty && areEntries true ns

end

/-- The element that holds the value of a property list, if there is just one document element and one
value. -/
def listValue? (document : List Markup.Node) : Option Element :=
  match elementsOf document with
  | [e] =>
    if e.name = "plist" then
      match e.elements with
      | [v] => some v
      | _ => none
    else some e
  | _ => none

/-- The text is a property list: a value, alone or in a `plist` element. -/
def isPropertyList (t : Text) : Bool := (listValue? (nodes t)).any fun e => isValue (ofElement e)

/-- A node that is an element. -/
theorem eq_ofElement {n : Markup.Node} {e : Element} (hn : n.element? = some e) :
    n = ofElement e := by
  cases n with
  | data t => cases hn
  | element name span children => exact congrArg ofElement (Option.some.inj hn)

theorem ofElement_mem {ns : List Markup.Node} {e : Element} (he : e ∈ elementsOf ns) :
    ofElement e ∈ ns := by
  obtain ⟨n, hn, hne⟩ := List.mem_filterMap.mp he
  rw [← eq_ofElement hne]
  exact hn

section entries

variable {n : Markup.Node} {ns : List Markup.Node} {e : Element} {pending : Option Key}

theorem areEntries_data (hn : n.element? = none) (b : Bool) :
    areEntries b (n :: ns) = areEntries b ns := by
  simp only [areEntries, hn]

theorem areEntries_key (hn : n.element? = some e) : areEntries false (n :: ns) = true ↔
    e.name = "key" ∧ e.elements = [] ∧ areEntries true ns = true := by
  simp [areEntries, hn, and_assoc]

theorem areEntries_value (hn : n.element? = some e) : areEntries true (n :: ns) = true ↔
    isValue n = true ∧ areEntries false ns = true := by
  simp [areEntries, hn]

theorem plistMembers_data (hn : n.element? = none) :
    plistMembers pending (n :: ns) = plistMembers pending ns := by
  simp only [plistMembers.eq_def pending (n :: ns), hn]

theorem plistMembers_key (hn : n.element? = some e) (hkey : e.name = "key") :
    plistMembers pending (n :: ns) = plistMembers (some ⟨e.textContent.trim, e.span⟩) ns := by
  simp only [plistMembers.eq_def pending (n :: ns), hn, hkey, if_true]

theorem plistMembers_value {k : Key} {v : Node} (hn : n.element? = some e) (hkey : e.name ≠ "key")
    (hv : plistNode n = some v) :
    plistMembers (some k) (n :: ns) = (k, v) :: plistMembers none ns := by
  simp only [plistMembers.eq_def (some k) (n :: ns), hn, if_neg hkey, hv]

/-- A value is an element, but no key. -/
theorem exists_of_isValue (h : isValue n = true) : ∃ e v, n.element? = some e ∧ e.name ≠ "key" ∧
    plistNode n = some v := by
  cases n with
  | data t => cases h
  | element name span children =>
      refine ⟨_, _, rfl, fun hkey => ?_, rfl⟩
      have hname : name = Text.ofString "key" := hkey
      rw [isValue, hname, if_neg (by decide), if_neg (by decide)] at h
      cases h

/-- A key has no elements inside, whatever stands around it. -/
theorem elements_key {pre post : List Markup.Node} {b : Bool}
    (h : areEntries b (pre ++ n :: post) = true) (hn : n.element? = some e)
    (hkey : e.name = "key") : e.elements = [] := by
  induction pre generalizing b with
  | nil =>
      cases b with
      | false => exact ((areEntries_key hn).mp h).2.1
      | true =>
          obtain ⟨e', v, hn', hname, -⟩ := exists_of_isValue ((areEntries_value hn).mp h).1
          rw [hn] at hn'
          rw [← Option.some.inj hn'] at hname
          exact absurd hkey hname
  | cons m pre ih =>
      rw [List.cons_append] at h
      cases hm : m.element? with
      | none =>
          rw [areEntries_data hm] at h
          exact ih h
      | some d =>
          cases b with
          | false => exact ih ((areEntries_key hm).mp h).2.2
          | true => exact ih ((areEntries_value hm).mp h).2

end entries

section values

variable {name : Text} {span : Span} {children : List Markup.Node}

theorem plistNode_dict (h : name = "dict") :
    plistNode (.element name span children) = some (.object span (plistMembers none children)) := by
  rw [plistNode, if_pos h]

theorem plistNode_array (h : name = "array") :
    plistNode (.element name span children) = some (.array span (plistItems children)) := by
  have hdict : name ≠ Text.ofString "dict" := ne_of_eq_of_ne h (by decide)
  rw [plistNode, if_neg hdict, if_pos h]

/-- A value is a dictionary, an array, or a scalar. -/
theorem isValue_element (h : isValue (.element name span children) = true) :
    name = "dict" ∧ areEntries false children = true ∨
      name = "array" ∧ areItems children = true ∨
      name ∈ valueNames ∧ elementsOf children = [] := by
  rw [isValue] at h
  by_cases hdict : name = Text.ofString "dict"
  · rw [if_pos hdict] at h
    exact .inl ⟨hdict, h⟩
  · by_cases harray : name = Text.ofString "array"
    · rw [if_neg hdict, if_pos harray] at h
      exact .inr (.inl ⟨harray, h⟩)
    · rw [if_neg hdict, if_neg harray, Bool.and_eq_true, List.contains_iff_mem,
        List.isEmpty_iff] at h
      exact .inr (.inr h)

/-- The node of a scalar has the span of its element. -/
theorem plistNode_scalar (h : name ∈ valueNames) :
    ∃ value, plistNode (.element name span children) = some (.scalar span value) := by
  have hnames : ∀ m ∈ valueNames, m ≠ Text.ofString "dict" ∧ m ≠ Text.ofString "array" ∧
      ((m = Text.ofString "string" ∨ m = Text.ofString "date" ∨ m = Text.ofString "data") ∨
        (m = Text.ofString "integer" ∨ m = Text.ofString "real") ∨
        m = Text.ofString "true" ∨ m = Text.ofString "false") := by decide
  obtain ⟨hdict, harray, hscalar⟩ := hnames name h
  rw [plistNode, if_neg hdict, if_neg harray]
  split
  · exact ⟨_, rfl⟩
  · split
    · exact ⟨_, rfl⟩
    · split
      · exact ⟨_, rfl⟩
      · split
        · exact ⟨_, rfl⟩
        · rename_i hstring hnumeric htrue hfalse
          rcases hscalar with hscalar | hscalar | hscalar | hscalar <;> contradiction

end values

/-- The value is the document element, or all that is in it. -/
theorem listValue_cases {document : List Markup.Node} {e : Element}
    (h : listValue? document = some e) : elementsOf document = [e] ∧ e.name ≠ "plist" ∨
      ∃ top, elementsOf document = [top] ∧ top.name = "plist" ∧ top.elements = [e] := by
  unfold listValue? at h
  split at h
  · rename_i top htop
    by_cases hname : top.name = Text.ofString "plist"
    · rw [if_pos hname] at h
      split at h
      · rename_i v hv
        rw [← Option.some.inj h]
        exact .inr ⟨top, htop, hname, hv⟩
      · cases h
    · rw [if_neg hname] at h
      rw [← Option.some.inj h]
      exact .inl ⟨htop, hname⟩
  · cases h

/-- The tree of a property list is that of its value. -/
theorem root_plistTree {t : Text} {e : Element} (h : listValue? (nodes t) = some e) :
    (plistTree t).root = plistNode (ofElement e) := by
  unfold plistTree Markup.root?
  rcases listValue_cases h with ⟨helements, hname⟩ | ⟨top, helements, hname, hvalue⟩
  · rw [helements]
    simp only [List.head?_cons, Option.bind_some, if_neg hname, Function.comp_apply]
  · rw [helements]
    simp only [List.head?_cons, Option.bind_some, if_pos hname, hvalue, Function.comp_apply]

/-! ### The nodes of a tree and the ways to them -/

mutual

/-- The nodes at and below a node, each with the keys and places that lead to it. -/
def Node.places : Node → List (Path × Node)
  | .object span members => ([], .object span members) :: placesOfMembers members
  | .array span items => ([], .array span items) :: placesOfItems 0 items
  | .scalar span value => [([], .scalar span value)]
  | .unknown span => [([], .unknown span)]

/-- The nodes at and below the values of entries. -/
def placesOfMembers : List (Key × Node) → List (Path × Node)
  | [] => []
  | (k, n) :: ms => n.places.map (fun p => (.key k.name :: p.1, p.2)) ++ placesOfMembers ms

/-- The nodes at and below items, the first of which is the `i`-th. -/
def placesOfItems (i : ℕ) : List Node → List (Path × Node)
  | [] => []
  | n :: ns => n.places.map (fun p => (.index i :: p.1, p.2)) ++ placesOfItems (i + 1) ns

end

theorem self_mem_places (n : Node) : ([], n) ∈ n.places := by
  cases n <;> exact List.mem_cons_self

theorem mem_placesOfMembers {ms : List (Key × Node)} {k : Key} {n : Node} (hn : (k, n) ∈ ms)
    {p : Path × Node} (hp : p ∈ n.places) : (.key k.name :: p.1, p.2) ∈ placesOfMembers ms := by
  induction ms with
  | nil => cases hn
  | cons m ms ih =>
      rw [placesOfMembers, List.mem_append]
      rcases List.mem_cons.mp hn with rfl | hn
      · exact .inl (List.mem_map.mpr ⟨p, hp, rfl⟩)
      · exact .inr (ih hn)

theorem mem_placesOfItems {ns : List Node} {i j : ℕ} {n : Node} (hn : ns[j]? = some n)
    {p : Path × Node} (hp : p ∈ n.places) : (.index (i + j) :: p.1, p.2) ∈ placesOfItems i ns := by
  induction ns generalizing i j with
  | nil => cases hn
  | cons m ns ih =>
      rw [placesOfItems, List.mem_append]
      cases j with
      | zero =>
          rw [Option.some.inj hn]
          exact .inl (List.mem_map.mpr ⟨p, hp, rfl⟩)
      | succ j =>
          rw [Nat.add_comm j, ← Nat.add_assoc]
          exact .inr (ih hn)

mutual

/-- What is found from a node that has been found is found from where the search began. -/
theorem places_trans : ∀ (n : Node) {p q : Path × Node}, p ∈ n.places → q ∈ p.2.places →
    (p.1 ++ q.1, q.2) ∈ n.places
  | .object span members, p, q, hp, hq => by
      rw [Node.places] at hp ⊢
      rcases List.mem_cons.mp hp with rfl | hp
      · exact hq
      · exact List.mem_cons_of_mem _ (placesOfMembers_trans members hp hq)
  | .array span items, p, q, hp, hq => by
      rw [Node.places] at hp ⊢
      rcases List.mem_cons.mp hp with rfl | hp
      · exact hq
      · exact List.mem_cons_of_mem _ (placesOfItems_trans items 0 hp hq)
  | .scalar span value, p, q, hp, hq => by
      rw [Node.places] at hp
      rw [List.mem_singleton.mp hp] at hq ⊢
      exact hq
  | .unknown span, p, q, hp, hq => by
      rw [Node.places] at hp
      rw [List.mem_singleton.mp hp] at hq ⊢
      exact hq

theorem placesOfMembers_trans : ∀ (ms : List (Key × Node)) {p q : Path × Node},
    p ∈ placesOfMembers ms → q ∈ p.2.places → (p.1 ++ q.1, q.2) ∈ placesOfMembers ms
  | [], p, q, hp, _ => by cases hp
  | (k, n) :: ms, p, q, hp, hq => by
      rw [placesOfMembers, List.mem_append] at hp ⊢
      rcases hp with hp | hp
      · obtain ⟨p', hp', rfl⟩ := List.mem_map.mp hp
        exact .inl (List.mem_map.mpr ⟨_, places_trans n hp' hq, rfl⟩)
      · exact .inr (placesOfMembers_trans ms hp hq)

theorem placesOfItems_trans : ∀ (ns : List Node) (i : ℕ) {p q : Path × Node},
    p ∈ placesOfItems i ns → q ∈ p.2.places → (p.1 ++ q.1, q.2) ∈ placesOfItems i ns
  | [], i, p, q, hp, _ => by cases hp
  | n :: ns, i, p, q, hp, hq => by
      rw [placesOfItems, List.mem_append] at hp ⊢
      rcases hp with hp | hp
      · obtain ⟨p', hp', rfl⟩ := List.mem_map.mp hp
        exact .inl (List.mem_map.mpr ⟨_, places_trans n hp' hq, rfl⟩)
      · exact .inr (placesOfItems_trans ns (i + 1) hp hq)

end

/-! ### Where nodes begin -/

/-- Where the nodes that have been found begin. -/
def placeStarts (ps : List (Path × Node)) : List ℤ := ps.map fun p => p.2.span.start

theorem placeStarts_map (ps : List (Path × Node)) (s : Segment) :
    placeStarts (ps.map fun p => (s :: p.1, p.2)) = placeStarts ps := List.map_map

theorem placeStarts_append (ps qs : List (Path × Node)) :
    placeStarts (ps ++ qs) = placeStarts ps ++ placeStarts qs := List.map_append

mutual

/-- The nodes of a value begin where its elements do. -/
theorem placeStarts_sublist : ∀ (n : Markup.Node) (v : Node), isValue n = true →
    plistNode n = some v → (placeStarts v.places).Sublist n.starts
  | .data t, v, h, _ => by cases h
  | .element name span children, v, h, hv => by
      rw [Markup.Node.starts]
      rcases isValue_element h with ⟨hname, h⟩ | ⟨hname, h⟩ | ⟨hname, -⟩
      · rw [plistNode_dict hname] at hv
        rw [← Option.some.inj hv]
        exact (placeStarts_members_sublist children none h).cons_cons span.start
      · rw [plistNode_array hname] at hv
        rw [← Option.some.inj hv]
        exact (placeStarts_items_sublist children 0 h).cons_cons span.start
      · obtain ⟨value, hscalar⟩ :
            ∃ value, plistNode (.element name span children) = some (.scalar span value) :=
          plistNode_scalar hname
        rw [hscalar] at hv
        rw [← Option.some.inj hv]
        exact (List.nil_sublist _).cons_cons span.start

theorem placeStarts_items_sublist : ∀ (ns : List Markup.Node) (i : ℕ), areItems ns = true →
    (placeStarts (placesOfItems i (plistItems ns))).Sublist (startsOf ns)
  | [], _, _ => List.Sublist.refl []
  | n :: ns, i, h => by
      rw [areItems, Bool.and_eq_true] at h
      rw [plistItems, startsOf]
      cases hn : plistNode n with
      | none =>
          rw [Option.toList_none, List.nil_append]
          exact (placeStarts_items_sublist ns i h.2).trans (List.sublist_append_right _ _)
      | some v =>
          have hvalue : isValue n = true := by
            cases n with
            | data t => cases hn
            | element name span children => exact h.1
          rw [Option.toList_some, List.singleton_append, placesOfItems, placeStarts_append,
            placeStarts_map]
          exact (placeStarts_sublist n v hvalue hn).append (placeStarts_items_sublist ns (i + 1) h.2)

theorem placeStarts_members_sublist : ∀ (ns : List Markup.Node) (pending : Option Key),
    areEntries pending.isSome ns = true →
    (placeStarts (placesOfMembers (plistMembers pending ns))).Sublist (startsOf ns)
  | [], pending, h => by
      cases pending with
      | none => exact List.Sublist.refl []
      | some k => cases h
  | n :: ns, pending, h => by
      rw [startsOf]
      cases hn : n.element? with
      | none =>
          rw [areEntries_data hn] at h
          rw [plistMembers_data hn]
          exact (placeStarts_members_sublist ns pending h).trans (List.sublist_append_right _ _)
      | some e =>
          cases pending with
          | none =>
              obtain ⟨hkey, -, h⟩ := (areEntries_key hn).mp h
              rw [plistMembers_key hn hkey]
              exact (placeStarts_members_sublist ns (some _) h).trans
                (List.sublist_append_right _ _)
          | some k =>
              obtain ⟨hvalue, h⟩ := (areEntries_value hn).mp h
              obtain ⟨e, v, hn, hkey, hv⟩ := exists_of_isValue hvalue
              rw [plistMembers_value hn hkey hv, placesOfMembers, placeStarts_append,
                placeStarts_map]
              exact (placeStarts_sublist n v hvalue hv).append
                (placeStarts_members_sublist ns none h)

end

theorem starts_sublist_of_mem {n : Markup.Node} {ns : List Markup.Node} (h : n ∈ ns) :
    n.starts.Sublist (startsOf ns) := by
  induction ns with
  | nil => cases h
  | cons m ns ih =>
      rw [startsOf]
      rcases List.mem_cons.mp h with rfl | h
      · exact List.sublist_append_left _ _
      · exact (ih h).trans (List.sublist_append_right _ _)

theorem starts_listValue_sublist {document : List Markup.Node} {e : Element}
    (h : listValue? document = some e) : (ofElement e).starts.Sublist (startsOf document) := by
  have helement {ns : List Markup.Node} {d : Element} (hd : elementsOf ns = [d]) :
      (ofElement d).starts.Sublist (startsOf ns) :=
    starts_sublist_of_mem (ofElement_mem (hd ▸ List.mem_cons_self))
  rcases listValue_cases h with ⟨helements, -⟩ | ⟨top, helements, -, hvalue⟩
  · exact helement helements
  · exact (helement hvalue).trans ((List.sublist_cons_self _ _).trans (helement helements))

/-- No two nodes in the tree of a property list begin at one place. -/
theorem places_start_nodup {t : Text} {e : Element} {root : Node}
    (h : listValue? (nodes t) = some e) (he : isValue (ofElement e) = true)
    (hroot : plistNode (ofElement e) = some root) : (placeStarts root.places).Nodup :=
  ((placeStarts_sublist _ _ he hroot).trans (starts_listValue_sublist h)).nodup
    ((Markup.nodes_starts t).imp fun hlt => Int.ne_of_lt hlt)

end Document
end Scopewright
