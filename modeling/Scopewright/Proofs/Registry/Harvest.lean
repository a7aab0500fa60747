import Mathlib.Data.List.Perm.Basic
import Scopewright.Proofs.Text.Order
import Scopewright.Registry.Index

/-! # The search of a document and its reading

A search keeps the nodes that it has still to look at on a stack, the last entry of a node first.
It finds what the recursion `Harvest.gather` finds, in the same order (`collect_singleton`).

A document can also be read from front to back (`Harvest.walk`).  The meaning of an entry of a
mapping is told by its key and by what its value is (`definitionEntry`, `grammarEntry`), and what
stands in the value is read unless the meaning ends there.  Reading finds the same scopes and
references as the search, each as often (`harvest_walk`). -/

namespace Scopewright
namespace Registry

open Document (Key Node)

namespace Harvest

/-! ### Harvests put together -/

/-- The same scopes and references, each as often. -/
structure Same (a b : Harvest) : Prop where
  scopes : a.scopes.Perm b.scopes
  references : a.references.Perm b.references

variable {a b c d : Harvest}

theorem Same.refl (a : Harvest) : Same a a := ⟨.refl _, .refl _⟩

theorem Same.trans (hab : Same a b) (hbc : Same b c) : Same a c :=
  ⟨hab.scopes.trans hbc.scopes, hab.references.trans hbc.references⟩

theorem Same.append (hab : Same a b) (hcd : Same c d) : Same (append a c) (append b d) :=
  ⟨hab.scopes.append hcd.scopes, hab.references.append hcd.references⟩

theorem empty_append (a : Harvest) : append empty a = a := rfl

theorem append_assoc (a b c : Harvest) : append (append a b) c = append a (append b c) := by
  simp only [Harvest.append, List.append_assoc]

theorem concat_cons (a : Harvest) (as : List Harvest) :
    concat (a :: as) = append a (concat as) := rfl

theorem scopes_concat (as : List Harvest) : (concat as).scopes = as.flatMap Harvest.scopes := by
  induction as with
  | nil => rfl
  | cons a as ih =>
      rw [List.flatMap_cons, ← ih]
      rfl

theorem references_concat (as : List Harvest) :
    (concat as).references = as.flatMap Harvest.references := by
  induction as with
  | nil => rfl
  | cons a as ih =>
      rw [List.flatMap_cons, ← ih]
      rfl

theorem same_concat_reverse (as : List Harvest) : Same (concat as.reverse) (concat as) := by
  constructor
  · rw [scopes_concat, scopes_concat]
    exact (List.reverse_perm as).flatMap_right _
  · rw [references_concat, references_concat]
    exact (List.reverse_perm as).flatMap_right _

theorem same_concat_map {α : Type} {xs : List α} {f g : α → Harvest}
    (h : ∀ x ∈ xs, Same (f x) (g x)) : Same (concat (xs.map f)) (concat (xs.map g)) := by
  induction xs with
  | nil => exact .refl _
  | cons x xs ih =>
      obtain ⟨hx, hxs⟩ := List.forall_mem_cons.mp h
      exact hx.append (ih hxs)

/-- What the members of a list give in two turns they give in one. -/
theorem same_append_concat {α : Type} (xs : List α) (f g : α → Harvest) :
    Same (append (concat (xs.map f)) (concat (xs.map g)))
      (concat (xs.map fun x => append (f x) (g x))) := by
  constructor
  · simp only [Harvest.append, scopes_concat, List.flatMap_map]
    exact List.flatMap_append_perm xs _ _
  · simp only [Harvest.append, references_concat, List.flatMap_map]
    exact List.flatMap_append_perm xs _ _

theorem concat_filter {α : Type} (xs : List α) (p : α → Bool) (f : α → Harvest) :
    concat ((xs.filter p).map f) = concat (xs.map fun x => if p x then f x else empty) := by
  induction xs with
  | nil => rfl
  | cons x xs ih =>
      rw [List.filter_cons, List.map_cons, concat_cons, ← ih]
      split
      · rw [List.map_cons, concat_cons]
      · rw [empty_append]

/-! ### The stack -/

variable (rule : Rule)

theorem collect_cons (atRoot : Bool) (n : Node) (stack : List Node) :
    collect rule atRoot (n :: stack) = append (shown rule atRoot n)
      (collect rule false ((searched rule atRoot n).reverse ++ stack)) := by
  rw [collect]

/-- What stands deeper in the stack is searched afterwards.  When nothing stands above it, its first
node would be the one that may be the root. -/
theorem collect_append (atRoot : Bool) (stack rest : List Node)
    (h : stack = [] → atRoot = false) : collect rule atRoot (stack ++ rest) =
      append (collect rule atRoot stack) (collect rule false rest) := by
  fun_induction collect rule atRoot stack with
  | case1 atRoot =>
      rw [h rfl]
      rfl
  | case2 atRoot n stack ih =>
      rw [List.cons_append, collect_cons, append_assoc, ← ih fun _ => rfl, List.append_assoc]

/-- The nodes of a stack are searched one after the other. -/
theorem collect_eq_concat (stack : List Node) :
    collect rule false stack = concat (stack.map fun n => collect rule false [n]) := by
  induction stack with
  | nil => rw [collect, List.map_nil, concat, List.foldr_nil]
  | cons n stack ih =>
      rw [List.map_cons, concat_cons, ← ih]
      exact collect_append rule false [n] stack fun h => absurd h (List.cons_ne_nil n [])

/-- A search with a stack finds what the recursion finds, in the same order. -/
theorem collect_singleton (atRoot : Bool) (n : Node) :
    collect rule atRoot [n] = gather rule atRoot n := by
  fun_induction gather rule atRoot n with
  | case1 atRoot n ih =>
      rw [collect_cons, List.append_nil, collect_eq_concat, List.attach_map_val]
      congr 2
      exact List.map_congr_left fun m hm => ih ⟨m, hm⟩

/-! ### Reading from front to back -/

/-- What the entries of mappings mean. -/
abbrev Meaning := (atRoot : Bool) → (key : Text) → Node → Finding

mutual

/-- What is read in a node. -/
def walk (meaning : Meaning) (atRoot : Bool) : Node → Harvest
  | .object _ ms => walkEntries meaning atRoot ms
  | .array _ ns => walkItems meaning ns
  | _ => empty

/-- What is read in entries: what each of them shows, and what is read in its value unless the
meaning of the entry ends there. -/
def walkEntries (meaning : Meaning) (atRoot : Bool) : List (Key × Node) → Harvest
  | [] => empty
  | (k, n) :: ms =>
    append
      (append (meaning atRoot k.name n).shown
        (if (meaning atRoot k.name n).descends then walk meaning false n else empty))
      (walkEntries meaning atRoot ms)

/-- What is read in items, which have no meaning of their own. -/
def walkItems (meaning : Meaning) : List Node → Harvest
  | [] => empty
  | n :: ns => append (walk meaning false n) (walkItems meaning ns)

end

/-- An entry of a `.sublime-syntax` definition.  Strings are scopes or references, a mapping may
give scopes to capture groups, and a sequence may hold references; the variables at the root are
not read. -/
def definitionEntry : Meaning := fun atRoot key n =>
  if atRoot ∧ key = "variables" then ⟨empty, false⟩
  else match n with
    | .scalar _ (.string t) =>
      if key ∈ scopeKeys then ⟨ofScopes [t], false⟩
      else if key ∈ referenceKeys then ⟨ofReferences ([t].filterMap Reference.ofTarget?), true⟩
      else .none
    | .object _ ms =>
      if key ∈ captureKeys then ⟨ofScopes (ms.flatMap fun m => strings m.2), false⟩ else .none
    | .array _ ns =>
      if key ∈ referenceKeys then
        ⟨ofReferences ((itemStrings ns).filterMap Reference.ofTarget?), true⟩
      else .none
    | _ => .none

/-- An entry of a grammar.  Strings are scopes, unless they stand at the root, or references. -/
def grammarEntry : Meaning := fun atRoot key n =>
  match n with
  | .scalar _ (.string t) =>
    if key ∈ grammarScopeKeys ∧ ¬ atRoot then ⟨ofScopes [t], false⟩
    else if key = "include" then ⟨ofReferences (Reference.ofInclude? t).toList, false⟩
    else .none
  | _ => .none

/-- A rule says what the meaning of entries says, and nothing of items. -/
structure Fits (rule : Rule) (meaning : Meaning) : Prop where
  item : ∀ atRoot n, rule atRoot none n = .none
  entry : ∀ atRoot key n, rule atRoot (some key) n = meaning atRoot key n

theorem fits_definition : Fits definitionRule definitionEntry where
  item _ _ := rfl
  entry atRoot key n := by
    by_cases hroot : atRoot ∧ key = "variables"
    · simp [definitionRule, definitionEntry, hroot]
    · rcases n with ⟨s, ms⟩ | ⟨s, ns⟩ | ⟨s, t | x | b | _⟩ | s <;>
        simp [definitionRule, definitionEntry, hroot, Node.text?, Node.isObject, Node.children,
          strings, List.flatMap_map, Finding.none, ofReferences, empty]

theorem fits_grammar : Fits grammarRule grammarEntry where
  item _ _ := rfl
  entry atRoot key n := by
    rcases n with ⟨s, ms⟩ | ⟨s, ns⟩ | ⟨s, t | x | b | _⟩ | s <;>
      simp [grammarRule, grammarEntry, Node.text?]

section walk

variable {rule : Rule} {meaning : Meaning}

theorem walkEntries_eq (atRoot : Bool) (ms : List (Key × Node)) : walkEntries meaning atRoot ms =
    concat (ms.map fun m => append (meaning atRoot m.1.name m.2).shown
      (if (meaning atRoot m.1.name m.2).descends then walk meaning false m.2 else empty)) := by
  induction ms with
  | nil => rfl
  | cons m ms ih => rw [List.map_cons, concat_cons, ← ih, walkEntries]

theorem walkItems_eq (ns : List Node) :
    walkItems meaning ns = concat (ns.map (walk meaning false)) := by
  induction ns with
  | nil => rfl
  | cons n ns ih => rw [List.map_cons, concat_cons, ← ih, walkItems]

/-- In a node one reads what the nodes one level down show, each followed by what is read in it. -/
theorem walk_eq (h : Fits rule meaning) (atRoot : Bool) (n : Node) : walk meaning atRoot n =
    concat (n.children.map fun c => append (rule atRoot c.1 c.2).shown
      (if (rule atRoot c.1 c.2).descends then walk meaning false c.2 else empty)) := by
  cases n with
  | object s ms =>
      rw [walk, walkEntries_eq, Node.children, List.map_map]
      simp only [Function.comp_def, h.entry]
  | array s ns =>
      rw [walk, walkItems_eq, Node.children, List.map_map]
      simp only [Function.comp_def, h.item, Finding.none, if_true, empty_append]
  | scalar s v => rfl
  | unknown s => rfl

/-- The search shows the nodes one level down before it looks into them, and looks into the last one
first. -/
theorem same_walk (h : Fits rule meaning) (atRoot : Bool) (n : Node) :
    Same (collect rule atRoot [n]) (walk meaning atRoot n) := by
  rw [collect_singleton]
  -- the recursion is used for its induction: `ih` is about the nodes that are searched below `n`
  fun_induction gather rule atRoot n with
  | case1 atRoot n ih =>
      have hdeeper : Same (concat ((searched rule atRoot n).reverse.map (gather rule false)))
          (concat ((searched rule atRoot n).map (walk meaning false))) := by
        rw [List.map_reverse]
        refine (same_concat_reverse _).trans (same_concat_map fun m hm => ?_)
        exact ih ⟨m, List.mem_reverse.mpr hm⟩
      rw [List.attach_map_val, walk_eq h]
      refine ((Same.refl _).append hdeeper).trans ?_
      rw [searched, List.map_map, concat_filter]
      exact same_append_concat n.children _ _

end walk

end Harvest

open Harvest (Same collect walk definitionRule definitionEntry grammarRule grammarEntry)

/-- **Searching and reading.**  Searched with a stack, a document has the scopes and references that
are read in it from front to back, each as often.  The record of a definition has just the scopes
that are read, that of a grammar its base scope besides, and both list them in strictly increasing
order. -/
theorem harvest_walk (file : File) (root : Node) :
    Same (collect definitionRule true [root]) (walk definitionEntry true root) ∧
    Same (collect grammarRule true [root]) (walk grammarEntry true root) ∧
    (∀ t, t ∈ (definitionRecord file root).ownScopes ↔
      t ∈ (walk definitionEntry true root).scopes) ∧
    (∀ t, t ∈ (grammarRecord file root).ownScopes ↔
      t ∈ (walk grammarEntry true root).scopes ∨
        (grammarRecord file root).baseScope = some t) ∧
    (definitionRecord file root).ownScopes.Pairwise (· < ·) ∧
    (grammarRecord file root).ownScopes.Pairwise (· < ·) := by
  have hdefinition := Harvest.same_walk Harvest.fits_definition true root
  have hgrammar := Harvest.same_walk Harvest.fits_grammar true root
  refine ⟨hdefinition, hgrammar, fun t => ?_, fun t => ?_, Text.sortUnique_pairwise _,
    Text.sortUnique_pairwise _⟩
  · rw [definitionRecord, Text.mem_sortUnique, hdefinition.scopes.mem_iff]
  · rw [grammarRecord, Text.mem_sortUnique, List.mem_append, hgrammar.scopes.mem_iff,
      Option.mem_toList]

end Registry
end Scopewright
