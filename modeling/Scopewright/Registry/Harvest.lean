import Scopewright.Document.Basic
import Scopewright.Registry.Record

/-! # Scopes and references in a document

What the entries of a syntax definition say, collected over the whole document.  A rule
(`Harvest.Rule`) tells what an entry shows by itself and whether its value is searched
further; the entries of the root have rules of their own.

`Harvest.collect` searches with a stack of nodes, the last entry of a node first;
`Harvest.gather` is the same search by recursion on the document. -/

namespace Scopewright
namespace Registry

open Document (Node)
open Number (total)

/-- Scopes and references in the order of a search. -/
structure Harvest where
  scopes : List Text
  references : List Reference
deriving Inhabited

namespace Harvest

/-- Nothing found. -/
def empty : Harvest := ⟨[], []⟩

/-- What is found by two searches, one after the other. -/
def append (a b : Harvest) : Harvest := ⟨a.scopes ++ b.scopes, a.references ++ b.references⟩

/-- What is found by searches one after the other. -/
def concat (hs : List Harvest) : Harvest := hs.foldr append empty

/-- Scopes that are found. -/
def ofScopes (values : List Text) : Harvest := ⟨values.flatMap splitScopes, []⟩

/-- References that are found. -/
def ofReferences (references : List Reference) : Harvest := ⟨[], references⟩

/-- What an entry shows by itself, and whether its value is searched. -/
structure Finding where
  shown : Harvest
  descends : Bool

/-- What the entries of a document mean; items of sequences have no key. -/
abbrev Rule := (atRoot : Bool) → (key : Option Text) → Node → Finding

/-- What an entry shows that has no meaning of its own. -/
def Finding.none : Finding := ⟨empty, true⟩

mutual

/-- The strings of a node: its own, or those of its items. -/
def strings : Node → List Text
  | .scalar _ (.string t) => [t]
  | .array _ ns => itemStrings ns
  | _ => []

/-- The strings of items. -/
def itemStrings : List Node → List Text
  | [] => []
  | n :: ns => strings n ++ itemStrings ns

end

/-- Keys of a `.sublime-syntax` definition whose value is a scope. -/
def scopeKeys : List Text := ["scope", "meta_scope", "meta_content_scope", "embed_scope"]

/-- Keys of a `.sublime-syntax` definition that give scopes to capture groups. -/
def captureKeys : List Text := ["captures", "escape_captures"]

/-- Keys of a `.sublime-syntax` definition that may refer to another syntax. -/
def referenceKeys : List Text := ["embed", "include", "push", "set", "extends", "branch"]

/-- The entries of a `.sublime-syntax` definition.  The variables at the root are not
searched. -/
def definitionRule : Rule := fun atRoot key n =>
  match key with
  | none => .none
  | some key =>
    if atRoot && key = "variables" then ⟨empty, false⟩
    else if scopeKeys.contains key && n.text?.isSome then ⟨ofScopes (strings n), false⟩
    else if captureKeys.contains key && n.isObject then
      ⟨ofScopes (n.children.flatMap fun c => strings c.2), false⟩
    else if referenceKeys.contains key then
      ⟨ofReferences ((strings n).filterMap Reference.ofTarget?), true⟩
    else .none

/-- Keys of a grammar whose value is a scope. -/
def grammarScopeKeys : List Text := ["name", "contentName"]

/-- The entries of a grammar.  The name at the root is not a scope. -/
def grammarRule : Rule := fun atRoot key n =>
  match key, n.text? with
  | some key, some t =>
    if grammarScopeKeys.contains key && !atRoot then ⟨ofScopes [t], false⟩
    else if key = "include" then ⟨ofReferences (Reference.ofInclude? t).toList, false⟩
    else .none
  | _, _ => .none

/-- What the entries of a node show. -/
def shown (rule : Rule) (atRoot : Bool) (n : Node) : Harvest :=
  concat (n.children.map fun c => (rule atRoot c.1 c.2).shown)

/-- The nodes one level down that are searched. -/
def searched (rule : Rule) (atRoot : Bool) (n : Node) : List Node :=
  (n.children.filter fun c => (rule atRoot c.1 c.2).descends).map (·.2)

theorem total_searched_size (rule : Rule) (atRoot : Bool) (n : Node) :
    total ((searched rule atRoot n).map Node.size) < n.size := by
  have h : ∀ cs : List (Option Text × Node),
      total (((cs.filter fun c => (rule atRoot c.1 c.2).descends).map (·.2)).map Node.size)
        ≤ total (cs.map fun c => c.2.size) := by
    intro cs
    induction cs with
    | nil => simp
    | cons c cs ih =>
      rw [List.filter_cons]
      split
      · simp only [List.map_cons, total]
        omega
      · simp only [List.map_cons, total]
        omega
  have := h n.children
  have := Node.total_children_size n
  unfold searched
  omega

/-- Searches the nodes of a stack; only the first one may be the root. -/
def collect (rule : Rule) (atRoot : Bool) (stack : List Node) : Harvest :=
  match stack with
  | [] => empty
  | n :: stack =>
    append (shown rule atRoot n)
      (collect rule false ((searched rule atRoot n).reverse ++ stack))
termination_by total (stack.map Node.size)
decreasing_by
  have := total_searched_size rule atRoot n
  simp only [List.map_append, List.map_reverse, Number.total_append, Number.total_reverse,
    List.map_cons, total]
  omega

theorem size_le_total {n : Node} {ns : List Node} (h : n ∈ ns) :
    n.size ≤ total (ns.map Node.size) := by
  induction ns with
  | nil => cases h
  | cons m ns ih =>
    rw [List.map_cons, total]
    rcases List.mem_cons.mp h with rfl | h
    · omega
    · have := ih h
      omega

/-- Searches a document. -/
def gather (rule : Rule) (atRoot : Bool) (n : Node) : Harvest :=
  append (shown rule atRoot n)
    (concat ((searched rule atRoot n).reverse.attach.map fun m => gather rule false m.1))
termination_by n.size
decreasing_by
  have h := total_searched_size rule atRoot n
  have hm := List.mem_reverse.mp m.2
  have : m.1.size ≤ total ((searched rule atRoot n).map Node.size) := size_le_total hm
  omega

end Harvest
end Registry
end Scopewright
