import Scopewright.Text.Basic

/-! # Tables

A table keeps one value per name, in the order in which the names first came (`Table.set`). -/

namespace Scopewright

/-- Values by name. -/
abbrev Table (α : Type) := List (Text × α)

namespace Table

variable {α : Type} (t : Table α)

/-- The value of a name. -/
def get? (name : Text) : Option α := t.lookup name

/-- A name has a value. -/
def has (name : Text) : Bool := t.any fun e => decide (e.1 = name)

/-- The names. -/
def names : List Text := t.map (·.1)

/-- Gives a name a value; a name that has one keeps its place. -/
def set (name : Text) (value : α) : Table α :=
  if has t name then t.map fun e => if e.1 = name then (name, value) else e
  else t ++ [(name, value)]

/-- Takes a name out. -/
def erase (name : Text) : Table α := t.filter fun e => decide (e.1 ≠ name)

/-- The table of some entries; of two with one name the later value counts. -/
def ofList (entries : List (Text × α)) : Table α :=
  entries.foldl (fun t e => set t e.1 e.2) []

end Table
end Scopewright
