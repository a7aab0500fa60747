import Scopewright.Text.Class

/-! # Scope selectors

A selector combines scope names by white space, `,`, `|`, `&`, `>`, parentheses and the minus
sign.  A minus sign right after a character of a name belongs to the name (`meta.function-call`),
elsewhere it means "without".

* `Selector.scan` reads a selector as far as it has been typed: the word being typed, and
  whether a parenthesis is still open.
* `Selector.atoms` lists the names of a whole selector with their places. -/

namespace Scopewright
namespace Selector

/-- A character that a minus sign may follow inside a name. -/
def isNameUnit (c : CodeUnit) : Bool :=
  c.isWord || Text.contains ".+#$:-" c

/-- A character that stands between names; the minus sign is not among them. -/
def isCombinator (c : CodeUnit) : Bool :=
  Text.contains " \t\n>,|&()" c

/-- A selector read from its first character up to the cursor. -/
structure Scan where
  inParens : Bool
  word : Text
  wordStart : Int
deriving Inhabited

/-- How far the scan of a selector has come. -/
structure Progress where
  depth : Nat
  wordStart : Nat
  next : Nat
  previous : Option CodeUnit

/-- Nothing read yet. -/
def Progress.start : Progress := ⟨0, 0, 0, none⟩

/-- A minus sign after `previous` means "without". -/
def isWithout (previous : Option CodeUnit) (c : CodeUnit) : Bool :=
  decide (c = '-') && !previous.any isNameUnit

/-- Reads one more character. -/
def Progress.read (p : Progress) (c : CodeUnit) : Progress where
  depth := if c = '(' then p.depth + 1 else if c = ')' then p.depth - 1 else p.depth
  wordStart := if isCombinator c || isWithout p.previous c then p.next + 1 else p.wordStart
  next := p.next + 1
  previous := some c

/-- Scans the selector text typed so far, the first unit of which stands at `start`. -/
def scan (text : Text) (start : Int) : Scan :=
  let p := text.foldl Progress.read .start
  ⟨0 < p.depth, text.drop p.wordStart, start + p.wordStart⟩

/-- A scope name with its offset in the selector. -/
structure Atom where
  name : Text
  offset : Nat
deriving DecidableEq, Inhabited

/-- The atom of a name that ends before `stop`; none for no name. -/
def atomBefore (name : Text) (stop : Nat) : List Atom :=
  if name.isEmpty then [] else [⟨name, stop - name.length⟩]

/-- The atoms of what is left, `i` units into the selector and inside the name `name`. -/
def atomsFrom (name : Text) (i : Nat) : Text → List Atom
  | [] => atomBefore name i
  | c :: r =>
    if isCombinator c || (decide (c = '-') && name.isEmpty) then
      atomBefore name i ++ atomsFrom [] (i + 1) r
    else atomsFrom (name ++ [c]) (i + 1) r

/-- The scope names of a selector. -/
def atoms (selector : Text) : List Atom := atomsFrom [] 0 selector

end Selector
end Scopewright
