import Scopewright.Text.LowerCase

/-! # Candidates

A candidate is a text that may replace the word being typed (`Completion.Candidate`).  How
well its label matches the word is its tier (`matchTier?`), and candidates are ranked by tier and
label, one for each inserted text (`Completion.rank`). -/

namespace Scopewright
namespace Completion

/-- How a label matches the word; better tiers come first. -/
inductive Tier where
  | startsWith
  | contains
  | scattered
deriving DecidableEq, Repr, Inhabited

namespace Tier

/-- All tiers. -/
def all : List Tier := [startsWith, contains, scattered]

/-- The name of a tier. -/
def name : Tier → Text
  | startsWith => "prefix"
  | contains => "substring"
  | scattered => "fuzzy"

/-- The tier of a name. -/
def ofName? (t : Text) : Option Tier := all.find? fun x => decide (x.name = t)

/-- The place of a tier. -/
def rank : Tier → Nat
  | startsWith => 0
  | contains => 1
  | scattered => 2

end Tier

/-- Where a candidate comes from; earlier sources win ties. -/
inductive Source where
  | schema
  | document
  | registry
  | builtin
deriving DecidableEq, Repr, Inhabited

namespace Source

/-- All sources. -/
def all : List Source := [schema, document, registry, builtin]

/-- The name of a source. -/
def name : Source → Text
  | schema => "schema"
  | document => "document"
  | registry => "registry"
  | builtin => "builtin"

/-- The source of a name. -/
def ofName? (t : Text) : Option Source := all.find? fun x => decide (x.name = t)

/-- The place of a source. -/
def rank : Source → Nat
  | schema => 0
  | document => 1
  | registry => 2
  | builtin => 3

end Source

/-- What a candidate is. -/
inductive Kind where
  | key
  | scope
  | variable
  | action
  | value
  | color
deriving DecidableEq, Repr, Inhabited

namespace Kind

/-- All kinds. -/
def all : List Kind := [key, scope, «variable», action, value, color]

/-- The name of a kind. -/
def name : Kind → Text
  | key => "key"
  | scope => "scope"
  | «variable» => "variable"
  | action => "action"
  | value => "value"
  | color => "color"

/-- The kind of a name. -/
def ofName? (t : Text) : Option Kind := all.find? fun x => decide (x.name = t)

end Kind

/-- A text that may replace the word being typed. -/
structure Candidate where
  displayText : Text
  /-- The text to put in, in the notation of the document. -/
  insertText : Text
  replaced : Span
  detail : Option Text
  kind : Kind
  tier : Tier
  internal : Bool
  source : Source
deriving DecidableEq, Inhabited

/-! ### Matching -/

/-- The units of a word occur in a label in their order.  The halves of a surrogate pair match
nothing. -/
def isScattered : (word label : Text) → Bool
  | [], _ => true
  | _ :: _, [] => false
  | w :: ws, [c] => ws.isEmpty && decide (c = w)
  | w :: ws, c :: d :: r =>
    if c.isLeadSurrogate && d.isTrailSurrogate then isScattered (w :: ws) r
    else if c = w then isScattered ws (d :: r)
    else isScattered (w :: ws) (d :: r)

/-- How a label matches a word, if it does; the empty word begins every label. -/
def matchTier? (label word : Text) (caseSensitive : Bool) : Option Tier :=
  let label := if caseSensitive then label else label.toLower
  let word := if caseSensitive then word else word.toLower
  if word.isPrefixOf label then some .startsWith
  else if Text.has word label then some .contains
  else if isScattered word label then some .scattered
  else none

/-! ### Ranking -/

namespace Candidate

/-- By tier, then by label, internal ones last, then by source. -/
def le (a b : Candidate) : Bool :=
  if a.tier ≠ b.tier then decide (a.tier.rank ≤ b.tier.rank)
  else if a.displayText ≠ b.displayText then Text.le a.displayText b.displayText
  else if a.internal ≠ b.internal then b.internal
  else decide (a.source.rank ≤ b.source.rank)

end Candidate

/-- The first candidate for each inserted text; `seen` texts are left out. -/
def firstOfEach (seen : List Text) : List Candidate → List Candidate
  | [] => []
  | c :: cs =>
    if seen.contains c.insertText then firstOfEach seen cs
    else c :: firstOfEach (c.insertText :: seen) cs

/-- The candidates in order, the best one for each inserted text. -/
def rank (cs : List Candidate) : List Candidate := firstOfEach [] (cs.mergeSort Candidate.le)

end Completion
end Scopewright
