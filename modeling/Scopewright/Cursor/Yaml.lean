import Scopewright.Cursor.Basic
import Scopewright.Yaml.Line

/-! # The cursor in a YAML document

The nesting is read off the indentation, from the cursor upward, so the rest of the document may
be incomplete.  Each step up looks for the entry that owns a mapping or a sequence at some column
(`Need`); a sequence may stand in the column of its key.  The place of an item is the number of
dashes above it in the same sequence (`itemsAbove`).

A key with a value of its own cannot own what is indented below it, so the resolution is malformed
there, unless the value announces a block of text and the cursor is in that text. -/

namespace Scopewright
namespace Cursor
namespace Yaml

open Scopewright.Yaml

/-- What the walk up is looking for: the owner of a mapping or of a sequence at a column. -/
structure Need where
  isMap : Bool
  col : Nat

/-- A sequence at `col` may belong to this key, which stands in the same column. -/
def ownsCompactly (n : Need) : LineEntry → Bool
  | .dash _ => false
  | .key col _ hasValue _ => !n.isMap && decide (col = n.col) && !hasValue

/-- The entry among those of a line that owns what is needed: the last possible one. -/
def owner? (n : Need) (entries : List LineEntry) : Option LineEntry :=
  (entries.filter fun e => decide (e.col < n.col) || ownsCompactly n e).getLast?

/-- The number of items above in the sequence whose dashes stand at `col`; the nearest line comes
first. -/
def itemsAbove (col : Nat) : List Text → Nat
  | [] => 0
  | line :: above =>
    let entries := lineEntries line
    let here := if entries.any (·.isDashAt col) then 1 else 0
    if entries.any fun e => decide (e.col < col) || e.isKeyAt col then here
    else here + itemsAbove col above

/-! ### Tokens -/

/-- The key being typed. -/
def keyToken (content : Text) (start : Nat) : Token :=
  match content with
  | [] => .plain [] start start none .key none
  | c :: r =>
    match Quote.ofUnit? c with
    | some q => .plain r (start + 1) (start + content.length) (some q) .key none
    | none => .plain content start (start + content.length) none .key none

/-- How far the reading of a flow sequence has come. -/
structure Flow where
  depth : Int
  commas : Nat
  next : Nat
  itemStart : Nat

/-- Reads one more unit of a flow sequence. -/
def Flow.read (f : Flow) (c : CodeUnit) : Flow :=
  let next := f.next + 1
  if c = '[' then { f with depth := f.depth + 1, next }
  else if c = ']' then { f with depth := f.depth - 1, next }
  else if c = ',' ∧ f.depth = 1 then { f with commas := f.commas + 1, next, itemStart := next }
  else { f with next }

/-- The place of the item being typed in a flow sequence and where its text begins; nothing when
no sequence is open. -/
def flowItem? (value : Text) : Option (Nat × Nat) :=
  if value.head? = some (CodeUnit.ofBasic '[') then
    let f := value.foldl Flow.read ⟨0, 0, 0, 1⟩
    if 0 < f.depth then some (f.commas, f.itemStart) else none
  else none

/-- A closing quote stands in the text. -/
def isClosedBy (q : Quote) : Text → Bool
  | [] => false
  | [c] => decide (c = q.unit)
  | c :: d :: r =>
    if q = .double ∧ c = '\\' then isClosedBy q r
    else if c = q.unit then
      if q = .single ∧ d = '\'' then isClosedBy q r else true
    else isClosedBy q (d :: r)

/-- A comment begins in the text: a number sign at its front or behind white space. -/
def hasComment (atBreak : Bool) : Text → Bool
  | [] => false
  | c :: r => (atBreak && decide (c = '#')) || hasComment c.isBlank r

/-- What a value stands for so far. -/
def valueText : Option Quote → Text → Text
  | none, t => t
  | some .single, t => halveQuotes t
  | some .double, t => dropBackslashes t

/-- The side that the cursor is on behind the raw text of a value. -/
def valuePosition : Option Quote → Text → Position
  | none, t => if hasComment true t then .unknown else .value
  | some q, t => if isClosedBy q t then .unknown else .value

/-- The number of blanks at the front of a text. -/
def blanks (t : Text) : Nat := (t.takeWhile CodeUnit.isBlank).length

/-- The value being typed behind a key, and its place when it is an item of a flow sequence. -/
def valueToken (value : Text) (offset : Nat) : Token × Option Nat :=
  let lead := blanks value
  let flow := flowItem? (value.drop lead)
  let start := match flow with
    | some (_, itemStart) =>
      lead + itemStart + blanks (value.drop (lead + itemStart))
    | none => lead
  let quote := (value.drop start).head? >>= Quote.ofUnit?
  let start := if quote.isSome then start + 1 else start
  let raw := value.drop start
  (⟨valueText quote raw, (offset + start : Nat), (offset + value.length : Nat), quote, none,
    valuePosition quote raw, Selector.scan raw (offset + start : Nat)⟩, flow.map (·.1))

/-! ### The walk up -/

/-- What the walk up has found: the path below the entries still to be found. -/
structure Found where
  path : Path
  token : Token
  malformed : Bool

/-- The token of a cursor inside a block of text: the line so far. -/
def blockTextToken (before : Text) (offset : Nat) : Token :=
  let text := Text.trimStart before
  .plain text (offset - text.length : Nat) offset none .value none

/-- Walks up over the lines above, nearest first.  `before` is the cursor line up to the cursor,
and `first` says that no owner has been found yet. -/
def climb (before : Text) (offset : Nat) (need : Need) (first : Bool) (f : Found) :
    List Text → Found
  | [] => f
  | line :: above =>
    if need.col = 0 then f
    else match owner? need (lineEntries line) with
      | none => climb before offset need first f above
      | some (.dash col) =>
        climb before offset ⟨false, col⟩ false
          { f with path := .index (itemsAbove col above) :: f.path } above
      | some (.key col name hasValue blockScalar) =>
        if blockScalar && first && need.isMap then
          climb before offset ⟨true, col⟩ false
            { f with path := [.key name], token := blockTextToken before offset } above
        else if hasValue then { f with malformed := true }
        else climb before offset ⟨true, col⟩ false { f with path := .key name :: f.path } above

/-- The names of the keys at `col` in the lines above, nearest first, as long as no line leaves
the mapping. -/
def keysAbove (col : Nat) : List Text → List Text
  | [] => []
  | line :: above =>
    let entries := lineEntries line
    entries.filterMap (·.nameAt? col)
      ++ (if entries.any fun e => decide (e.col < col) then [] else keysAbove col above)

/-- The names of the keys at `col` in the lines below, as long as no line leaves the mapping. -/
def keysBelow (col : Nat) : List Text → List Text
  | [] => []
  | line :: below =>
    let entries := lineEntries line
    if entries.any fun e => decide (e.col < col) then []
    else entries.filterMap (·.nameAt? col) ++ keysBelow col below

/-- The lines of a document around a cursor: those above, nearest first, the cursor line up to the
cursor, and those below. -/
structure Lines where
  above : List Text
  before : Text
  below : List Text

/-- The lines around an offset. -/
def Lines.around (t : Text) (offset : Nat) : Lines :=
  match (Text.splitOn '\n' (t.take offset)).reverse with
  | [] => ⟨[], [], []⟩
  | before :: above => ⟨above, before, (Text.splitOn '\n' (t.drop offset)).drop 1⟩

/-- What the cursor line alone tells. -/
def onLine (d : Dashes) (offset : Nat) : Path × Token :=
  let start := offset - d.content.length
  match keyHead? d.content with
  | some k =>
    let (token, index) := valueToken (d.content.drop k.length) (start + k.length)
    (.key (keyName k.source) :: (index.map Segment.index).toList, token)
  | none =>
    let token := keyToken d.content start
    ([.key token.text], token)

/-- The places of the items that dashes on one line open, innermost last. -/
def itemSteps (cols : List Nat) (above : List Text) : Path :=
  cols.map fun col => .index (itemsAbove col above)

/-- What a cursor in a YAML document stands on. -/
def resolve (t : Text) (offset : Nat) : Resolution :=
  let lines := Lines.around t offset
  let indent := indentOf lines.before
  let d := dashes indent (lines.before.drop indent)
  let (path, token) := onLine d offset
  let need : Need := match d.cols with
    | [] => ⟨true, d.contentCol⟩
    | col :: _ => ⟨false, col⟩
  let f := climb lines.before offset need true
    ⟨itemSteps d.cols lines.above ++ path, token, false⟩ lines.above
  ⟨f.path, f.token,
    if f.token.position = .key then
      keysAbove d.contentCol lines.above ++ keysBelow d.contentCol lines.below
    else [], f.malformed⟩

end Yaml
end Cursor
end Scopewright
