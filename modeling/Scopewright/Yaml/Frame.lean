import Scopewright.Yaml.Syntax

/-! # Values that are being read

A value of which more may come is a frame (`Yaml.Frame`).  A frame of a collection keeps its last
entry apart from the ones before it, which are in reverse order.

`Frame.close` makes the value, and `Frame.put?` puts a finished value into the frame around it: as
the value of the last entry, as its key, or as a new entry.  Blank lines and comments that have
been collected for an entry that never came belong behind the collection
(`Value.splitSlack`). -/

namespace Scopewright
namespace Yaml

/-- Without key indicator and colon: all tokens are white space or comments. -/
def areEmpty (ts : List Token) : Bool := ts.all fun t => t.kind.isEmpty

/-- The tokens in front of the key at the end of a line, and those before them: what follows the last
indicator or line break and the spaces behind it. -/
def splitKeyStart (ts : List Token) : List Token × List Token :=
  let isBarrier (t : Token) : Bool :=
    match t.kind with
    | .docStart | .explicitKey | .mapValue | .seqItem | .newline => true
    | _ => false
  let tail := (ts.reverse.takeWhile (!isBarrier ·)).reverse
  let key := tail.dropWhile fun t => decide (t.kind = .space)
  (ts.take (ts.length - key.length), key)

/-- An item of a sequence in flow style that turned out to be no key: its key is its value. -/
def Item.settle (i : Item) : Item :=
  match i.sep with
  | none => i
  | some sep =>
    if i.value.isSome || hasKind i.start .explicitKey || hasKind sep .mapValue then i
    else
      match i.key with
      | some v =>
        if v.isFlow then .mk i.start i.isExplicit none none (v.addEnding sep)
        else .mk (i.start ++ sep) i.isExplicit none none v
      | none => .mk (i.start ++ sep) i.isExplicit none none none

/-- The items of a flow collection that starts with the given token, once its end is known. -/
def settleItems (start : Token) (items : List Item) : List Item :=
  if start.kind = .flowSeqStart then items.map Item.settle else items

/-- The last entry holds nothing but blank lines and comments that are not indented as far as the
collection. -/
def isSlackItem (indent : Nat) (i : Item) : Bool :=
  i.sep.isNone && i.value.isNone && !i.start.isEmpty && areEmpty i.start
    && (indent = 0 || i.start.all fun t => t.kind != .comment || t.indent < indent)

/-- Takes blank lines and comments off the end of a collection in block style. -/
def Value.splitSlack (v : Value) : Value × Option (List Token) :=
  let split (indent : Nat) (items : List Item) : Option (List Item × List Token) :=
    match items.getLast? with
    | some i => if isSlackItem indent i then some (items.dropLast, i.start) else none
    | none => none
  match v with
  | .blockMap o i items =>
    match split i items with
    | some (items, ts) => (.blockMap o i items, some ts)
    | none => (v, none)
  | .blockSeq o i items =>
    match split i items with
    | some (items, ts) => (.blockSeq o i items, some ts)
    | none => (v, none)
  | v => (v, none)

/-- A value that is being read. -/
inductive Frame where
  | scalar (style : Style) (token : Token) (ending : List Token)
  | block (offset indent : Nat) (props : List HeaderPart) (source : Text)
  | blockMap (offset indent : Nat) (before : List Item) (last : Item)
  | blockSeq (offset indent : Nat) (before : List Item) (last : Item)
  | flow (start : Token) (items : List Item) (ending : List Token)

namespace Frame

/-- The frame of a scalar on a line. -/
def ofScalar (style : Style) (t : Token) : Frame := scalar style t []

/-- The indentation of the value. -/
def indent : Frame → Nat
  | scalar _ t _ => t.indent
  | block _ i .. => i
  | blockMap _ i .. => i
  | blockSeq _ i .. => i
  | flow t .. => t.indent

/-- The value, with nothing to come. -/
def close : Frame → Value
  | scalar style t e => .scalar style t.offset t.indent t.source e
  | block o i props source => .block o i props source
  | blockMap o i before last => .blockMap o i (last :: before).reverse
  | blockSeq o i before last => .blockSeq o i (last :: before).reverse
  | flow t items e => .flow t t.indent (settleItems t items.reverse) e

/-- A block of text has the indentation of what is around it. -/
def adopt (indent : Nat) : Value → Value
  | .block o _ props source => .block o indent props source
  | v => v

/-- A new entry of a mapping with a key. -/
def keyed (v : Value) : Item := .mk [] false v (some []) none

/-- Puts a value into the frame around it; nothing for frames that hold no values.  A key
tells besides whether its line is one of a key from now on. -/
def put? (v : Value) (f : Frame) : Option (Frame × Option Bool) :=
  match f with
  | scalar .. => none
  | block o i props source =>
    match v with
    | .stray s => some (block o i (props ++ [.stray s]) source, none)
    | _ => none
  | blockMap o i before last =>
    let v := adopt i v
    if last.value.isSome then some (blockMap o i (last :: before) (keyed v), true)
    else if last.sep.isSome then
      match v.splitSlack with
      | (v, none) => some (blockMap o i before (last.setValue v), none)
      | (v, some ts) => some (blockMap o i (last.setValue v :: before) (.bare ts), none)
    else some (blockMap o i before (last.setKey v []), !last.isExplicit)
  | blockSeq o i before last =>
    let (v, slack) := (adopt i v).splitSlack
    let (before, last) :=
      if last.value.isSome then (last :: before, (Item.bare []).setValue v)
      else (before, last.setValue v)
    match slack with
    | none => some (blockSeq o i before last, none)
    | some ts => some (blockSeq o i (last :: before) (.bare ts), none)
  | flow t items e =>
    let v := adopt t.indent v
    match items with
    | [] => some (flow t [keyed v] e, none)
    | last :: before =>
      if last.value.isSome then some (flow t (keyed v :: items) e, none)
      else if last.sep.isSome then some (flow t (last.setValue v :: before) e, none)
      else some (flow t (last.setKey v [] :: before) e, none)

end Frame

/-- Puts the value into a document. -/
def DocumentPart.put (d : DocumentPart) (v : Value) : DocumentPart :=
  let v : Value :=
    match Frame.adopt 0 v with
    | .flow start _ items ending => .flow start 0 items ending
    | v => v
  match v.splitSlack with
  | (v, none) => { d with value := v }
  | (v, some ts) => { d with value := v, ending := ts }

end Yaml
end Scopewright
