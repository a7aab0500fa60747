import Scopewright.Cursor.Basic
import Scopewright.Markup.Piece

/-! # The cursor in property lists and element documents

The pieces before the cursor leave a stack of open elements (`Cursor.Markup.Frame`).  In a property
list a value lies under the key that waits for it or at its place in an array; in an element
document every element is a step of the path.  What is typed is the character data behind the
last tag.

Character data with a number reference that is too large cannot be read, and the resolution is
malformed. -/

namespace Scopewright
namespace Cursor
namespace Markup

open Scopewright.Markup (Piece PieceKind pieces Reference.OutOfRange Reference.read)

/-- An element that is open at the cursor. -/
structure Frame where
  name : Text
  /-- The step of the path that the element adds. -/
  segment : Option Segment
  /-- The keys of a dictionary so far. -/
  keys : List Text
  /-- The key that waits for its value. -/
  pending : Option Text
  /-- The place of the next item of an array. -/
  index : Nat
  /-- The character data of a key. -/
  keyText : Text

/-- The step that an element adds inside `parent`. -/
def segmentIn (plist : Bool) (parent : Option Frame) (name : Text) : Option Segment :=
  if !plist then some (.key name)
  else match parent with
    | none => none
    | some p =>
      if p.name = "dict" ∧ name ≠ "key" then some (.key (p.pending.getD []))
      else if p.name = "array" then some (.index p.index)
      else none

/-- Opens an element; the stack has its innermost element first. -/
def push (plist : Bool) (name : Text) (stack : List Frame) : List Frame :=
  ⟨name, segmentIn plist stack.head? name, [], none, 0, []⟩ :: stack

/-- What a frame learns when the element `closed` inside it ends. -/
def Frame.closeInner (f closed : Frame) : Frame :=
  if f.name = "dict" then
    if closed.name = "key" then
      let key := Text.trim closed.keyText
      { f with pending := some key, keys := f.keys ++ [key] }
    else { f with pending := none }
  else if f.name = "array" then { f with index := f.index + 1 }
  else f

/-- Closes the innermost element. -/
def pop (plist : Bool) : List Frame → List Frame
  | [] => []
  | [_] => []
  | closed :: parent :: rest =>
    (if plist then parent.closeInner closed else parent) :: rest

/-- Closes a number of elements. -/
def popMany (plist : Bool) : Nat → List Frame → List Frame
  | 0, stack => stack
  | n + 1, stack => popMany plist n (pop plist stack)

/-- Reads a piece. -/
def read (plist : Bool) (stack : List Frame) (p : Piece) : List Frame :=
  match p.kind with
  | .text t =>
    match stack with
    | [] => []
    | f :: fs => (if f.name = "key" then { f with keyText := f.keyText ++ t } else f) :: fs
  | .opening name => push plist name stack
  | .empty name => pop plist (push plist name stack)
  | .closing name =>
    match stack.findIdx? fun (f : Frame) => decide (f.name = name) with
    | some k => popMany plist (k + 1) stack
    | none => stack
  | .aside => stack

/-- The elements that are open behind a text. -/
def openAt (plist : Bool) (before : Text) : List Frame := (pieces before).1.foldl (read plist) []

/-! ### Keys behind the cursor -/

/-- A tag of a dictionary, an array or a key. -/
structure Mark where
  isClosing : Bool
  isKey : Bool
  isEmpty : Bool
  length : Nat

/-- The names that are looked for. -/
def markNames : List Text := ["dict", "array", "key"]

/-- The tag that stands behind a `<`. -/
def mark? (t : Text) : Option Mark :=
  let isClosing := t.head? = some (CodeUnit.ofBasic '/')
  let lead := if isClosing then 1 else 0
  let body := t.drop lead
  match markNames.find? fun name => name.isPrefixOf body with
  | none => none
  | some name =>
    let rest := body.drop name.length
    if rest.head?.any CodeUnit.isWord then none
    else match rest.findIdx? (· = CodeUnit.ofBasic '>') with
      | none => none
      | some k =>
        some ⟨isClosing, decide (name = "key"),
          (rest.take k).getLast? = some (CodeUnit.ofBasic '/'), lead + name.length + k + 1⟩

/-- The closing tag of a key. -/
def keyEnd : Text := "</key>"

/-- The keys of the current dictionary in what follows the cursor, `depth` collections deep. -/
def followingKeys (depth : Nat) (t : Text) : Except Reference.OutOfRange (List Text) :=
  match t with
  | [] => .ok []
  | c :: r =>
    if c = '<' then
      match mark? r with
      | none => followingKeys depth r
      | some m =>
        let rest := r.drop m.length
        if m.isEmpty then followingKeys depth rest
        else if m.isKey then
          if m.isClosing ∨ depth ≠ 0 then followingKeys depth rest
          else match Text.find? keyEnd rest with
            | none => .ok []
            | some k => do
              let key ← Reference.read (rest.take k)
              let keys ← followingKeys depth (rest.drop k)
              return Text.trim key :: keys
        else if m.isClosing then
          if depth = 0 then .ok [] else followingKeys (depth - 1) rest
        else followingKeys (depth + 1) rest
    else followingKeys depth r
termination_by t.length
decreasing_by
  all_goals
    simp only [List.length_cons, List.length_drop]
    omega

/-! ### The resolution -/

/-- The elements of a property list that hold a scalar. -/
def valueNames : List Text := ["string", "integer", "real", "date", "data", "true", "false"]

/-- The parts of the text before the cursor: it is inside a tag, or `data` stands behind the last
tag. -/
structure Before where
  inTag : Bool
  data : Text

/-- Splits the text before the cursor at the last end of a tag. -/
def Before.of (t : Text) : Before :=
  let data := (t.reverse.takeWhile (· ≠ CodeUnit.ofBasic '>')).reverse
  ⟨data.contains (CodeUnit.ofBasic '<'), data⟩

/-- The resolution of a cursor in a property list whose innermost element is `top`. -/
def resolvePlist (top : Frame) (outer : List Frame) (path : Path) (data after : Text)
    (offset : Nat) : Except Reference.OutOfRange Resolution :=
  let start : Int := (offset - data.length : Nat)
  let partly := Text.trimStart data
  let partlyStart : Int := (offset - partly.length : Nat)
  if top.name = "key" then do
    let partly ← Reference.read data
    let keys ← followingKeys 0 after
    return ⟨path ++ [.key partly], .plain partly start offset none .key (some "key"),
      (outer.head?.map (·.keys)).getD [] ++ keys, false⟩
  else if valueNames.contains top.name then do
    let value ← Reference.read data
    return ⟨path, .plain value start offset none .value (some top.name), [], false⟩
  else if top.name = "dict" then do
    let keys ← followingKeys 0 after
    return ⟨path ++ [.key partly], .plain partly partlyStart offset none .key none,
      top.keys ++ keys, false⟩
  else if top.name = "array" then
    return ⟨path ++ [.index top.index], .plain partly partlyStart offset none .value none, [],
      false⟩
  else return ⟨path, .plain partly partlyStart offset none .unknown none, [], false⟩

/-- The resolution of a cursor in an element document. -/
def resolveElements (top : Frame) (outer : List Frame) (path : Path) (data : Text)
    (offset : Nat) : Except Reference.OutOfRange Resolution :=
  if outer.isEmpty then
    let partly := Text.trimStart data
    return ⟨path ++ [.key partly],
      .plain partly (offset - partly.length : Nat) offset none .key none, [], false⟩
  else do
    let value ← Reference.read data
    return ⟨path, .plain value (offset - data.length : Nat) offset none .value (some top.name),
      [], false⟩

/-- What a cursor stands on, unless a reference cannot be read. -/
def resolve? (plist : Bool) (t : Text) (offset : Nat) : Except Reference.OutOfRange Resolution :=
  let before := Before.of (t.take offset)
  let stack := openAt plist (t.take offset)
  let path := stack.reverse.filterMap (·.segment)
  match stack with
  | [] => return .nowhere offset path false
  | top :: outer =>
    if before.inTag then return .nowhere offset path false
    else if plist then resolvePlist top outer path before.data (t.drop offset) offset
    else resolveElements top outer path before.data offset

/-- What a cursor in a property list or an element document stands on. -/
def resolve (plist : Bool) (t : Text) (offset : Nat) : Resolution :=
  match resolve? plist t offset with
  | .ok r => r
  | .error _ => malformed offset

end Markup
end Cursor
end Scopewright
