import Scopewright.Yaml.Frame

/-! # Parts of a stream

The tokens of a text nest into the parts of a stream (`Yaml.parts`).  The nesting is built token by
token: the frames that are open, innermost first, stand on a document, on the mark of a document's
end, or on nothing (`Assembly`).

A token either finds its place in the innermost frame or ends that frame, and then is tried in the
one around it (`Outcome`); so one more try than there are open frames, and one for the
document, are enough. -/

namespace Scopewright
namespace Yaml

/-- What the open frames stand on. -/
inductive Base where
  | between
  | document (d : DocumentPart)
  | documentEnd (mark : Token) (ending : List Token)

/-- How far the nesting has come. -/
structure Assembly where
  base : Base
  /-- The open frames, innermost first. -/
  frames : List Frame
  /-- The parts so far, last first. -/
  reversed : List Part
  /-- Only indentation and indicators have come on this line. -/
  atLineStart : Bool
  /-- The next lexeme is the text of a scalar. -/
  atScalar : Bool
  /-- The indentation of the line. -/
  indent : Nat
  /-- Where the next token begins. -/
  offset : Nat
  /-- A key has come on this line. -/
  onKeyLine : Bool

namespace Assembly

/-- Nothing read. -/
def empty : Assembly := ⟨.between, [], [], true, false, 0, 0, false⟩

variable (a : Assembly)

/-- Adds a part. -/
def emit (p : Part) : Assembly := { a with reversed := p :: a.reversed }

/-- Opens a frame. -/
def push (f : Frame) : Assembly := { a with frames := f :: a.frames }

/-- Replaces the innermost frame. -/
def setTop (f : Frame) : Assembly := { a with frames := f :: a.frames.drop 1 }

/-- Ends the document or the mark of a document's end. -/
def closeBase : Assembly :=
  match a.base with
  | .between => a
  | .document d => { a.emit (.document d) with base := .between }
  | .documentEnd mark e => { a.emit (.documentEnd mark e) with base := .between }

/-- Puts a value into the innermost frame, or into the document. -/
def put (v : Value) : Assembly :=
  match a.frames with
  | f :: frames =>
    match f.put? v with
    | some (f, isKey) => { a with frames := f :: frames, onKeyLine := isKey.getD a.onKeyLine }
    | none => a
  | [] =>
    match a.base with
    | .document d => { a with base := .document (d.put v) }
    | _ =>
      match v with
      | .stray s => a.closeBase.emit (.stray s)
      | _ => a.closeBase

/-- Ends what is innermost. -/
def pop : Assembly :=
  match a.frames with
  | f :: frames => { a with frames }.put f.close
  | [] => a.closeBase

/-- Puts in what may not stand here, behind a scalar if there is one. -/
def putStray (s : Stray) : Assembly :=
  match a.frames with
  | .scalar .. :: _ => a.pop.put (.stray s)
  | _ => a.put (.stray s)

/-- Ends all open frames, at most `fuel` of them, and what they stand on. -/
def closeAll (a : Assembly) : (fuel : Nat) → Assembly
  | 0 => a.closeBase
  | fuel + 1 => if a.frames.isEmpty then a.closeBase else a.pop.closeAll fuel

/-- The tokens in front of the key at the end of a line, taken out of the frame or document around it. -/
def takeKeyStart (frames : List Frame) (base : Base) : List Frame × Base × List Token :=
  match frames with
  | .blockMap o i before last :: frames =>
    match last.sep with
    | some sep =>
      let (rest, key) := splitKeyStart sep
      (.blockMap o i before (last.setSep rest) :: frames, base, key)
    | none =>
      let (rest, key) := splitKeyStart last.start
      (.blockMap o i before (last.setStart rest) :: frames, base, key)
  | .blockSeq o i before last :: frames =>
    let (rest, key) := splitKeyStart last.start
    (.blockSeq o i before (last.setStart rest) :: frames, base, key)
  | [] =>
    match base with
    | .document d =>
      let (rest, key) := splitKeyStart d.start
      ([], .document { d with start := rest }, key)
    | base => ([], base, [])
  | frames => (frames, base, [])

/-- Opens a frame for a value that begins with a token, if one does. -/
def startValue? (t : Token) : Option Assembly :=
  match t.kind with
  | .reference => a.push (.ofScalar .reference t)
  | .scalar => a.push (.ofScalar .plain t)
  | .singleQuoted => a.push (.ofScalar .singleQuoted t)
  | .doubleQuoted => a.push (.ofScalar .doubleQuoted t)
  | .blockHeader => a.push (.block t.offset t.indent [.token t] [])
  | .flowMapStart | .flowSeqStart => a.push (.flow t [] [])
  | .seqItem => a.push (.blockSeq t.offset t.indent [] (.bare [t]))
  | .explicitKey =>
    let (frames, base, start) := takeKeyStart a.frames a.base
    let item := Item.mk (start ++ [t]) true none none none
    some { a with frames := .blockMap t.offset t.indent [] item :: frames
                  base
                  onKeyLine := true }
  | .mapValue =>
    let (frames, base, start) := takeKeyStart a.frames a.base
    let item := Item.mk start false none (some [t]) none
    some { a with frames := .blockMap t.offset t.indent [] item :: frames
                  base
                  onKeyLine := true }
  | _ => none

/-- The innermost value turns out to be the key of a mapping, which begins where the value does. -/
def openMapAt (key : Value) (sep : List Token) : Assembly :=
  let (frames, base, start) := takeKeyStart (a.frames.drop 1) a.base
  let item := Item.mk start false key (some sep) none
  { a with frames := .blockMap key.offset (key.indent?.getD 0) [] item :: frames
           base
           onKeyLine := true }

end Assembly

/-- What became of a token: it has its place, or is to be tried in the next frame. -/
inductive Outcome where
  | placed (a : Assembly)
  | pending (a : Assembly)

/-- A token that may not stand where it does. -/
def Token.stray (t : Token) (message : Text) : Stray := ⟨t.offset, t.source, message⟩

/-- Without `place`, a message about a token. -/
def unexpected (t : Token) (place : Text) : Stray :=
  t.stray (("Unexpected " : Text) ++ t.kind.name ++ " token in YAML " ++ place)

namespace Assembly

variable (a : Assembly) (t : Token)

/-- A token between documents. -/
def placeBetween : Assembly :=
  match t.kind with
  | .directive => a.emit (.directive t)
  | .byteOrderMark | .space | .comment | .newline => a.emit (.token t)
  | .documentMark => { a with base := .document ⟨t.offset, [], none, []⟩ }
  | .docStart => { a with base := .document ⟨t.offset, [t], none, []⟩ }
  | _ => a.emit (.stray (unexpected t "stream"))

/-- A token behind a value on its line: `add` adds it there. -/
def placeAtLineEnd (add : Token → Assembly) : Outcome :=
  match t.kind with
  | .comma | .docStart | .docEnd | .flowSeqEnd | .flowMapEnd | .mapValue => .pending a.pop
  | .newline => .placed { add t with onKeyLine := false }.pop
  | _ => .placed (add t)

/-- A token in a document outside all values. -/
def placeInDocument (d : DocumentPart) : Outcome :=
  let addStart : Assembly := { a with base := .document { d with start := d.start ++ [t] } }
  if d.value.isSome then
    a.placeAtLineEnd t fun t => { a with base := .document { d with ending := d.ending ++ [t] } }
  else
    match t.kind with
    | .docStart => if areEmpty d.start then .placed addStart else .pending a.pop
    | .anchor | .tag | .space | .comment | .newline => .placed addStart
    | _ => .placed ((a.startValue? t).getD (a.emit (.stray (unexpected t "document"))))

/-- A token behind the mark of a document's end. -/
def placeBehindEnd (mark : Token) (ending : List Token) : Assembly :=
  if t.kind = .documentMark then a
  else
    let a := { a with base := .documentEnd mark (ending ++ [t]) }
    if t.kind = .newline then a.closeBase else a

/-- A token behind a scalar. -/
def placeInScalar (style : Style) (token : Token) (ending : List Token) : Outcome :=
  if t.kind = .mapValue then
    .placed (a.openMapAt (.scalar style token.offset token.indent token.source []) (ending ++ [t]))
  else a.placeAtLineEnd t fun t => a.setTop (.scalar style token (ending ++ [t]))

/-- A token behind the indicator of a block of text. -/
def placeInBlock (offset indent : Nat) (props : List HeaderPart) (source : Text) : Outcome :=
  match t.kind with
  | .space | .comment | .newline =>
    .placed (a.setTop (.block offset indent (props ++ [.token t]) source))
  | .scalar =>
    .placed { a.setTop (.block offset indent props t.source) with atLineStart := true
                                                                  indent := 0 }.pop
  | _ => .pending a.pop

/-- A comment that is indented more than the collection, behind blank lines only. -/
def isIndentedComment (start : List Token) (indent : Nat) : Bool :=
  t.kind == .comment && decide (indent < a.indent)
    && start.all fun s => s.kind == .newline || s.kind == .space

/-- The entry before, if it has a value with an end on its line, with more tokens there. -/
def endLine? (before : List Item) (ts : List Token) : Option (List Item) :=
  match before with
  | prev :: before =>
    match prev.value with
    | some v =>
      if v.ending?.isSome then some (prev.setValue (v.addEnding ts) :: before) else none
    | none => none
  | [] => none

/-- The value of an entry has a comment behind it on its line. -/
def endsInComment (v : Value) : Bool :=
  match v.ending? with
  | some e => e.getLast?.any fun t => t.kind == .comment
  | none => false

/-- White space and comments in a mapping or a sequence in block style; `rebuild` makes the frame of
its entries, and `addInside` adds a token to an entry without a value. -/
def placeEmpty (indent : Nat) (before : List Item) (last : Item)
    (rebuild : List Item → Item → Frame) (isBehindKey : Bool) : Assembly :=
  let addInside : Item := if isBehindKey then last.addSep t else last.addStart t
  if t.kind = .newline then
    match last.value with
    | some v =>
      if endsInComment v then a.setTop (rebuild before (last.setValue (v.addEnding [t])))
      else a.setTop (rebuild (last :: before) (.bare [t]))
    | none => a.setTop (rebuild before addInside)
  else if last.value.isSome then a.setTop (rebuild (last :: before) (.bare [t]))
  else if !isBehindKey && a.isIndentedComment t last.start indent then
    match endLine? before (last.start ++ [t]) with
    | some (prev :: before) => a.setTop (rebuild before prev)
    | _ => a.setTop (rebuild before addInside)
  else a.setTop (rebuild before addInside)

/-- What follows the second line break behind a key without a value belongs to the next entry, up to
a token that is neither white space nor a comment at the mapping's own indentation. -/
def splitNextStart (indent : Nat) (sep : List Token) : List Token × List Token :=
  let breaks := sep.zipIdx.foldl (fun (nl : List Nat) (ti : Token × Nat) =>
    match ti.1.kind with
    | .newline => nl ++ [ti.2]
    | .space => nl
    | .comment => if indent < ti.1.indent then [] else nl
    | _ => []) []
  match breaks with
  | _ :: second :: _ => (sep.take second, sep.drop second)
  | _ => (sep, [])

/-- The frame of a mapping whose only entry has no key. -/
def keylessMap (start : List Token) : Frame :=
  .blockMap t.offset t.indent [] (.mk start false none (some [t]) none)

/-- A colon in a mapping in block style. -/
def placeColon (offset indent : Nat) (before : List Item) (last : Item) (atNext : Bool)
    (start : List Token) : Assembly :=
  let setLast (i : Item) : Assembly := a.setTop (.blockMap offset indent before i)
  let addItem (start : List Token) : Assembly :=
    a.setTop (.blockMap offset indent (last :: before) (.mk start false none (some [t]) none))
  let result : Assembly :=
    match last.sep with
    | none =>
      if last.isExplicit && !hasKind last.start .newline then
        let (rest, key) := splitKeyStart last.start
        (setLast (last.setStart rest)).push (keylessMap t key)
      else setLast (last.setKey none [t])
    | some sep =>
      if last.isExplicit then
        if last.value.isSome then addItem []
        else if hasKind sep .mapValue then (setLast last).push (keylessMap t start)
        else
          match last.key with
          | some key =>
            if key.isFlow && !hasKind sep .newline then
              let (rest, first) := splitKeyStart last.start
              (setLast (.mk rest true none none none)).push
                (.blockMap t.offset t.indent [] (.mk first false key (some (sep ++ [t])) none))
            else setLast (last.setSep (sep ++ start ++ [t]))
          | none => setLast (last.setSep (sep ++ start ++ [t]))
      else if last.value.isSome || atNext then addItem start
      else if hasKind sep .mapValue then (setLast last).push (keylessMap t [])
      else setLast (last.addSep t)
  { result with onKeyLine := true }

/-- A token in a mapping in block style. -/
def placeInBlockMap (offset indent : Nat) (before : List Item) (last : Item) : Outcome :=
  if t.kind = .newline then
    .placed { a.placeEmpty t indent before last (.blockMap offset indent) last.sep.isSome with
      onKeyLine := false }
  else if t.kind.isEmpty then
    .placed (a.placeEmpty t indent before last (.blockMap offset indent) last.sep.isSome)
  else if a.indent < indent then .pending a.pop
  else
    let atMapIndent := !a.onKeyLine && a.indent = indent
    let atNext := atMapIndent && (last.sep.isSome || last.isExplicit) && t.kind != .seqItem
    let (last, start) :=
      match last.sep with
      | some sep =>
        if atNext && last.value.isNone then
          let (sep, start) := splitNextStart indent sep
          (last.setSep sep, start)
        else (last, [])
      | none => (last, [])
    let setLast (i : Item) : Assembly := a.setTop (.blockMap offset indent before i)
    let addItem (i : Item) : Assembly := a.setTop (.blockMap offset indent (last :: before) i)
    let isNew := atNext || last.value.isSome
    match t.kind with
    | .anchor | .tag =>
      if isNew then .placed { addItem (.bare (start ++ [t])) with onKeyLine := true }
      else if last.sep.isSome then .placed (setLast (last.addSep t))
      else .placed (setLast (last.addStart t))
    | .explicitKey =>
      let a : Assembly :=
        if last.sep.isNone && !last.isExplicit then
          setLast (.mk (last.start ++ [t]) true last.key none last.value)
        else if isNew then addItem (.mk (start ++ [t]) true none none none)
        else (setLast last).push (.blockMap t.offset t.indent [] (.mk [t] true none none none))
      .placed { a with onKeyLine := true }
    | .mapValue => .placed (a.placeColon t offset indent before last atNext start)
    | kind =>
      match kind.style? with
      | some style =>
        if isNew then
          .placed { addItem (.mk start false (some (.scalar style t.offset t.indent t.source []))
            (some []) none) with onKeyLine := true }
        else if last.sep.isSome then .placed ((setLast last).push (.ofScalar style t))
        else
          .placed { setLast (last.setKey (some (.scalar style t.offset t.indent t.source [])) [])
            with onKeyLine := true }
      | none =>
        let isSameLine := !last.isExplicit && last.sep.any fun sep => !hasKind sep .newline
        if kind = .seqItem && isSameLine then
          .placed ((setLast last).putStray
            (t.stray "Unexpected block-seq-ind on same line with key"))
        else
          let a := if kind != .seqItem && atMapIndent then addItem (.bare start) else setLast last
          match a.startValue? t with
          | some a => .placed a
          | none => .pending (setLast last).pop

/-- A token in a sequence in block style. -/
def placeInBlockSeq (offset indent : Nat) (before : List Item) (last : Item) : Outcome :=
  let elsewhere : Outcome :=
    if indent < a.indent then
      match a.startValue? t with
      | some a => .placed a
      | none => .pending a.pop
    else .pending a.pop
  match t.kind with
  | .newline | .space | .comment =>
    .placed (a.placeEmpty t indent before last (.blockSeq offset indent) false)
  | .anchor | .tag =>
    if last.value.isSome || a.indent ≤ indent then elsewhere
    else .placed (a.setTop (.blockSeq offset indent before (last.addStart t)))
  | .seqItem =>
    if a.indent ≠ indent then elsewhere
    else if last.value.isSome || hasKind last.start .seqItem then
      .placed (a.setTop (.blockSeq offset indent (last :: before) (.bare [t])))
    else .placed (a.setTop (.blockSeq offset indent before (last.addStart t)))
  | _ => elsewhere

/-- A token behind the end of a flow collection. -/
def placeBehindFlow (start : Token) (items : List Item) (ending : List Token) : Outcome :=
  let around := a.frames.drop 1
  let endsInMap : Bool :=
    match around with
    | .blockMap _ i _ last :: _ =>
      (t.kind == .mapValue && i = start.indent) || (t.kind == .newline && last.sep.isNone)
    | _ => false
  let isInFlow : Bool :=
    match around with
    | .flow .. :: _ => true
    | _ => false
  if endsInMap then .pending a.pop
  else if t.kind = .mapValue ∧ !isInFlow then
    .placed (a.openMapAt (Frame.close (.flow start items (ending.take 1))) (ending.drop 1 ++ [t]))
  else a.placeAtLineEnd t fun t => a.setTop (.flow start items (ending ++ [t]))

/-- Ends all flow collections that are innermost, at most `fuel` of them. -/
def popFlows (a : Assembly) : (fuel : Nat) → Assembly
  | 0 => a
  | fuel + 1 =>
    match a.frames with
    | .flow .. :: _ => a.pop.popFlows fuel
    | _ => a

/-- A token in a flow collection. -/
def placeInFlow (start : Token) (items : List Item) (ending : List Token) : Outcome :=
  let setItems (items : List Item) : Outcome := .placed (a.setTop (.flow start items ending))
  let keyed (key : Option Value) (sep : List Token) : Item := .mk [] false key (some sep) none
  if t.kind = .flowErrorEnd then .placed (a.popFlows a.frames.length)
  else if !ending.isEmpty then a.placeBehindFlow t start items ending
  else
    match t.kind with
    | .comma | .explicitKey =>
      match items with
      | last :: before =>
        if last.sep.isSome then setItems (.bare [t] :: items)
        else setItems (last.addStart t :: before)
      | [] => setItems [.bare [t]]
    | .mapValue =>
      match items with
      | last :: before =>
        if last.value.isSome then setItems (keyed none [t] :: items)
        else if last.sep.isSome then setItems (last.addSep t :: before)
        else setItems (last.setKey none [t] :: before)
      | [] => setItems [keyed none [t]]
    | .space | .comment | .newline | .anchor | .tag =>
      match items with
      | last :: before =>
        if last.value.isSome then setItems (.bare [t] :: items)
        else if last.sep.isSome then setItems (last.addSep t :: before)
        else setItems (last.addStart t :: before)
      | [] => setItems [.bare [t]]
    | .flowMapEnd | .flowSeqEnd => .placed (a.setTop (.flow start items [t]))
    | kind =>
      match kind.style? with
      | some style =>
        let v : Value := .scalar style t.offset t.indent t.source []
        match items with
        | last :: before =>
          if last.value.isSome then setItems (keyed v [] :: items)
          else if last.sep.isSome then .placed (a.push (.ofScalar style t))
          else setItems (last.setKey v [] :: before)
        | [] => setItems [keyed v []]
      | none =>
        match a.startValue? t with
        | some a => .placed a
        | none => .pending a.pop

/-- Tries a token in what is innermost. -/
def tryPlace : Outcome :=
  match a.frames with
  | .scalar style token e :: _ => a.placeInScalar t style token e
  | .block o i props source :: _ => a.placeInBlock t o i props source
  | .blockMap o i before last :: _ => a.placeInBlockMap t o i before last
  | .blockSeq o i before last :: _ => a.placeInBlockSeq t o i before last
  | .flow start items e :: _ => a.placeInFlow t start items e
  | [] =>
    match a.base with
    | .between => .placed (a.placeBetween t)
    | .document d => a.placeInDocument t d
    | .documentEnd mark e => .placed (a.placeBehindEnd t mark e)

/-- The mark of a document's end stands open. -/
def isBehindEnd : Bool :=
  match a.frames, a.base with
  | [], .documentEnd .. => true
  | _, _ => false

/-- Finds the place of a token, with at most `fuel` tries. -/
def place (a : Assembly) (t : Token) : (fuel : Nat) → Assembly
  | 0 => a
  | fuel + 1 =>
    if t.kind = .docEnd ∧ !a.isBehindEnd then
      { a.closeAll a.frames.length with base := .documentEnd t [] }
    else
      match a.tryPlace t with
      | .placed a => a
      | .pending a => a.place t fuel

/-- Places a token that begins here. -/
def placeHere (kind : Kind) (source : Text) : Assembly :=
  a.place ⟨kind, a.offset, a.indent, source⟩ (a.frames.length + 2)

/-- Goes on behind a text. -/
def advance (source : Text) : Assembly := { a with offset := a.offset + source.length }

/-- Reads a lexeme that is no scalar. -/
def readToken (kind : Kind) (source : Text) : Assembly :=
  let a := a.placeHere kind source
  match kind with
  | .newline => { a with atLineStart := true, indent := 0 }.advance source
  | .space =>
    if a.atLineStart && source.head? = some (CodeUnit.ofBasic ' ') then
      { a with indent := a.indent + source.length }.advance source
    else a.advance source
  | .explicitKey | .mapValue | .seqItem =>
    if a.atLineStart then { a with indent := a.indent + source.length }.advance source
    else a.advance source
  | _ => { a with atLineStart := false }.advance source

/-- Reads a lexeme.  A mark takes up no text, unless it stands where the text of a scalar is due. -/
def read (l : Lexeme) : Assembly :=
  if a.atScalar then ({ a with atScalar := false }.placeHere .scalar l.source).advance l.source
  else
    match kindOf? l.source with
    | some .scalar => { a with atLineStart := false, atScalar := true }
    | some .documentMark => a.placeHere .documentMark l.source
    | some .flowErrorEnd => a.placeHere .flowErrorEnd l.source
    | some kind => a.readToken kind l.source
    | none =>
      (a.putStray ⟨a.offset, l.source, ("Not a YAML token: " : Text) ++ l.source⟩).advance l.source

end Assembly

/-- The parts of a stream. -/
def parts (t : Text) : List Part :=
  let a := (lexemes t).foldl Assembly.read .empty
  (a.closeAll a.frames.length).reversed.reverse

end Yaml
end Scopewright
