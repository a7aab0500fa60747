import Scopewright.Number.Shortest
import Scopewright.Number.Total
import Scopewright.Yaml.BlockText
import Scopewright.Yaml.Directive
import Scopewright.Yaml.Property

/-! # Nodes

The values of a document as data with places (`Yaml.Node`).  A node is made from a concrete value
and what stands before it (`Yaml.makeNode`); what the grammar does not allow there is
reported, and the node is made nevertheless.

An entry without a value, and an item without content, have an empty scalar
(`Yaml.emptyNode`), which is placed behind the last token that is not white space. -/

namespace Scopewright
namespace Yaml

/-- Where a node begins, where its value ends, and where what belongs to it ends. -/
structure Extent where
  start : Nat
  valueStop : Nat
  stop : Nat
deriving DecidableEq, Repr, Inhabited

namespace Extent

/-- The place of the value. -/
def span (e : Extent) : Span := ⟨e.start, e.valueStop⟩

/-- An empty place. -/
def empty (offset : Nat) : Extent := ⟨offset, offset, offset⟩

end Extent

/-- A node of a document. -/
inductive Node where
  /-- A scalar; `isBare` when neither comment nor tag belongs to it. -/
  | scalar (extent : Extent) (value : Datum) (isBare : Bool)
  | reference (extent : Extent)
  | map (extent : Extent) (pairs : List (Node × Option Node))
  | seq (extent : Extent) (items : List Node)
  /-- A sequence of pairs. -/
  | pairs (extent : Extent)
deriving Inhabited

namespace Node

/-- The extent of a node. -/
def extent : Node → Extent
  | scalar e .. => e
  | reference e => e
  | map e _ => e
  | seq e _ => e
  | pairs e => e

/-- A comment belongs to the node. -/
def withComment : Node → Node
  | scalar e v _ => scalar e v false
  | n => n

/-- The node counts as no value. -/
def isNullValue : Node → Bool
  | scalar _ (.plain .null) isBare => isBare
  | _ => false

end Node

namespace Datum

/-- How a value is shown as text. -/
def toText : Datum → Text
  | plain (.string t) => t
  | plain (.number x) => Number.render x
  | plain (.bool b) => if b then "true" else "false"
  | plain .null => "null"
  | other t => t

/-- The same value; what is not a number equals itself, and values of other types equal none. -/
def isSame : Datum → Datum → Bool
  | plain (.string a), plain (.string b) => decide (a = b)
  | plain (.number a), plain (.number b) => a == b || (a.isNaN && b.isNaN)
  | plain (.bool a), plain (.bool b) => a == b
  | plain .null, plain .null => true
  | _, _ => false

end Datum

/-! ### Scalars -/

/-- The name of the tag before a value. -/
def readTag (ds : Directives) (tag : Option Token) : Report (Option Text) :=
  match tag with
  | some t => ds.tagName t
  | none => pure none

/-- The value of a scalar: by the name of its tag, or by its form if it is plain. -/
def readScalar (ds : Directives) (isPlain isKey : Bool) (tag : Option Token) (name : Option Text)
    (t : Text) : Report Datum := do
  match name with
  | some name =>
    if name = "!" then return .plain (.string t)
    let (datum, problem) := ds.version.readTagged name t
    match tag, problem with
    | some tag, some message => Report.atToken tag message
    | _, _ => pure ()
    return datum
  | none => return if isPlain then ds.version.readPlain isKey t else .plain (.string t)

/-- Reports an anchor without a name. -/
def checkAnchor (anchor : Option Token) : Report Unit :=
  match anchor with
  | some t => if t.source.length ≤ 1 then Report.atToken t "Anchor cannot be an empty string"
              else pure ()
  | none => pure ()

/-- Where an empty scalar stands: behind the last of the tokens in front that is no white space, and
the spaces that follow it. -/
def emptyOffset (offset : Nat) (before : List Token) : Nat :=
  let trailing := (before.reverse.takeWhile fun t => t.kind.isEmpty).reverse
  let size (ts : List Token) : Nat := Number.total (ts.map fun t => t.source.length)
  if trailing.length = before.length then offset - size trailing
  else offset - size trailing + size (trailing.takeWhile fun t => t.kind == .space)

/-- A scalar without text at the given offset. -/
def emptyNode (ds : Directives) (offset : Nat) (props : Props) : Report Node := do
  let tag ← readTag ds props.tag
  let datum ← readScalar ds true false props.tag tag []
  checkAnchor props.anchor
  let stop := if props.comment.isEmpty then offset else props.stop
  return .scalar ⟨offset, offset, stop⟩ datum (tag.isNone && props.comment.isEmpty)

/-- The node of a scalar on a line. -/
def lineNode (ds : Directives) (isKey : Bool) (props : Props) (style : Style) (offset : Nat)
    (source : Text) (ending : List Token) : Report Node := do
  let stop := offset + source.length
  match style with
  | .reference =>
    if source.length ≤ 1 then Report.at' offset "Alias cannot be an empty string"
    let e ← readEnding true stop ending
    if props.anchor.isSome ∨ props.tag.isSome then
      Report.add ⟨offset, stop⟩ "An alias node must not specify any properties"
    return .reference ⟨offset, stop, e.stop⟩
  | style =>
    let text ← match style with
      | .singleQuoted => singleQuoted offset source
      | .doubleQuoted => doubleQuoted offset source
      | _ => plainValue offset source
    let e ← readEnding true stop ending
    let tag ← readTag ds props.tag
    let datum ← readScalar ds (style = .plain) isKey props.tag tag text
    checkAnchor props.anchor
    return .scalar ⟨offset, stop, e.stop⟩ datum
      (tag.isNone && !e.hasComment && props.comment.isEmpty)

/-- The node of a block of text. -/
def blockNode (ds : Directives) (atRoot : Bool) (props : Props) (offset indent : Nat)
    (header : List HeaderPart) (source : Text) : Report Node := do
  let h ← BlockText.readHeader offset header
  let text ← BlockText.value h atRoot indent (offset + h.length) source
  let tag ← readTag ds props.tag
  let datum ← readScalar ds false false props.tag tag text
  let stop := offset + h.length + source.length
  checkAnchor props.anchor
  return .scalar ⟨offset, stop, stop⟩ datum false

/-! ### Collections with a tag -/

/-- The keys of items that are read as pairs. -/
def pairKey : Node → Node
  | .map _ ((key, _) :: _) => key
  | .map _ [] => .scalar (.empty 0) (.plain .null) true
  | n => n

/-- Reports keys that come again. -/
def checkDistinct (tag : Token) (seen : List Datum) : List Node → Report Unit
  | [] => pure ()
  | .scalar _ d _ :: ns => do
    if seen.any d.isSame then
      Report.atToken tag (("Ordered maps must not include duplicate keys: " : Text) ++ d.toText)
      checkDistinct tag seen ns
    else checkDistinct tag (seen ++ [d]) ns
  | _ :: ns => checkDistinct tag seen ns

/-- Reads a collection as its tag says. -/
def applyTag (tag : Option Token) (name : Option Text) (n : Node) : Report Node := do
  match tag, name with
  | some t, some name =>
    if !coreTag.isPrefixOf name then return n
    let kind := name.drop coreTag.length
    match n with
    | .map _ ps =>
      if kind = "set" then
        if !ps.all fun p => p.2.all Node.isNullValue then
          Report.atToken t "Set items must all have null values"
      return n
    | .seq e ns =>
      if kind = "omap" ∨ kind = "pairs" then
        for item in ns do
          match item with
          | .map _ (_ :: _ :: _) =>
            Report.atToken t "Each pair must have its own sequence indicator"
          | _ => pure ()
        if kind = "omap" then checkDistinct t [] (ns.map pairKey)
        return .pairs e
      else return n
    | n => return n
  | _, _ => return n

/-- Reports properties on the line of the first item of a sequence. -/
def checkSeqProps (props : Props) : Report Unit :=
  let last : Option Token :=
    match props.anchor, props.tag with
    | some a, some t => if t.offset < a.offset then some a else some t
    | a, t => a.or t
  match last with
  | some p =>
    if props.newlineAfterProp.any fun nl => !decide (nl.offset < p.offset) then pure ()
    else Report.atToken p "Missing newline after block sequence props"
  | none => pure ()

/-! ### Line breaks in keys -/

mutual

/-- There is a line break in a value; a collection in block style has one always. -/
def Value.hasBreak : Value → Bool
  | .scalar _ _ _ source ending => Text.contains source '\n' || hasKind ending .newline
  | .flow _ _ items _ => itemsHaveBreak items
  | _ => true

/-- There is a line break in the items of a flow collection. -/
def itemsHaveBreak : List Item → Bool
  | [] => false
  | .mk start _ key sep value :: items =>
    hasKind start .newline || sep.any (hasKind · .newline)
      || (match key with
          | some v => v.hasBreak
          | none => false)
      || (match value with
          | some v => v.hasBreak
          | none => false)
      || itemsHaveBreak items

end

/-! ### Collections -/

/-- What follows the tokens in front of a key. -/
def keyNext (key : Option Value) (sep : Option (List Token)) : Option Next :=
  match key with
  | some v => some (.ofValue v)
  | none => (sep.bind List.head?).map .ofToken

/-- All entries of a mapping begin in one column. -/
def columnMessage : Text := "All mapping items must start at the same column"

/-- Reports a key without its indicator that may not be one. -/
def checkImplicitKey (indent offset : Nat) (key : Option Value) : Report Unit :=
  match key with
  | some v =>
    if v.isBlockSeq then
      Report.at' offset "A block sequence may not be used as an implicit map key"
    else if v.indent?.any (· ≠ indent) then Report.at' offset columnMessage
    else pure ()
  | none => pure ()

/-- A collection in block style that is being read. -/
structure BlockState where
  offset : Nat
  commentStop : Option Nat
  pairs : List (Node × Option Node)
  items : List Node

/-- The extent of a collection in block style. -/
def BlockState.extent (s : BlockState) (start : Nat) : Extent :=
  ⟨start, s.offset, s.commentStop.getD s.offset⟩

/-- Reports entries behind a comment that seemed to end the mapping. -/
def BlockState.checkComment (s : BlockState) : Report Unit :=
  match s.commentStop with
  | some c =>
    if 0 < c ∧ c < s.offset then Report.at' c "Map comment with trailing content" else pure ()
  | none => pure ()

/-- A flow collection that is being read. -/
structure FlowState where
  index : Nat
  offset : Nat
  pairs : List (Node × Option Node)
  items : List Node

/-- A comment belongs to the value of the last pair. -/
def FlowState.commentLast (s : FlowState) : FlowState :=
  match s.pairs with
  | (k, some v) :: ps => { s with pairs := (k, some v.withComment) :: ps }
  | _ => s

/-- The comment behind the comma in front of an item, which belongs to the item before. -/
def trailingComment (start : List Token) : Text :=
  match start.dropWhile fun t => t.kind == .comma || t.kind == .space with
  | t :: _ => if t.kind = .comment then t.source.drop 1 else []
  | [] => []

/-- Reports what is wrong with the commas in front of an item. -/
def FlowState.checkComma (s : FlowState) (name : Text) (props : Props) : Report Unit := do
  if s.index = 0 then
    match props.comma with
    | some t => Report.atToken t (("Unexpected , in " : Text) ++ name)
    | none => pure ()
  else if props.comma.isNone then
    Report.at' props.start (("Missing , between " : Text) ++ name ++ (" items" : Text))

/-- Gives the item before its comment. -/
def FlowState.passComment (s : FlowState) (start : List Token) (props : Props) :
    FlowState × Props :=
  let comment := trailingComment start
  if s.index = 0 ∨ props.comment.isEmpty ∨ comment.isEmpty then (s, props)
  else (s.commentLast, { props with comment := props.comment.drop (comment.length + 1) })

/-- Reports a collection in block style inside a flow collection. -/
def checkBlockInFlow (v : Value) (n : Node) : Report Unit :=
  if v.isBlockCollection then
    Report.add n.extent.span "Block collections are not allowed within flow collections"
  else pure ()

/-- Keys of pairs in flow sequences stay on their line. -/
def flowKeyMessage : Text :=
  "Implicit keys of flow sequence pairs need to be on a single line"

/-- Reports a colon that is too far behind its key, or on another line. -/
def checkPairColon (start : Nat) (sep : List Token) (colon : Token) : Report Unit := do
  match (sep.takeWhile fun t => decide (t.offset < colon.offset)).find? fun t =>
      t.kind == .newline with
  | some nl => Report.atToken nl flowKeyMessage
  | none => pure ()
  if start + 1024 < colon.offset then
    Report.atToken colon
      ("The : indicator must be at most 1024 chars after the start of an implicit flow " ++
        "sequence key" : String)

/-- Reports a value of a flow collection without a colon before it. -/
def checkNoColon (name : Text) (v : Value) (props : Props) : Report Unit :=
  let source : Text :=
    match v with
    | .scalar _ _ _ source _ => source
    | .block _ _ _ source => source
    | .stray s => s.source
    | _ => []
  if source.head? = some (CodeUnit.ofBasic ':') then
    Report.add v.errorSpan (("Missing space after : in " : Text) ++ name)
  else Report.at' props.start (("Missing , or : between " : Text) ++ name ++ (" items" : Text))

/-- Reads the end of a flow collection whose items end at `offset`. -/
def readFlowEnd (isMap atRoot : Bool) (offset : Nat) (ending : List Token) :
    Report (Nat × Nat) := do
  let expected : Text := if isMap then "\x7d" else "]"
  let name : Text := if isMap then "Flow map" else "Flow sequence"
  let stop ← match ending.head? with
    | some t => if t.source = expected then pure (some t.stop) else pure none
    | none => pure none
  match stop with
  | some stop => do
    let e ← readEnding true stop (ending.drop 1)
    return (stop, e.stop)
  | none => do
    let problem : Text :=
      if atRoot then name ++ (" must end with a " : Text) ++ expected
      else name ++ (" in block collection must be sufficiently indented and end with a " : Text)
        ++ expected
    Report.at' offset problem
    let e ← readEnding true offset (ending.drop 1)
    return (offset, e.stop)

mutual

/-- The node of a value. -/
def makeNode (ds : Directives) (atRoot isKey : Bool) (props : Props) (v : Value) : Report Node :=
  match v with
  | .scalar style offset _ source ending => lineNode ds isKey props style offset source ending
  | .block offset indent header source => blockNode ds atRoot props offset indent header source
  | .stray s => do
    Report.add ⟨s.offset, s.offset + s.source.length⟩ s.message
    let n ← emptyNode ds s.offset props
    checkAnchor props.anchor
    return n
  | .blockMap offset indent items => do
    let tag ← readTag ds props.tag
    let s ← makePairs ds indent ⟨offset, none, [], []⟩ items
    s.checkComment
    let n ← applyTag props.tag tag (.map (s.extent offset) s.pairs.reverse)
    checkAnchor props.anchor
    return n
  | .blockSeq offset indent items => do
    let tag ← readTag ds props.tag
    checkSeqProps props
    let s ← makeItems ds indent ⟨offset, none, [], []⟩ items
    let n ← applyTag props.tag tag (.seq (s.extent offset) s.items.reverse)
    checkAnchor props.anchor
    return n
  | .flow start indent items ending => do
    let tag ← readTag ds props.tag
    let isMap := start.kind == .flowMapStart
    let s ← makeFlow ds isMap indent items.length ⟨0, start.stop, [], []⟩ items
    let (valueStop, stop) ← readFlowEnd isMap atRoot s.offset ending
    let extent : Extent := ⟨start.offset, valueStop, stop⟩
    let n ← applyTag props.tag tag
      (if isMap then .map extent s.pairs.reverse else .seq extent s.items.reverse)
    checkAnchor props.anchor
    return n

/-- The entries of a mapping in block style. -/
def makePairs (ds : Directives) (indent : Nat) (s : BlockState) (items : List Item) :
    Report BlockState :=
  match items with
  | [] => pure s
  | .mk start _ key sep value :: items => do
    let props ← Props.read
      ⟨none, .explicitKey, keyNext key sep, s.offset, indent, true⟩ start
    let isImplicit := props.found.isNone
    if isImplicit then checkImplicitKey indent s.offset key
    if isImplicit && props.anchor.isNone && props.tag.isNone && sep.isNone then
      makePairs ds indent { s with commentStop := some props.stop } items
    else
      if isImplicit then
        let isBroken : Bool := match key with
          | some v => v.hasBreak
          | none => false
        if props.newlineAfterProp.isSome || isBroken then
          let span : Span := match key with
            | some v => v.errorSpan
            | none => (start.getLast?.map Token.span).getD default
          Report.add span "Implicit keys need to be on a single line"
      else if props.found.any fun t => decide (t.indent ≠ indent) then
        Report.at' s.offset columnMessage
      let keyNode ← match key with
        | some v => makeNode ds false true props v
        | none => emptyNode ds (emptyOffset props.stop start) props
      let startOnNewline := match key with
        | some v => v.isBlockText
        | none => true
      let valueProps ← Props.read
        ⟨none, .mapValue, value.map .ofValue, keyNode.extent.stop, indent, startOnNewline⟩
        (sep.getD [])
      match valueProps.found with
      | some colon =>
        if isImplicit then
          if value.any Value.isBlockMap ∧ !valueProps.hasNewline then
            Report.at' valueProps.stop "Nested mappings are not allowed in compact mappings"
          if props.start + 1024 < colon.offset then
            Report.add keyNode.extent.span
              ("The : indicator must be at most 1024 chars after the start of an implicit block " ++
                "mapping key" : String)
        let valueNode ← match value with
          | some v => makeNode ds false false valueProps v
          | none => emptyNode ds (emptyOffset valueProps.stop (sep.getD [])) valueProps
        makePairs ds indent
          { s with offset := valueNode.extent.stop
                   pairs := (keyNode, some valueNode) :: s.pairs } items
      | none =>
        if isImplicit then
          Report.add keyNode.extent.span "Implicit map keys need to be followed by map values"
        makePairs ds indent
          { s with offset := valueProps.stop, pairs := (keyNode, none) :: s.pairs } items

/-- The items of a sequence in block style. -/
def makeItems (ds : Directives) (indent : Nat) (s : BlockState) (items : List Item) :
    Report BlockState :=
  match items with
  | [] => pure s
  | .mk start _ _ _ value :: items => do
    let props ← Props.read
      ⟨none, .seqItem, value.map .ofValue, s.offset, indent, true⟩ start
    let isMissing := props.found.isNone
    if isMissing && props.anchor.isNone && props.tag.isNone && value.isNone then
      makeItems ds indent { s with commentStop := some props.stop } items
    else
      if isMissing then
        if value.any Value.isBlockSeq then
          Report.at' props.stop "All sequence items must start at the same column"
        else Report.at' s.offset "Sequence item without - indicator"
      let n ← match value with
        | some v => makeNode ds false false props v
        | none => emptyNode ds (emptyOffset props.stop start) props
      makeItems ds indent { s with offset := n.extent.stop, items := n :: s.items } items

/-- The items of a flow collection, `count` of them in all. -/
def makeFlow (ds : Directives) (isMap : Bool) (indent count : Nat) (s : FlowState)
    (items : List Item) : Report FlowState :=
  match items with
  | [] => pure s
  | .mk start _ key sep value :: items => do
    let name : Text := if isMap then "flow map" else "flow sequence"
    let props ← Props.read
      ⟨some name, .explicitKey, keyNext key sep, s.offset, indent, false⟩ start
    let isImplicit := props.found.isNone
    if isImplicit && props.anchor.isNone && props.tag.isNone && sep.isNone && value.isNone then
      match props.comma with
      | some t =>
        if s.index = 0 then Report.atToken t (("Unexpected , in " : Text) ++ name)
        else if s.index + 1 < count then
          Report.at' props.start (("Unexpected empty item in " : Text) ++ name)
      | none =>
        if s.index + 1 < count then
          Report.at' props.start (("Unexpected empty item in " : Text) ++ name)
      makeFlow ds isMap indent count { s with index := s.index + 1, offset := props.stop } items
    else
      if isImplicit && !isMap then
        match key with
        | some v => if v.hasBreak then Report.add v.errorSpan flowKeyMessage
        | none => pure ()
      s.checkComma name props
      let (s, props) := s.passComment start props
      if !isMap && sep.isNone && isImplicit then
        let n ← match value with
          | some v => makeNode ds false false props v
          | none => emptyNode ds props.stop props
        match value with
        | some v => checkBlockInFlow v n
        | none => pure ()
        makeFlow ds isMap indent count
          { s with index := s.index + 1, offset := n.extent.stop, items := n :: s.items } items
      else
        let keyNode ← match key with
          | some v => makeNode ds false true props v
          | none => emptyNode ds (emptyOffset props.stop start) props
        match key with
        | some v => checkBlockInFlow v keyNode
        | none => pure ()
        let valueProps ← Props.read
          ⟨some name, .mapValue, value.map .ofValue, keyNode.extent.stop, indent, false⟩
          (sep.getD [])
        match valueProps.found, value with
        | some colon, _ =>
          if !isMap && isImplicit then checkPairColon props.start (sep.getD []) colon
        | none, some v => checkNoColon name v valueProps
        | none, none => pure ()
        let valueNode ← match value with
          | some v => do
            let n ← makeNode ds false false valueProps v
            checkBlockInFlow v n
            pure (some n)
          | none =>
            if valueProps.found.isSome then
              some <$> emptyNode ds (emptyOffset valueProps.stop (sep.getD [])) valueProps
            else pure none
        let offset := (valueNode.map fun n => n.extent.stop).getD valueProps.stop
        let s := { s with index := s.index + 1, offset }
        if isMap then
          makeFlow ds isMap indent count { s with pairs := (keyNode, valueNode) :: s.pairs } items
        else
          let last := (valueNode.getD keyNode).extent
          let pair := Node.map ⟨keyNode.extent.start, last.valueStop, last.stop⟩
            [(keyNode, valueNode)]
          makeFlow ds isMap indent count { s with items := pair :: s.items } items

end

end Yaml
end Scopewright
