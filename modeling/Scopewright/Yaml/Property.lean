import Scopewright.Yaml.Quoted

/-! # What stands before a value

In front of a key, an item or a value stand white space, comments, an indicator, an anchor and a
tag (`Yaml.Props`).  `Props.read` reads them and reports what is out of order. -/

namespace Scopewright
namespace Yaml

/-- What follows the tokens in front of a value. -/
structure Next where
  offset : Nat
  isBlockCollection : Bool
  isFlowCollection : Bool
  /-- White space, a comma, or a scalar without text, which needs no space before it. -/
  isApart : Bool

namespace Next

/-- A value that follows. -/
def ofValue (v : Value) : Next :=
  let isApart : Bool :=
    match v with
    | .scalar .plain _ _ source _ => source.isEmpty
    | _ => false
  ⟨v.offset, v.isBlockCollection, v.isFlowCollection, isApart⟩

/-- A token that follows. -/
def ofToken (t : Token) : Next :=
  ⟨t.offset, false, false,
    match t.kind with
    | .space | .newline | .comma => true
    | .scalar => t.source.isEmpty
    | _ => false⟩

end Next

/-- What is known before the tokens are read. -/
structure PropsContext where
  /-- The name of the flow collection around, if there is one. -/
  flow : Option Text
  indicator : Kind
  next : Option Next
  offset : Nat
  parentIndent : Nat
  startOnNewline : Bool

/-- What stands before a value. -/
structure Props where
  comma : Option Token
  found : Option Token
  comment : Text
  hasNewline : Bool
  anchor : Option Token
  tag : Option Token
  newlineAfterProp : Option Token
  stop : Nat
  start : Nat

/-- How far the tokens have been read. -/
structure PropsState where
  props : Props
  firstProp : Option Nat
  atNewline : Bool
  hasSpace : Bool
  commentSep : Text
  needsSpace : Bool
  tab : Option Token

/-- Tabs may not indent. -/
def tabMessage : Text := "Tabs are not allowed as indentation"

/-- The message for a property that runs into what follows it. -/
def tightMessage : Text :=
  "Tags and anchors must be separated from the next token by white space"

namespace PropsState

/-- Nothing read. -/
def init (c : PropsContext) : PropsState :=
  ⟨⟨none, none, [], false, none, none, none, c.offset, c.offset⟩, none, c.startOnNewline,
    c.startOnNewline, [], false, none⟩

variable (s : PropsState)

/-- Goes on behind a token that is no white space. -/
def settle (atNewline : Bool) : PropsState := { s with atNewline, hasSpace := false }

/-- Goes on behind an anchor or a tag. -/
def property (t : Token) : PropsState :=
  { s with firstProp := s.firstProp.or (some t.offset)
           atNewline := false
           hasSpace := false
           needsSpace := true }

/-- Reports what a token shows about the tokens before it. -/
def look (t : Token) : Report PropsState := do
  if s.needsSpace ∧ ¬(t.kind = .space ∨ t.kind = .newline ∨ t.kind = .comma) then
    Report.at' t.offset tightMessage
  match s.tab with
  | some tab =>
    if s.atNewline ∧ t.kind ≠ .comment ∧ t.kind ≠ .newline then Report.atToken tab tabMessage
  | none => pure ()
  return { s with needsSpace := false, tab := none }

/-- Reads a comment. -/
def comment (t : Token) : Report PropsState := do
  if !s.hasSpace then
    Report.atToken t "Comments must be separated from other tokens by white space characters"
  let body := if t.source.length ≤ 1 then [CodeUnit.ofBasic ' '] else t.source.drop 1
  let text := if s.props.comment.isEmpty then body else s.props.comment ++ s.commentSep ++ body
  return { s with props := { s.props with comment := text }, commentSep := [], atNewline := false }

/-- Reads a line break. -/
def newline (t : Token) : PropsState :=
  let after := if s.firstProp.isSome then some t else s.props.newlineAfterProp
  let props := { s.props with hasNewline := true, newlineAfterProp := after }
  if s.atNewline then
    let comment := if props.comment.isEmpty then [] else props.comment ++ t.source
    { s with props := { props with comment }, atNewline := true, hasSpace := true }
  else
    { s with props, commentSep := s.commentSep ++ t.source, atNewline := true, hasSpace := true }

/-- Reads the indicator. -/
def indicator (c : PropsContext) (t : Token) : Report PropsState := do
  if s.firstProp.isSome then
    Report.atToken t
      (("Anchors and tags must be after the " : Text) ++ t.source ++ (" indicator" : Text))
  if s.props.found.isSome then
    Report.atToken t
      (("Unexpected " : Text) ++ t.source ++ (" in " : Text) ++ c.flow.getD "collection")
  let atNewline : Bool :=
    decide (c.indicator = .seqItem) || decide (c.indicator = .explicitKey)
  return { s with props := { s.props with found := t } }.settle atNewline

/-- Reads a token. -/
def read (c : PropsContext) (s : PropsState) (t : Token) : Report PropsState := do
  let s ← s.look t
  let unexpected : Report PropsState := do
    Report.atToken t (("Unexpected " : Text) ++ t.kind.name ++ (" token" : Text))
    return s.settle false
  if t.kind = c.indicator then s.indicator c t
  else
    match t.kind with
    | .space =>
      let isFlowNext := c.next.any Next.isFlowCollection
      let mayTab := c.flow.isNone && !(c.indicator = .docStart && isFlowNext)
      let tab := if mayTab && Text.contains t.source '\t' then some t else s.tab
      return { s with tab, hasSpace := true }
    | .comment => s.comment t
    | .newline => return s.newline t
    | .anchor =>
      if s.props.anchor.isSome then Report.atToken t "A node can have at most one anchor"
      return { s with props := { s.props with anchor := t } }.property t
    | .tag =>
      if s.props.tag.isSome then Report.atToken t "A node can have at most one tag"
      return { s with props := { s.props with tag := t } }.property t
    | .comma =>
      match c.flow with
      | some flow =>
        if s.props.comma.isSome then Report.atToken t (("Unexpected , in " : Text) ++ flow)
        return { s with props := { s.props with comma := t } }.settle false
      | none => unexpected
    | _ => unexpected

end PropsState

/-- Reads the tokens in front of a value. -/
def Props.read (c : PropsContext) (tokens : List Token) : Report Props := do
  let s ← tokens.foldlM (PropsState.read c) (.init c)
  let stop := (tokens.getLast?.map Token.stop).getD c.offset
  match c.next with
  | some next => if s.needsSpace ∧ !next.isApart then Report.at' next.offset tightMessage
  | none => pure ()
  match s.tab with
  | some tab =>
    if (s.atNewline ∧ tab.indent ≤ c.parentIndent) ∨ c.next.any Next.isBlockCollection then
      Report.atToken tab tabMessage
  | none => pure ()
  return { s.props with stop, start := s.firstProp.getD stop }

/-- Nothing stands before the value. -/
def Props.none (offset : Nat) : Props :=
  ⟨.none, .none, [], false, .none, .none, .none, offset, offset⟩

end Yaml
end Scopewright
