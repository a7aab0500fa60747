import Scopewright.Document.Basic
import Scopewright.Json.Token

/-! # Events of a document

What the tokens of a document say, in order (`Json.Event`): collections that begin and end, keys,
values, separators, and what the grammar does not allow.  A faulty document has its events too:
where an entry or an item is missing or spoilt, tokens are passed over up to the next comma or
the end of the collection.

`Json.eventsFrom` is one machine over the tokens that matter (`Json.Step`), the open collections
(`Json.Frame`) and what must come next (`Json.Phase`).  Every transition uses up a token,
leaves a collection or lowers the rank of the phase. -/

namespace Scopewright
namespace Json

/-- What an event says. -/
inductive EventKind where
  | objectBegin
  | objectEnd
  | property (name : Text)
  | arrayBegin
  | arrayEnd
  | literal (value : Document.Scalar)
  | colon
  | comma
  | fault (cause : Fault)
deriving Inhabited

/-- An event and the token it stems from. -/
structure Event where
  kind : EventKind
  start : Nat
  length : Nat
deriving Inhabited

namespace Event

/-- The end of the token. -/
def stop (e : Event) : Nat := e.start + e.length

/-- Where the token stands. -/
def span (e : Event) : Span := .ofLength e.start e.length

end Event

/-- An event at a token. -/
def Token.event (t : Token) (kind : EventKind) : Event := ⟨kind, t.start, t.length⟩

/-- A fault at a token. -/
def Token.faultEvent (t : Token) (cause : Fault) : Event := t.event (.fault cause)

/-- A token that matters, and the faults met on the way to it. -/
structure Step where
  faults : List Event
  token : Token
deriving Inhabited

/-- The fault of a token itself, if any. -/
def Token.ownFaults (t : Token) : List Event := (t.fault.map t.faultEvent).toList

/-- The tokens that matter: without blanks, comments and unknown symbols, the last of which
are faults. -/
def steps (faults : List Event) : List Token → List Step
  | [] => []
  | t :: ts =>
    let faults := faults ++ t.ownFaults
    match t.kind with
    | .comment => steps faults ts
    | .space => steps faults ts
    | .unknown => steps (faults ++ [t.faultEvent .invalidSymbol]) ts
    | _ => ⟨faults, t⟩ :: steps [] ts

/-- A collection that is open. -/
inductive Frame where
  | object
  | array
deriving DecidableEq, Repr, Inhabited

namespace Frame

/-- The token that closes the collection. -/
def closer : Frame → Kind
  | object => .closeBrace
  | array => .closeBracket

/-- The fault when the text ends before the closing token. -/
def unclosed : Frame → Fault
  | object => .closeBraceExpected
  | array => .closeBracketExpected

/-- The event of the end. -/
def ending : Frame → EventKind
  | object => .objectEnd
  | array => .arrayEnd

/-- Tokens are passed over up to such a one. -/
def resumesAt (f : Frame) (k : Kind) : Bool := decide (k = f.closer) || decide (k = .comma)

end Frame

/-- What must come next. -/
inductive Phase where
  /-- The end of the collection, a comma, or a further entry. -/
  | next (needsComma : Bool)
  /-- An entry or item. -/
  | item
  /-- The colon behind a key. -/
  | colon
  /-- A value. -/
  | value
  /-- A comma or the end, behind a spoilt entry. -/
  | resume
  /-- The end of the collection. -/
  | close
deriving DecidableEq, Repr, Inhabited

/-- Phases that need no token lead to phases of lower rank. -/
def Phase.rank : Phase → Nat
  | next _ => 5
  | item => 4
  | colon => 3
  | value => 3
  | resume => 2
  | close => 1

/-- Passes over tokens up to one that `stop` accepts: the faults met, that token, and the rest. -/
def skipTo (stop : Kind → Bool) (cur : Token) : List Step → List Event × Token × List Step
  | [] => ([], cur, [])
  | s :: rest =>
    if stop cur.kind then ([], cur, s :: rest)
    else
      let (faults, r) := skipTo stop s.token rest
      (s.faults ++ faults, r)

theorem length_skipTo_le (stop : Kind → Bool) (cur : Token) (rest : List Step) :
    (skipTo stop cur rest).2.2.length ≤ rest.length := by
  induction rest generalizing cur with
  | nil => simp [skipTo]
  | cons s rest ih =>
    simp only [skipTo]
    split
    · simp
    · exact Nat.le_succ_of_le (ih s.token)

/-- The value of a token that is a value by itself. -/
def Token.scalar? (t : Token) : Option Document.Scalar :=
  match t.kind with
  | .string => some (.string t.value)
  | .number => some (.number ((Number.ofText? t.value).getD 0))
  | .nullWord => some .null
  | .trueWord => some (.bool true)
  | .falseWord => some (.bool false)
  | _ => none

/-- The collection that a token opens. -/
def Token.opens? (t : Token) : Option Frame :=
  match t.kind with
  | .openBrace => some .object
  | .openBracket => some .array
  | _ => none

/-- The event of the beginning of a collection. -/
def Frame.beginning : Frame → EventKind
  | object => .objectBegin
  | array => .arrayBegin

/-- The events from the current token on.  With `trailing`, a comma may stand before the end of
a collection. -/
def eventsFrom (trailing : Bool) (cur : Token) (rest : List Step) (stack : List Frame)
    (phase : Phase) : List Event :=
  match stack, phase with
  | [], .value =>
    match cur.scalar?, cur.opens? with
    | some v, _ => cur.event (.literal v) :: match rest with
      | [] => []
      | s :: rest => s.faults ++ eventsFrom trailing s.token rest [] (.next true)
    | none, some f => cur.event f.beginning :: match rest with
      | [] => []
      | s :: rest => s.faults ++ eventsFrom trailing s.token rest [f] (.next false)
    | none, none => [cur.faultEvent .valueExpected]
  | [], _ => if cur.kind = .done then [] else [cur.faultEvent .endOfFileExpected]
  | f :: fs, .next needsComma =>
    if cur.kind = f.closer ∨ cur.kind = .done then eventsFrom trailing cur rest (f :: fs) .close
    else if cur.kind = .comma then
      (if needsComma then [] else [cur.faultEvent .valueExpected]) ++ cur.event .comma ::
        match rest with
        | [] => []
        | s :: rest => s.faults ++ eventsFrom trailing s.token rest (f :: fs)
            (if trailing ∧ s.token.kind = f.closer then .close else .item)
    else
      (if needsComma then [cur.faultEvent .commaExpected] else [])
        ++ eventsFrom trailing cur rest (f :: fs) .item
  | .array :: fs, .item => eventsFrom trailing cur rest (.array :: fs) .value
  | .object :: fs, .item =>
    if cur.kind = .string then
      cur.event (.property cur.value) :: match rest with
        | [] => []
        | s :: rest => s.faults ++ eventsFrom trailing s.token rest (.object :: fs) .colon
    else
      let skipped := skipTo Frame.object.resumesAt cur rest
      cur.faultEvent .propertyNameExpected :: (skipped.1
        ++ skipped.2.1.faultEvent .valueExpected
        :: eventsFrom trailing skipped.2.1 skipped.2.2 (.object :: fs) .resume)
  | f :: fs, .colon =>
    if cur.kind = .colon then
      cur.event .colon :: match rest with
        | [] => []
        | s :: rest => s.faults ++ eventsFrom trailing s.token rest (f :: fs) .value
    else
      let skipped := skipTo f.resumesAt cur rest
      cur.faultEvent .colonExpected :: (skipped.1
        ++ eventsFrom trailing skipped.2.1 skipped.2.2 (f :: fs) .resume)
  | f :: fs, .value =>
    match cur.scalar?, cur.opens? with
    | some v, _ => cur.event (.literal v) :: match rest with
      | [] => []
      | s :: rest => s.faults ++ eventsFrom trailing s.token rest (f :: fs) (.next true)
    | none, some g => cur.event g.beginning :: match rest with
      | [] => []
      | s :: rest => s.faults ++ eventsFrom trailing s.token rest (g :: f :: fs) (.next false)
    | none, none =>
      let skipped := skipTo f.resumesAt cur rest
      cur.faultEvent .valueExpected :: (skipped.1
        ++ eventsFrom trailing skipped.2.1 skipped.2.2 (f :: fs) .resume)
  | f :: fs, .resume =>
    if cur.kind = .comma then
      cur.event .comma :: match rest with
        | [] => []
        | s :: rest => s.faults ++ eventsFrom trailing s.token rest (f :: fs)
            (if trailing ∧ s.token.kind = f.closer then .close else .item)
    else eventsFrom trailing cur rest (f :: fs) .close
  | f :: fs, .close =>
    cur.event f.ending ::
      if cur.kind = f.closer then
        match rest with
        | [] => []
        | s :: rest => s.faults ++ eventsFrom trailing s.token rest fs (.next true)
      else cur.faultEvent f.unclosed :: eventsFrom trailing cur rest fs (.next true)
termination_by (rest.length, stack.length, phase.rank)
decreasing_by
  all_goals simp [Prod.lex_def, Phase.rank]
  all_goals exact Nat.lt_or_eq_of_le (length_skipTo_le _ _ _)

/-- The events of a document, faults included. -/
def events (trailing : Bool) (t : Text) : List Event :=
  match steps [] (tokens t) with
  | [] => []
  | s :: rest => s.faults ++ eventsFrom trailing s.token rest [] .value

end Json
end Scopewright
