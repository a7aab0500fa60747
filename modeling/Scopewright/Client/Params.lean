import Scopewright.Buffer
import Scopewright.Payload

/-! # Parameters

The parameters of a client's requests come as untyped data.  Each kind of request has a type, and data
that lack a part of it are refused: a place in a document (`DocumentPlace`), a question of a key
binding (`ContextQuestion`), a range of a document (`DocumentRange`), and an assertion to complete
(`AssertionRequest`). -/

namespace Scopewright
namespace Client

/-- The identifier of the document that the parameters name. -/
def documentUri? (p : Payload) : Option Text :=
  (p.objectField? "textDocument").bind (·.textField? "uri")

/-- A line and a character. -/
def place? (p : Payload) : Option Place := do
  let line ← (← p.field? "line").number?
  let character ← (← p.field? "character").number?
  return ⟨line, character⟩

/-- A place in a document. -/
structure DocumentPlace where
  uri : Text
  place : Place
deriving DecidableEq, Inhabited

/-- The place that parameters name. -/
def DocumentPlace.ofPayload? (p : Payload) : Option DocumentPlace := do
  let uri ← documentUri? p
  let place ← place? (← p.field? "position")
  return ⟨uri, place⟩

/-- A question of a key binding about a place. -/
structure ContextQuestion where
  target : DocumentPlace
  key : Text
  operator : Text
  operand : Option Payload
deriving Inhabited

/-- The question that parameters put. -/
def ContextQuestion.ofPayload? (p : Payload) : Option ContextQuestion := do
  let target ← DocumentPlace.ofPayload? p
  let key ← p.textField? "key"
  let operator ← p.textField? "operator"
  return ⟨target, key, operator, p.field? "operand"⟩

/-- A range of a document. -/
structure DocumentRange where
  uri : Text
  range : PlaceRange
deriving DecidableEq, Inhabited

/-- The range that parameters name. -/
def DocumentRange.ofPayload? (p : Payload) : Option DocumentRange := do
  let uri ← documentUri? p
  let range ← p.objectField? "range"
  let start ← place? (← range.field? "start")
  let stop ← place? (← range.field? "end")
  return ⟨uri, ⟨start, stop⟩⟩

/-- An assertion to complete over a selection. -/
structure AssertionRequest where
  target : DocumentRange
  /-- The scopes at each column of the tested line. -/
  scopes : List Text
  baseScope : Option Text
  /-- What is typed over the selection. -/
  character : Text
deriving DecidableEq, Inhabited

/-- What is typed unless the parameters say otherwise. -/
def usualCharacter : Text := "^"

/-- The assertion that parameters ask for. -/
def AssertionRequest.ofPayload? (p : Payload) : Option AssertionRequest := do
  let target ← DocumentRange.ofPayload? p
  let items ← (← p.field? "scopes").items?
  let scopes ← items.mapM Payload.text?
  let character := (p.textField? "character").filter fun t => !t.isEmpty
  return ⟨target, scopes, p.textField? "baseScope", character.getD usualCharacter⟩

end Client
end Scopewright
