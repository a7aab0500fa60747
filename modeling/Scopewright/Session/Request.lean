import Scopewright.Client.Params
import Scopewright.Package.Event
import Scopewright.Session.Document

/-! # What a client sends

A client sends methods with untyped parameters (`Session.Request.ofMethod?`).  A request whose
parameters are refused is still a request: it is answered with nothing, or, for a package notice,
with a warning. -/

namespace Scopewright
namespace Session

open Client (DocumentPlace ContextQuestion DocumentRange AssertionRequest)

/-- What a client sends. -/
inductive Request where
  | connect (options : Payload)
  | connected
  | configure (settings : Payload)
  | opened (uri languageId text : Text)
  | changed (uri : Text) (isVersioned : Bool) (changes : List ContentChange)
  | closed (uri : Text)
  | completion (target : Option DocumentPlace)
  | packageChanged (event : Option Package.Event)
  | align (target : Option DocumentPlace)
  | question (question : Option ContextQuestion)
  | region (target : Option DocumentRange)
  | assertion (request : Option AssertionRequest)

/-- The name of the notice that a package has changed. -/
def packageNotice : Text := "syntaxDev/packageChanged"

namespace ContentChange

/-- The range that a change names. -/
def range? (p : Payload) : Option PlaceRange := do
  let start ← Client.place? (← p.field? "start")
  let stop ← Client.place? (← p.field? "end")
  return ⟨start, stop⟩

/-- The change in untyped data. -/
def ofPayload (p : Payload) : ContentChange :=
  match p.textField? "text", p.field? "range", p.field? "rangeLength" with
  | some text, none, none => .whole text
  | some text, some range, length =>
    if length.all fun n => n.number?.isSome then
      match range? range with
      | some r => .part r text
      | none => .unknown
    else .unknown
  | _, _, _ => .unknown

end ContentChange

namespace Request

/-- The notice that a document was opened. -/
def ofOpened (document : Payload) : Request :=
  let text (name : Text) : Text := (document.textField? name).getD []
  .opened (text "uri") (text "languageId") (text "text")

/-- The notice that a document has changed. -/
def ofChanged (document changes : Payload) : Request :=
  let version := (document.field? "version").getD .null
  let isVersioned : Bool := match version with
    | .null => false
    | _ => true
  .changed ((document.textField? "uri").getD []) isVersioned
    ((changes.items?.getD []).map ContentChange.ofPayload)

/-- The request of a method. -/
def ofMethod? (method : Text) (params : Payload) : Option Request :=
  let field (name : Text) : Payload := (params.field? name).getD .null
  if method = "initialize" then some (.connect (field "initializationOptions"))
  else if method = "initialized" then some .connected
  else if method = "workspace/didChangeConfiguration" then some (.configure params)
  else if method = "textDocument/didOpen" then some (ofOpened (field "textDocument"))
  else if method = "textDocument/didChange" then
    some (ofChanged (field "textDocument") (field "contentChanges"))
  else if method = "textDocument/didClose" then
    some (.closed ((Client.documentUri? params).getD []))
  else if method = "textDocument/completion" then
    some (.completion (DocumentPlace.ofPayload? params))
  else if method = packageNotice then some (.packageChanged (Package.Event.ofPayload? params))
  else if method = "syntaxDev/alignSyntaxTest" then some (.align (DocumentPlace.ofPayload? params))
  else if method = "syntaxDev/queryContext" then
    some (.question (ContextQuestion.ofPayload? params))
  else if method = "syntaxDev/assertedRegion" then some (.region (DocumentRange.ofPayload? params))
  else if method = "syntaxDev/suggestSyntaxTest" then
    some (.assertion (AssertionRequest.ofPayload? params))
  else none

end Request
end Session
end Scopewright
