import Scopewright.Buffer
import Scopewright.Payload
import Scopewright.Table
import Scopewright.Uri

/-! # Open documents

The documents that a client has open, in the order in which they were first opened
(`Session.Document`).  A change gives a new text or edits a range (`ContentChange`). -/

namespace Scopewright
namespace Session

/-- A document that a client has open. -/
structure Document where
  uri : Text
  languageId : Text
  buffer : Buffer
deriving DecidableEq, Inhabited

/-- A change of a document. -/
inductive ContentChange where
  /-- A new text. -/
  | whole (text : Text)
  /-- A new text for a range. -/
  | part (range : PlaceRange) (text : Text)
  /-- Anything else. -/
  | unknown
deriving DecidableEq, Inhabited

/-- What a client may do wrong. -/
inductive Fault where
  | uri (fault : Uri.Fault)
  /-- A change without a version of the document. -/
  | unversioned (uri : Text)
  | unknownChange
  | unknownMethod (name : Text)
  /-- What is to be answered stands at no place of the document. -/
  | noPlace
  /-- The selection to answer does not lie on a line: its line, its start and its end. -/
  | noSelection (line start stop : Float)
deriving DecidableEq, Inhabited

/-- The message about what would be a range. -/
def rangeMessage (parts : List Text) : Text :=
  ("Range#create called with invalid arguments[" : Text) ++ Text.join ", " parts ++ ("]" : Text)

/-- The message of a fault. -/
def Fault.message : Fault → Text
  | uri f => f.message
  | unversioned u => ("Received document change event for " : Text) ++ u
      ++ (" without valid version identifier" : Text)
  | unknownChange => "Unknown change event received"
  | unknownMethod name => ("Unhandled method " : Text) ++ name
  | noPlace => rangeMessage ["[object Object]", "[object Object]", "undefined", "undefined"]
  | noSelection line start stop =>
    let number (x : Float) : Text := (Offset.number x).render
    rangeMessage [number line, number start, number line, number stop]

namespace Document

/-- A document as it is opened. -/
def open' (uri languageId text : Text) : Document := ⟨uri, languageId, .ofText text⟩

variable (d : Document)

/-- The dialect of a document. -/
def dialect : Except Fault (Option Dialect) :=
  (dialectOf d.languageId d.uri d.buffer.text).mapError .uri

/-- The name of a document that is a saved file. -/
def fileName : Except Fault (Option Text) := (fileNameOf d.uri).mapError .uri

/-- Makes changes up to the first that is unknown; those before it stay. -/
def change (d : Document) : List ContentChange → Document × Option Fault
  | [] => (d, none)
  | .whole text :: cs => change { d with buffer := .ofText text } cs
  | .part range text :: cs => change { d with buffer := d.buffer.edit range text } cs
  | .unknown :: _ => (d, some .unknownChange)

end Document
end Session
end Scopewright
