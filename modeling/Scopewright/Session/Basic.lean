import Scopewright.Client.Item
import Scopewright.Engine.Basic
import Scopewright.Session.Request
import Scopewright.SyntaxTest.Loose

/-! # Sessions

A session answers the requests of a client (`Session.receive`) and sends log messages and diagnostics
meanwhile (`Session.Output`).  Requests that take reading leave a task with the engine; when
the disk has answered, `Session.settle` finishes the tasks.

The diagnostics of a document are sent when it is opened or changed, when the settings change, and
when a task is finished.  A document without a dialect gets none, and a closed document gets an
empty list. -/

namespace Scopewright

open Client (Diagnostic Edit Item)
open Session (Document Fault Request)

/-- What the server remembers of a client. -/
structure Session where
  engine : Engine
  /-- The open documents, by the order of their first opening. -/
  documents : Table Document

namespace Session

/-- What a session sends besides its answers. -/
inductive Output where
  | log (message : Log.Message)
  | diagnostics (uri : Text) (diagnostics : List Diagnostic)
deriving DecidableEq, Inhabited

/-- An answer to a request. -/
inductive Reply where
  | nothing
  | capabilities
  | items (items : List Item)
  | edit (edit : Edit)
  | truth (value : Bool)
  | range (range : PlaceRange)
  /-- An edit and the range to select after it. -/
  | completed (edit : Edit) (selection : PlaceRange)
deriving DecidableEq, Inhabited

/-- The characters that make a client ask for completion. -/
def triggers : List Text := [".", "\"", ":", " ", "(", "<", "-"]

/-- A session that has received nothing. -/
def start : Session := ⟨.start .initial, []⟩

/-- What comes of a request: the session, the answer or the fault, and what is sent. -/
structure Step where
  session : Session
  reply : Except Fault Reply
  output : List Output

variable (s : Session)

/-- The messages that the level in force lets through. -/
def logged (log : Log) : List Output := (Log.filter s.engine.settings.logLevel log).map .log

/-! ### Diagnostics -/

/-- What is there, or else a fault. -/
def orFault {α : Type} (f : Fault) (o : Option α) : Except Fault α := o.elim (.error f) .ok

/-- The diagnostics of a document, unless it has no dialect. -/
def validate (d : Document) : Except Fault (List Output) := do
  match ← d.dialect with
  | none => return []
  | some dialect =>
    let findings := s.engine.findings d.buffer.text dialect
    let diagnostics ← orFault .noPlace (findings.mapM (Client.diagnostic? d.buffer))
    return [.diagnostics d.uri diagnostics]

/-- The diagnostics of documents up to the first one whose identifier is faulty. -/
def validateEach : List Document → List Output × Option Fault
  | [] => ([], none)
  | d :: ds =>
    match s.validate d with
    | .error f => ([], some f)
    | .ok output =>
      let (more, fault) := validateEach ds
      (output ++ more, fault)

/-- The diagnostics of all open documents. -/
def validateAll : List Output × Option Fault := s.validateEach (s.documents.map (·.2))

/-- The session answers nothing and sends something. -/
def send (output : List Output) : Step := ⟨s, .ok .nothing, output⟩

/-- The session with new contents of a document, and its diagnostics. -/
def setDocument (d : Document) : Step :=
  let s := { s with documents := Table.set s.documents d.uri d }
  s.send ((s.validate d).toOption.getD [])

/-! ### Requests about documents -/

/-- An answer about an open document; nothing without one. -/
def about (uri : Option Text) (answer : Document → Except Fault Reply) : Except Fault Reply :=
  match uri.bind (Table.get? s.documents) with
  | some d => answer d
  | none => .ok .nothing

/-- The completion items at a place, and what is logged. -/
def completionAt (d : Document) (p : Place) : Except Fault Reply × Log :=
  match d.dialect with
  | .error f => (.error f, [])
  | .ok none => (.ok .nothing, [])
  | .ok (some dialect) =>
    let (cs, log) := s.engine.completeAt d.buffer.text (d.buffer.offsetAt p) dialect
    ((orFault .noPlace (Client.itemList? d.buffer cs)).map .items, log)

/-- The edit that aligns a place with the assertion above. -/
def alignAt (d : Document) (p : Place) : Except Fault Reply :=
  d.fileName.map fun name =>
    match SyntaxTest.alignAt? d.buffer.text (d.buffer.offsetAt p) name with
    | none => .nothing
    | some i => .edit ⟨.at' (d.buffer.placeAt i.offset), i.text⟩

/-- The answer to a question of a key binding. -/
def answerQuestion (d : Document) (q : Client.ContextQuestion) : Except Fault Reply :=
  d.fileName.map fun name =>
    match SyntaxTest.queryAt? d.buffer.text (d.buffer.offsetAt q.target.place) q.key q.operator
        (q.operand.getD .null) name with
    | none => .nothing
    | some b => .truth b

/-- The region of the tested line that a range of an assertion covers. -/
def regionOf (d : Document) (r : PlaceRange) : Except Fault Reply := do
  let name ← d.fileName
  match SyntaxTest.assertedRegionAt? d.buffer.text (d.buffer.offsetAt r.start)
      (d.buffer.offsetAt r.stop) name with
  | none => return .nothing
  | some region => return .range (← orFault .noPlace (d.buffer.rangeOf region))

/-- A selection in the edited text, as places; the edit stands on one line. -/
def selectionAfter (edited : PlaceRange) (edit selection : Extent) : Except Fault PlaceRange :=
  let line := edited.start.line
  let lineStart := edit.start - edited.start.character
  let start := selection.start - lineStart
  let stop := selection.stop - lineStart
  orFault (.noSelection line start stop) (PlaceRange.between? ⟨line, start⟩ ⟨line, stop⟩)

/-- The assertion that completes a typed character. -/
def completeAssertion (d : Document) (r : Client.AssertionRequest) : Except Fault Reply := do
  let name ← d.fileName
  match SyntaxTest.suggestAt? d.buffer.text (d.buffer.offsetAt r.target.range.start)
      (d.buffer.offsetAt r.target.range.stop) r.scopes r.baseScope name r.character with
  | none => return .nothing
  | some suggestion =>
    let edited ← orFault .noPlace (d.buffer.rangeOf suggestion.edit)
    let selection ← selectionAfter edited suggestion.edit suggestion.selection
    return .completed ⟨edited, suggestion.text⟩ selection

/-! ### Receiving -/

/-- The session with settings from a client. -/
def configure (value : Payload) : Session :=
  { s with engine := { s.engine with settings := s.engine.settings.update value } }

/-- The session with a task more. -/
def submit (t : Engine.Task) : Session := { s with engine := s.engine.submit t }

/-- Takes up a scan of the packages directories in the settings. -/
def scan : Session := s.submit (.scan s.engine.settings.packagesPaths)

/-- The packages directories in one text. -/
def pathsText : Text := Text.join "\n" s.engine.settings.packagesPaths

/-- Takes the settings of a client; other packages directories are scanned. -/
def reconfigure (notice : Payload) : Step :=
  let next := s.configure ((Settings.section? notice Settings.sectionName).getD .null)
  let next := if next.pathsText = s.pathsText then next else next.scan
  let (output, fault) := next.validateAll
  ⟨next, match fault with
    | some f => .error f
    | none => .ok .nothing, output⟩

/-- Changes an open document. -/
def changeDocument (uri : Text) (isVersioned : Bool) (changes : List ContentChange) : Step :=
  if changes.isEmpty then s.send []
  else if !isVersioned then ⟨s, .error (.unversioned uri), []⟩
  else match Table.get? s.documents uri with
    | none => s.send []
    | some d =>
      match d.change changes with
      | (d, none) => s.setDocument d
      | (d, some f) => ⟨{ s with documents := Table.set s.documents uri d }, .error f, []⟩

/-- Closes an open document. -/
def close (uri : Text) : Step :=
  if Table.has s.documents uri then
    { s with documents := Table.erase s.documents uri }.send [.diagnostics uri []]
  else s.send []

/-- The warning of a package notice that cannot be read. -/
def malformedNotice : Log.Message :=
  ⟨.warn, ("Ignoring malformed " : Text) ++ packageNotice ++ (" notification" : Text)⟩

/-- The first message of a session. -/
def greeting : Log.Message := ⟨.info, "Server initializing..."⟩

/-- Answers a request. -/
def receive (r : Request) : Step :=
  let answered (reply : Except Fault Reply) : Step := ⟨s, reply, []⟩
  match r with
  | .connect options =>
    let s := s.configure options
    ⟨s, .ok .capabilities, s.logged [greeting]⟩
  | .connected => s.scan.send []
  | .configure notice => s.reconfigure notice
  | .opened uri languageId text => s.setDocument (.open' uri languageId text)
  | .changed uri isVersioned changes => s.changeDocument uri isVersioned changes
  | .closed uri => s.close uri
  | .completion target =>
    match target.bind fun t => (Table.get? s.documents t.uri).map (·, t.place) with
    | none => s.send []
    | some (d, p) =>
      let (reply, log) := s.completionAt d p
      ⟨s, reply, s.logged log⟩
  | .packageChanged none => s.send (s.logged [malformedNotice])
  | .packageChanged (some event) => (s.submit (.package event)).send []
  | .align none | .question none | .region none | .assertion none => s.send []
  | .align (some t) => answered (s.about t.uri fun d => alignAt d t.place)
  | .question (some q) => answered (s.about q.target.uri fun d => answerQuestion d q)
  | .region (some t) => answered (s.about t.uri fun d => regionOf d t.range)
  | .assertion (some a) => answered (s.about a.target.uri fun d => completeAssertion d a)

/-! ### Finishing tasks -/

/-- The message of a fault that stops the diagnostics after a task. -/
def interrupted (change : Registry.Change) (f : Fault) : Log.Message :=
  let what : Text := match change with
    | .scan _ => "Package loading failed: "
    | _ => "Package change failed: "
  ⟨.error, what ++ f.message⟩

/-- What is sent when a task is finished: its messages, then the diagnostics of all documents. -/
def finished (report : Engine.Report) : List Output :=
  let (output, fault) := s.validateAll
  s.logged report.log ++ output
    ++ s.logged (fault.toList.map fun f => interrupted report.change f)

/-- The session goes on by one answer of the disk. -/
def advance (d : Disk) : Session × List Output :=
  let (engine, report) := s.engine.step d
  let s := { s with engine }
  (s, (report.map s.finished).getD [])

/-- Finishes tasks one after the other. -/
def settleEach (d : Disk) (s : Session) : List (Disk.Reading Engine.Outcome) →
    Session × List Output
  | [] => (s, [])
  | first :: waiting =>
    let (engine, report) := s.engine.finish (first.run d)
    let s := { s with engine }
    let (next, more) := settleEach d s waiting
    (next, s.finished report ++ more)

/-- Finishes all tasks. -/
def settle (d : Disk) : Session × List Output :=
  settleEach d { s with engine := { s.engine with queue := [] } } s.engine.queue

end Session
end Scopewright
