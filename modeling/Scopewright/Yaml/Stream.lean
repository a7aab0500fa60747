import Scopewright.Json.Quoted
import Scopewright.Yaml.Node
import Scopewright.Yaml.Part

/-! # The first document of a stream

Only the first document of a stream is read (`Yaml.firstDocument`).  Directives come before
documents, and what is wrong between documents belongs to the one before, or, behind directives, to
the one that follows.  A second document is reported as a whole. -/

namespace Scopewright
namespace Yaml

open Document (Problem)

/-- A document with what is wrong in it. -/
structure DocumentNode where
  root : Option Node
  problems : List Problem

/-- How far a stream has been read. -/
structure StreamState where
  directives : Directives
  atDirectives : Bool
  /-- What is wrong and belongs to no document yet. -/
  pending : List Problem
  document : Option (Node × List Problem)

/-- The node of a document, and where its content ends. -/
def makeDocument (ds : Directives) (d : DocumentPart) : Report (Node × Nat) := do
  let next : Option Next :=
    match d.value with
    | some v => some (.ofValue v)
    | none => d.ending.head?.map .ofToken
  let props ← Props.read ⟨none, .docStart, next, d.offset, 0, true⟩ d.start
  if props.found.isSome ∧ d.value.any Value.isBlockCollection ∧ !props.hasNewline then
    Report.at' props.stop "Block collection cannot start on same line with directives-end marker"
  let n ← match d.value with
    | some v => makeNode ds true false props v
    | none => emptyNode ds (emptyOffset props.stop d.start) props
  let _ ← readEnding false n.extent.stop d.ending
  return (n, n.extent.stop)

namespace StreamState

/-- Nothing read. -/
def init : StreamState := ⟨.default, false, [], none⟩

variable (s : StreamState)

/-- Reads a directive. -/
def directive (t : Token) : StreamState :=
  let (directives, problem) := s.directives.read t.source
  let problems : List Problem :=
    match problem with
    | some (skip, message) => [⟨message, ⟨t.offset + skip, t.stop⟩⟩]
    | none => []
  { s with directives, atDirectives := true, pending := s.pending ++ problems }

/-- Reads the first document. -/
def startDocument (d : DocumentPart) : StreamState :=
  let ((n, _), problems) := (makeDocument s.directives d).run
  let missing : List Problem :=
    if s.atDirectives && !hasKind d.start .docStart then
      [⟨"Missing directives-end/doc-start indicator line", ⟨d.offset, d.offset + 1⟩⟩]
    else []
  { s with atDirectives := false
           pending := []
           document := some (n, s.pending ++ problems ++ missing) }

/-- What may not stand between documents. -/
def strayProblem (t : Stray) : Problem :=
  ⟨if t.source.isEmpty then t.message
    else t.message ++ (": " : Text) ++ Json.Quoted.encode t.source,
    ⟨t.offset, t.offset + t.source.length⟩⟩

/-- Reads what may not stand between documents. -/
def stray (t : Stray) : StreamState :=
  match s.atDirectives, s.document with
  | false, some (n, problems) => { s with document := some (n, problems ++ [strayProblem t]) }
  | _, _ => { s with pending := s.pending ++ [strayProblem t] }

/-- Reads the mark of a document's end. -/
def endDocument (mark : Token) (ending : List Token) : StreamState :=
  match s.document with
  | some (n, problems) =>
    let (_, more) := (readEnding true mark.stop ending).run
    { s with pending := [], document := some (n, problems ++ s.pending ++ more) }
  | none =>
    { s with pending := s.pending ++ [⟨"Unexpected doc-end without preceding document", mark.span⟩] }

/-- Reads the parts of a stream; `stop` is where the text ends. -/
def readParts (stop : Nat) (s : StreamState) : List Part → DocumentNode
  | [] =>
    match s.document with
    | some (n, problems) => ⟨n, problems ++ s.pending⟩
    | none =>
      let missing : List Problem :=
        if s.atDirectives then [⟨"Missing directives-end indicator line", ⟨stop, stop + 1⟩⟩]
        else []
      ⟨none, s.pending ++ missing⟩
  | .directive t :: ps => (s.directive t).readParts stop ps
  | .token _ :: ps => s.readParts stop ps
  | .stray t :: ps => (s.stray t).readParts stop ps
  | .documentEnd mark ending :: ps => (s.endDocument mark ending).readParts stop ps
  | .document d :: ps =>
    match s.document with
    | none => (s.startDocument d).readParts stop ps
    | some (n, problems) =>
      let ((_, contentStop), _) := (makeDocument s.directives d).run
      ⟨n, problems ++ [⟨
        "Source contains multiple documents; please use YAML.parseAllDocuments()",
        ⟨d.offset, contentStop⟩⟩]⟩

end StreamState

/-- The first document of a text. -/
def firstDocument (t : Text) : DocumentNode := StreamState.init.readParts t.length (parts t)

end Yaml
end Scopewright
