import Scopewright.Text.Basic

/-! # Failures

What can go wrong outside the documents themselves (`Failure`).  A failure has a message and may
have a cause, which has a message of its own (`Failure.chain`). -/

namespace Scopewright

/-- A failure. -/
inductive Failure where
  /-- A failure of the surroundings. -/
  | foreign (message : Text)
  /-- A failure of the engine. -/
  | engine (message : Text) (cause : Option Failure)
  /-- A file that cannot be indexed. -/
  | indexing (filePath reason : Text) (cause : Option Failure)
  /-- Syntaxes that refer to each other; the first path of the cycle comes again at its end. -/
  | cycle (paths : List Text)

namespace Failure

/-- The name of a kind of failure. -/
def name : Failure → Text
  | foreign _ => "Error"
  | engine .. => "SyntaxDevError"
  | indexing .. => "IndexingError"
  | cycle _ => "EmbedCycleError"

/-- What the failure says by itself. -/
def message : Failure → Text
  | foreign m => m
  | engine m _ => m
  | indexing path reason _ => ("Failed to index " : Text) ++ path ++ (": " : Text) ++ reason
  | cycle paths => ("Circular syntax reference: " : Text) ++ Text.join " -> " paths

/-- What has caused the failure. -/
def cause? : Failure → Option Failure
  | engine _ c => c
  | indexing _ _ c => c
  | _ => none

/-- The messages of a failure and its causes, outermost first. -/
def messages : Failure → List Text
  | foreign m => [m]
  | engine m none => [m]
  | engine m (some c) => m :: messages c
  | indexing path reason none => [message (indexing path reason none)]
  | indexing path reason (some c) => message (indexing path reason none) :: messages c
  | cycle paths => [message (cycle paths)]

/-- The messages of a failure and its causes in one line. -/
def chain (f : Failure) : Text := Text.join " -> " f.messages

end Failure
end Scopewright
