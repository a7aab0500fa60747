import Scopewright.Text.Basic

/-! # Logs

Messages have one of four levels, from errors to details (`Log.Level`).  A threshold lets those
through that are at least as serious, each with the mark of the server (`Log.filter`). -/

namespace Scopewright
namespace Log

/-- The levels of messages, the most serious first. -/
inductive Level where
  | error
  | warn
  | info
  | debug
deriving DecidableEq, Repr, Inhabited

namespace Level

/-- All levels. -/
def all : List Level := [error, warn, info, debug]

/-- The name of a level as a threshold. -/
def name : Level → Text
  | error => "error"
  | warn => "warn"
  | info => "info"
  | debug => "debug"

/-- The name of the channel that carries the messages of a level. -/
def channel : Level → Text
  | error => "error"
  | warn => "warn"
  | info => "info"
  | debug => "log"

/-- The level of a name. -/
def ofName? (t : Text) : Option Level := all.find? fun l => decide (l.name = t)

/-- The level of a channel. -/
def ofChannel? (t : Text) : Option Level := all.find? fun l => decide (l.channel = t)

/-- How little serious a level is. -/
def rank : Level → Nat
  | error => 0
  | warn => 1
  | info => 2
  | debug => 3

end Level

/-- A message with its level. -/
structure Message where
  level : Level
  text : Text
deriving DecidableEq, Inhabited

/-- The mark of the server. -/
def mark : Text := "[SyntaxDev]"

/-- The messages that pass a threshold, as they are written. -/
def filter (threshold : Level) (messages : List Message) : List Message :=
  (messages.filter fun m => decide (m.level.rank ≤ threshold.rank)).map fun m =>
    { m with text := mark ++ (" " : Text) ++ m.text }

end Log

/-- A log: messages in order. -/
abbrev Log := List Log.Message

end Scopewright
