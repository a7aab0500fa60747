import Scopewright.Document.Basic
import Scopewright.Yaml.Syntax

/-! # Reports

Reading values never fails; what the grammar does not allow is reported on the way, in the order of
reading (`Yaml.Report`).  A report names a place: a number of units (`Report.at`), a token
(`Report.atToken`), or the extent of a value. -/

namespace Scopewright
namespace Yaml

open Document (Problem)

/-- A result with what has been reported, last first. -/
abbrev Report := StateM (List Problem)

namespace Report

/-- Reports a problem. -/
def add (span : Span) (message : Text) : Report Unit := modify (⟨message, span⟩ :: ·)

/-- Reports a problem at one unit. -/
def at' (offset : Nat) (message : Text) : Report Unit := add ⟨offset, offset + 1⟩ message

/-- Reports a problem at a token. -/
def atToken (t : Token) (message : Text) : Report Unit := add t.span message

/-- Runs a reading: its result, and the problems in order. -/
def run {α : Type} (r : Report α) : α × List Problem :=
  let (a, ps) := StateT.run r []
  (a, ps.reverse)

end Report
end Yaml
end Scopewright
