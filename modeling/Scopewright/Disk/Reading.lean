import Scopewright.Disk.Basic

/-! # Reading a disk

A computation that reads a disk asks one question after the other (`Disk.Reading`); what it asks may
depend on the answers so far.  Nothing says when an answer comes: `Reading.step` goes on by one
answer, and `Reading.run` gives all answers from one disk. -/

namespace Scopewright
namespace Disk

/-- A question to a disk. -/
inductive Question where
  /-- The names of the directories in a directory, hidden ones left out, in order. -/
  | directories (dir : Text)
  /-- The names of the syntax files below a directory, in order. -/
  | syntaxFiles (dir : Text)
  /-- The text of a file. -/
  | text (file : Text)
deriving DecidableEq, Inhabited

/-- The answers to a question. -/
def Question.Answer : Question → Type
  | directories _ => Except Failure (List Text)
  | syntaxFiles _ => Except Failure (List Text)
  | text _ => Except Failure Text

/-- What a disk answers. -/
def answer (d : Disk) : (q : Question) → q.Answer
  | .directories dir => (d.list dir).map fun ms =>
    Text.sort ((ms.filter fun m => m.2.isDirectory && !Entry.isHidden m.1).map (·.1))
  | .syntaxFiles dir => (d.list dir).map fun ms =>
    Text.sort ((Entry.syntaxFilesOf ms).map fun way => PathName.join dir (Text.join "/" way))
  | .text file => d.text file

/-- A computation that asks questions. -/
inductive Reading (α : Type) where
  | done (result : α)
  | ask (question : Question) (next : question.Answer → Reading α)

namespace Reading

variable {α β : Type}

/-- A computation that goes on with the result of another. -/
def andThen (r : Reading α) (f : α → Reading β) : Reading β :=
  match r with
  | done a => f a
  | ask q next => ask q fun answer => andThen (next answer) f

instance : Monad Reading where
  pure := done
  bind := andThen

/-- A computation of one question. -/
def ofQuestion (q : Question) : Reading q.Answer := ask q done

/-- The result when all answers come from one disk. -/
def run (d : Disk) : Reading α → α
  | done a => a
  | ask q next => run d (next (d.answer q))

/-- The computation after one more answer. -/
def step (d : Disk) : Reading α → Reading α
  | done a => done a
  | ask q next => next (d.answer q)

/-- The result of a computation that has no more questions. -/
def result? : Reading α → Option α
  | done a => some a
  | ask _ _ => none

end Reading
end Disk
end Scopewright
