import Scopewright.Completion.Complete
import Scopewright.Cursor.Loose

/-! # Completion for a client

A client asks for completion at a place, whose offset need not be whole
(`Completion.completeAt`).  At a whole offset the candidates are those of `Completion.complete`; at
another one they are found for the whole units before it, and their extents end at the
offset itself. -/

namespace Scopewright
namespace Completion

/-- The word of a context begins a fixed number of units before the cursor. -/
def Context.followsCursor : Context → Bool
  | .cssVariable .. => true
  | _ => false

/-- The extent that a candidate replaces when the cursor is `lag` behind the whole units. -/
def Candidate.extent (c : Candidate) (startFollows : Bool) (lag : Float) : Extent :=
  let whole := c.replaced.extent
  ⟨if startFollows || lag.isNaN then whole.start + lag else whole.start, whole.stop + lag⟩

/-- The candidates at an offset that is not whole, with the extents they replace. -/
def completeLoose (t : Text) (offset : Offset) (d : Dialect) (r : Registry) (limit : Int) :
    List (Candidate × Extent) × Log :=
  let loose := Cursor.Loose.resolve t offset.value d
  let resolution := loose.resolution
  let context := classify resolution d (.ofDocument t d)
  let candidates := generate context resolution.token d.format r
  let extent (c : Candidate) : Extent :=
    c.extent (loose.startFollows || context.followsCursor) (Cursor.Loose.lag offset.value)
  ((limited limit candidates).map fun c => (c, extent c),
    [message offset.render context candidates])

/-- The candidates at an offset of a client, with the extents they replace. -/
def completeAt (t : Text) (offset : Offset) (d : Dialect) (r : Registry) (limit : Int) :
    List (Candidate × Extent) × Log :=
  match offset.whole? with
  | some n =>
    let (cs, log) := complete t n d r limit
    (cs.map fun c => (c, c.replaced.extent), log)
  | none => completeLoose t offset d r limit

end Completion
end Scopewright
