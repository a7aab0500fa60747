import Scopewright.Failure
import Scopewright.Number.Shortest
import Scopewright.Payload

/-! # Data as failures

Anything may be handed in as a failure.  Data are then told in one line (`Payload.summary`): items with
commas between them, and of an object only that it is one. -/

namespace Scopewright
namespace Payload

/-- Stands for any object. -/
def objectMark : Text := "[object Object]"

mutual

/-- The data in one line. -/
def summary : Payload → Text
  | null => "null"
  | bool true => "true"
  | bool false => "false"
  | number x => Number.render x
  | string t => t
  | array items => Text.join "," (summaries items)
  | object _ => objectMark

/-- The items of an array in one line each; null is empty there. -/
def summaries : List Payload → List Text
  | [] => []
  | null :: ps => [] :: summaries ps
  | p :: ps => summary p :: summaries ps

end

end Payload

/-- The failure that data stand for. -/
def Failure.ofPayload (p : Payload) : Failure := .foreign p.summary

end Scopewright
