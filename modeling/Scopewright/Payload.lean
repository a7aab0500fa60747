import Scopewright.Text.Class

/-! # Untyped data

What a client sends as parameters or settings is untyped (`Payload`): it is narrowed field by field
where it is used.  A document also has a plain form of this type.  Of two fields with one name the
later one counts. -/

namespace Scopewright

/-- Data without a schema. -/
inductive Payload where
  | null
  | bool (value : Bool)
  | number (value : Float)
  | string (value : Text)
  | array (items : List Payload)
  | object (fields : List (Text × Payload))
deriving Inhabited

namespace Payload

/-- The field of an object; nothing for other data. -/
def field? (p : Payload) (name : Text) : Option Payload :=
  match p with
  | object fields => fields.reverse.lookup name
  | _ => none

/-- The text of a string. -/
def text? : Payload → Option Text
  | string t => some t
  | _ => none

/-- The value of a boolean. -/
def bool? : Payload → Option Bool
  | bool b => some b
  | _ => none

/-- The value of a number. -/
def number? : Payload → Option Float
  | number x => some x
  | _ => none

/-- The items of an array. -/
def items? : Payload → Option (List Payload)
  | array items => some items
  | _ => none

/-- The data is an object. -/
def isObject : Payload → Bool
  | object _ => true
  | _ => false

/-- The field of an object, as a text. -/
def textField? (p : Payload) (name : Text) : Option Text := p.field? name >>= text?

/-- The field of an object, if it is an object itself. -/
def objectField? (p : Payload) (name : Text) : Option Payload :=
  (p.field? name).filter isObject

/-- Counts as true: all but null, false, zero, what is not a number, and the empty string. -/
def isTruthy : Payload → Bool
  | null => false
  | bool b => b
  | number x => !(x == 0 || x.isNaN)
  | string t => !t.isEmpty
  | array _ => true
  | object _ => true

end Payload
end Scopewright
