import Scopewright.Document.Basic
import Scopewright.Number.Nearest
import Scopewright.Text.Bytes
import Scopewright.Yaml.Timestamp

/-! # Values of scalars

Which value a plain scalar or one with a tag denotes.  The rules depend on the version that the
document declares (`Yaml.Version`): 1.2 knows few forms, 1.1 also has other words for booleans, digits
grouped by underscores, numbers in base sixty and a mark for merging.

A family (`Family`) is what one tag names; `Version.read?` is the value of a text as a member of a
family. -/

namespace Scopewright
namespace Yaml

/-- The version of the language. -/
inductive Version where
  | v11
  | v12
deriving DecidableEq, Repr, Inhabited

/-- The value of a scalar.  A value of a type that documents do not have is known by how it is
shown. -/
inductive Datum where
  | plain (value : Document.Scalar)
  | other (shown : Text)
deriving Inhabited

/-- The families of values with a tag of their own. -/
inductive Family where
  | null
  | bool
  | int
  | float
  | merge
  | binary
  | timestamp
deriving DecidableEq, Repr, Inhabited

/-- What is not a number. -/
def notANumber : Float := Float.ofBits 0x7FF8000000000000

/-- Infinity. -/
def infinity : Float := Float.ofBits Number.infinityBits

/-- A sign in front, and what follows it. -/
def splitSign (t : Text) : Bool × Text :=
  match t with
  | [] => (false, [])
  | c :: r => if c = '-' then (true, r) else if c = '+' then (false, r) else (false, t)

/-- Without underscores. -/
def ungroup (t : Text) : Text := t.filter fun (c : CodeUnit) => decide (c ≠ '_')

/-- The whole number that digits denote; without digits it is not a number. -/
def wholeNumber (negative : Bool) (base : Nat) (digits : Text) : Float :=
  if digits.isEmpty then notANumber
  else Number.signed negative (Number.nearest (Text.natValue digits base) 1)

/-- Not empty, and digits of the base only; with `grouped` underscores may stand among them. -/
def areDigits (base : Nat) (grouped : Bool) (t : Text) : Bool :=
  !t.isEmpty && t.all fun c =>
    (c.isHexDigit && decide (c.hexValue < base)) || (grouped && decide (c = '_'))

/-- Begins with a digit and goes on with digits and underscores. -/
def isGrouped (t : Text) : Bool :=
  t.head?.any CodeUnit.isDigit && areDigits 10 true t

/-- The words for null. -/
def nullWords : List Text := ["", "~", "null", "Null", "NULL"]

/-- The words for booleans. -/
def boolWords : List (Text × Bool) := [
  ("true", true), ("True", true), ("TRUE", true), ("false", false), ("False", false),
  ("FALSE", false)]

/-- More words for booleans in 1.1. -/
def switchWords : List (Text × Bool) := [
  ("Y", true), ("y", true), ("yes", true), ("Yes", true), ("YES", true), ("on", true), ("On", true),
  ("ON", true), ("N", false), ("n", false), ("no", false), ("No", false), ("NO", false),
  ("off", false), ("Off", false), ("OFF", false)]

/-- The value of a number of the words `.inf` and `.nan`. -/
def wordFloat? (t : Text) : Option Float :=
  let (negative, magnitude) := splitSign t
  if t = ".nan" ∨ t = ".NaN" ∨ t = ".NAN" then some notANumber
  else if magnitude = ".inf" ∨ magnitude = ".Inf" ∨ magnitude = ".INF" then
    some (Number.signed negative infinity)
  else none

/-- The parts of a numeral in base sixty, if all but the first one have one or two digits below
sixty. -/
def sexagesimal? (t : Text) : Option (List Text) :=
  match Text.splitOn ':' t with
  | whole :: part :: parts =>
    let isPart (p : Text) : Bool :=
      areDigits 10 false p && (p.length = 1 || (p.length = 2 && Text.natValue p 10 < 60))
    if isGrouped whole && (part :: parts).all isPart then some (whole :: part :: parts) else none
  | _ => none

/-- The value of parts in base sixty; the last one may have a point. -/
def sexagesimalValue (parts : List Text) : Float :=
  parts.foldl (fun x p => x * 60 + ((Number.decimal? (ungroup p)).getD 0)) 0

/-- How the mark for merging is shown. -/
def mergeShown : Text := "Symbol(<<)"

namespace Version

/-- The value of a text as a boolean. -/
def bool? (v : Version) (t : Text) : Option Bool :=
  match v with
  | .v12 => boolWords.lookup t
  | .v11 => (boolWords ++ switchWords).lookup t

/-- The value of a text as a whole number. -/
def int? (v : Version) (t : Text) : Option Float :=
  let (negative, digits) := splitSign t
  match v with
  | .v12 =>
    if ("0o" : Text).isPrefixOf t ∧ areDigits 8 false (t.drop 2) then
      some (wholeNumber false 8 (t.drop 2))
    else if ("0x" : Text).isPrefixOf t ∧ areDigits 16 false (t.drop 2) then
      some (wholeNumber false 16 (t.drop 2))
    else if areDigits 10 false digits then some (wholeNumber negative 10 digits)
    else none
  | .v11 =>
    let based (base skip : Nat) : Option Float :=
      if areDigits base true (digits.drop skip) then
        some (wholeNumber negative base (ungroup (digits.drop skip)))
      else none
    if ("0b" : Text).isPrefixOf digits then based 2 2
    else if ("0x" : Text).isPrefixOf digits then based 16 2
    else if digits.head? = some (CodeUnit.ofBasic '0') ∧ areDigits 8 true (digits.drop 1) then
      based 8 1
    else if isGrouped digits then some (wholeNumber negative 10 (ungroup digits))
    else
      match sexagesimal? digits with
      | some parts => some (Number.signed negative (sexagesimalValue parts))
      | none => none

/-- A numeral of 1.1 with a point or an exponent: its digits may be grouped, and either side of the point
may be empty. -/
def isGroupedDecimal (t : Text) : Bool :=
  let mantissa := t.takeWhile fun (c : CodeUnit) => decide (c ≠ 'e') && decide (c ≠ 'E')
  let exponent := t.drop mantissa.length
  let whole := mantissa.takeWhile fun (c : CodeUnit) => decide (c ≠ '.')
  let fraction := mantissa.drop whole.length
  (whole.isEmpty || isGrouped whole)
    && (fraction.drop 1).all (fun (c : CodeUnit) => c.isDigit || decide (c = '_'))
    && (if exponent.isEmpty then !fraction.isEmpty
        else areDigits 10 false (splitSign (exponent.drop 1)).2)

/-- The value of a numeral of 1.1 with a point whose whole part is in base sixty. -/
def sexagesimalFloat? (digits : Text) : Option Float :=
  let whole := digits.takeWhile fun (c : CodeUnit) => decide (c ≠ '.')
  let fraction := digits.drop (whole.length + 1)
  if whole.length < digits.length
      ∧ fraction.all (fun (c : CodeUnit) => c.isDigit || decide (c = '_')) then
    (sexagesimal? whole).map fun parts =>
      let last := parts.getLast?.getD []
      sexagesimalValue (parts.dropLast ++ [last ++ digits.drop whole.length])
  else none

/-- The value of a text as a number with a point or an exponent. -/
def float? (v : Version) (t : Text) : Option Float :=
  let (negative, digits) := splitSign t
  match wordFloat? t with
  | some x => some x
  | none =>
    match v with
    | .v12 =>
      if digits.head?.any (fun (c : CodeUnit) => c.isDigit || decide (c = '.')) ∧ !areDigits 10 false digits then
        (Number.decimal? digits).map (Number.signed negative)
      else none
    | .v11 =>
      if isGroupedDecimal digits then
        match Number.decimal? (ungroup digits) with
        | some x => some (Number.signed negative x)
        | none => some notANumber
      else (sexagesimalFloat? digits).map (Number.signed negative)

/-- The value of a text as a member of a family, if it is written as one. -/
def read? (v : Version) (t : Text) : Family → Option Datum
  | .null => if nullWords.contains t then some (.plain .null) else none
  | .bool => (v.bool? t).map fun b => .plain (.bool b)
  | .int => (v.int? t).map fun x => .plain (.number x)
  | .float => (v.float? t).map fun x => .plain (.number x)
  | .merge => if t = "<<" then some (.other mergeShown) else none
  | .binary => some (.other (Text.Utf8.decode (Text.Base64.decode t)))
  | .timestamp => (Timestamp.ofText? t).map fun s => .other s.shown

/-- The families of plain scalars; only a key may be the mark for merging. -/
def plainFamilies (v : Version) (isKey : Bool) : List Family :=
  match v with
  | .v12 => [.null, .bool, .int, .float]
  | .v11 => [.null, .bool, .int, .float] ++ (if isKey then [.merge] else []) ++ [.timestamp]

/-- The value of a plain scalar without a tag. -/
def readPlain (v : Version) (isKey : Bool) (t : Text) : Datum :=
  ((v.plainFamilies isKey).findSome? (v.read? t)).getD (.plain (.string t))

end Version

/-- What all names of known tags begin with. -/
def coreTag : Text := "tag:yaml.org,2002:"

/-- The families by the names of their tags. -/
def familyNames : List (Text × Family) :=
  [("null", .null), ("bool", .bool), ("int", .int), ("float", .float), ("merge", .merge),
    ("binary", .binary), ("timestamp", .timestamp)]

/-- The family that a tag names. -/
def family? (tag : Text) : Option Family :=
  if coreTag.isPrefixOf tag then familyNames.lookup (tag.drop coreTag.length) else none

/-- The problem of a timestamp that is no date. -/
def noDateMessage : Text := "!!timestamp expects a date, starting with yyyy-mm-dd"

/-- The value of a scalar with a tag.  A text that is not written as the tag asks for is a string;
1.2 takes any text for the mark for merging, and a timestamp that is no date is a problem there. -/
def Version.readTagged (v : Version) (tag t : Text) : Datum × Option Text :=
  match family? tag with
  | none => (.plain (.string t), none)
  | some f =>
    match v.read? t f, v, f with
    | some d, _, _ => (d, none)
    | none, .v12, .merge => (.other mergeShown, none)
    | none, .v12, .timestamp => (.plain (.string t), some noDateMessage)
    | none, _, _ => (.plain (.string t), none)

end Yaml
end Scopewright
