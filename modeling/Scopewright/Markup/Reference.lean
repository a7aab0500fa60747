import Scopewright.Number.Shortest

/-! # Character references

A reference names a character (`&amp;`) or gives its number (`&#38;`, `&#x26;`).

* `Reference.readStrict` reads the character data of a whole document.  A number that is no
  character stands for the replacement character, and the numbers of the C1 controls for the
  characters that the Windows code page has there.
* `Reference.read` reads character data up to the cursor.  It takes a number at its word, so one
  above the last code point is an error, and a name that no entity has is kept as it stands;
  the names in `Reference.bound` read as the text of what they are bound to. -/

namespace Scopewright
namespace Markup
namespace Reference

/-- The characters with a name. -/
def named : List (Text × CodeUnit) :=
  [("amp", '&'), ("lt", '<'), ("gt", '>'), ("quot", '"'), ("apos", '\'')]

/-- The number of a reference: decimal digits, or hexadecimal ones behind a mark. -/
def number? (hexMarks : List CodeUnit) (body : Text) : Option Nat :=
  match body with
  | [] => none
  | c :: ds =>
    if c ∈ hexMarks then
      if ds ≠ [] ∧ ds.all CodeUnit.isHexDigit then some (Text.natValue ds 16) else none
    else if (c :: ds).all CodeUnit.isDigit then some (Text.natValue (c :: ds) 10) else none

/-! ### Whole documents -/

/-- Code points that stand for another one. -/
def replaced : List (Nat × Nat) := [
  (0, 0xFFFD), (128, 8364), (130, 8218), (131, 402), (132, 8222), (133, 8230), (134, 8224),
  (135, 8225), (136, 710), (137, 8240), (138, 352), (139, 8249), (140, 338), (142, 381),
  (145, 8216), (146, 8217), (147, 8220), (148, 8221), (149, 8226), (150, 8211), (151, 8212),
  (152, 732), (153, 8482), (154, 353), (155, 8250), (156, 339), (158, 382), (159, 376)]

/-- The code point that a number stands for. -/
def codePoint (n : Nat) : Nat :=
  if (0xD800 ≤ n ∧ n ≤ 0xDFFF) ∨ 0x10FFFF < n then 0xFFFD else (replaced.lookup n).getD n

/-- What the body of a reference stands for in a document. -/
def strict? (body : Text) : Option Text :=
  match body with
  | [] => none
  | c :: r =>
    if c = '#' then (number? ['x', 'X'] r).map fun n => CodeUnit.ofCodePoint (codePoint n)
    else (named.lookup body).map fun d => [d]

/-- The longest body that is tried; a number may have any length. -/
def bodyEnd (t : Text) : Text := t.takeWhile fun c => c.isWord || decide (c = '#')

/-- Character data with its references replaced, `skip` more units of one being passed over. -/
def readStrictFrom (skip : Nat) : Text → Text
  | [] => []
  | c :: r =>
    match skip with
    | k + 1 => readStrictFrom k r
    | 0 =>
      if c = '&' then
        let body := bodyEnd r
        if (r.drop body.length).head? = some (CodeUnit.ofBasic ';') then
          match strict? body with
          | some t => t ++ readStrictFrom (body.length + 1) r
          | none => c :: readStrictFrom 0 r
        else c :: readStrictFrom 0 r
      else c :: readStrictFrom 0 r

/-- Character data of a document with its references replaced. -/
def readStrict (t : Text) : Text := readStrictFrom 0 t

/-! ### Data before the cursor -/

/-- Names that are bound without being entities, with what a reference to them reads as. -/
def bound : List (Text × Text) :=
  [("constructor", "Object"), ("toString", "toString"), ("toLocaleString", "toLocaleString"),
    ("valueOf", "valueOf"), ("hasOwnProperty", "hasOwnProperty"),
    ("isPrototypeOf", "isPrototypeOf"), ("propertyIsEnumerable", "propertyIsEnumerable"),
    ("__defineGetter__", "__defineGetter__"), ("__defineSetter__", "__defineSetter__"),
    ("__lookupGetter__", "__lookupGetter__"), ("__lookupSetter__", "__lookupSetter__")].map
    (fun (b : String × String) =>
      (Text.ofString b.1, "function " ++ Text.ofString b.2 ++ "() \x7b [native code] \x7d"))
  ++ [(Text.ofString "__proto__", Text.ofString "[object Object]")]

/-- A number above the last code point. -/
structure OutOfRange where
  number : Nat
deriving DecidableEq, Repr

/-- The wording of the error. -/
def OutOfRange.message (e : OutOfRange) : Text :=
  "Invalid code point " ++ Number.render (Number.nearest e.number 1)

/-- The character of a number. -/
def ofNumber (n : Nat) : Except OutOfRange Text :=
  if 0x10FFFF < n then .error ⟨n⟩ else .ok (CodeUnit.ofCodePoint n)

/-- What a reference stands for; nothing when the body is not that of a reference. -/
def typed? (body : Text) : Option (Except OutOfRange Text) :=
  match body with
  | [] => none
  | c :: r =>
    if c = '#' then (number? ['x'] r).map ofNumber
    else if body.all CodeUnit.isWord then
      some (.ok (match named.lookup body with
        | some d => [d]
        | none => (bound.lookup body).getD ("&" ++ body ++ ";")))
    else none

/-- Character data before the cursor, `skip` more units of a reference being passed over. -/
def readFrom (skip : Nat) : Text → Except OutOfRange Text
  | [] => .ok []
  | c :: r =>
    match skip with
    | k + 1 => readFrom k r
    | 0 =>
      if c = '&' then
        let body := bodyEnd r
        if (r.drop body.length).head? = some (CodeUnit.ofBasic ';') then
          match typed? body with
          | some (.ok t) => (readFrom (body.length + 1) r).map (t ++ ·)
          | some (.error e) => .error e
          | none => (readFrom 0 r).map (c :: ·)
        else (readFrom 0 r).map (c :: ·)
      else (readFrom 0 r).map (c :: ·)

/-- Character data before the cursor with its references replaced; the first number that is too
large is the error. -/
def read (t : Text) : Except OutOfRange Text := readFrom 0 t

/-- A text as character data. -/
def escape (t : Text) : Text :=
  t.flatMap fun (c : CodeUnit) =>
    if c = '&' then Text.ofString "&amp;"
    else if c = '<' then Text.ofString "&lt;"
    else if c = '>' then Text.ofString "&gt;"
    else [c]

end Reference
end Markup
end Scopewright
