import Scopewright.Cursor.Basic
import Scopewright.Dialect
import Scopewright.Json.Quoted
import Scopewright.Markup.Reference

/-! # Inserted text

A value is put into a document in the document's notation, so that it reads back as the value
(`Completion.insertion`).  Inside a string it is escaped for that string; in place of a whole
bare token it gets the delimiters that the notation needs. -/

namespace Scopewright
namespace Completion

/-- How a value is put in. -/
structure InsertionMode where
  /-- It replaces the whole token. -/
  wholeToken : Bool
  /-- It is no string and stands without quotes. -/
  literal : Bool
deriving DecidableEq, Repr, Inhabited

/-- A unit that a plain YAML scalar may not begin with. -/
def isYamlIndicator (c : CodeUnit) : Bool :=
  Text.contains "-?:,[]\x7b\x7d#&*!|>'\"%@" c || decide (c.toNat = 96)

/-- A colon before white space or at the end, or a number sign behind white space. -/
def breaksPlain : Text → Bool
  | [] => false
  | [c] => decide (c = ':')
  | c :: d :: r =>
    (decide (c = ':') && d.isBlank) || (c.isBlank && decide (d = '#')) || breaksPlain (d :: r)

/-- A plain YAML scalar would not read back as the value. -/
def needsYamlQuotes (value : Text) : Bool :=
  value.isEmpty || decide (value ≠ value.trim) || value.head?.any isYamlIndicator
    || breaksPlain value

/-- A value between single quotes: each single quote is written twice. -/
def doubleQuotes (value : Text) : Text := Text.replaceUnit value '\'' "''"

/-- An element around a text. -/
def element (name body : Text) : Text :=
  ("<" : Text) ++ name ++ (">" : Text) ++ body ++ ("</" : Text) ++ name ++ (">" : Text)

/-- The text that puts a value in place of a token. -/
def insertion (value : Text) (token : Cursor.Token) (format : Format) (mode : InsertionMode) :
    Text :=
  match format with
  | .json =>
    if token.quote = some .double then Json.Quoted.escape value
    else if mode.wholeToken && !mode.literal then Json.Quoted.encode value
    else value
  | .yaml =>
    match token.quote with
    | some .single => doubleQuotes value
    | some .double => Json.Quoted.escape value
    | none =>
      if mode.wholeToken && !mode.literal && needsYamlQuotes value then
        ("'" : Text) ++ doubleQuotes value ++ ("'" : Text)
      else value
  | .plist =>
    let escaped := Markup.Reference.escape value
    if token.element.isSome || !mode.wholeToken then escaped
    else if token.position = .key then element "key" escaped
    else if mode.literal then ("<" : Text) ++ escaped ++ ("/>" : Text)
    else element "string" escaped
  | .xml =>
    let escaped := Markup.Reference.escape value
    if token.element.isSome || !mode.wholeToken || token.position ≠ .key then escaped
    else element escaped []
  | .text => value

end Completion
end Scopewright
