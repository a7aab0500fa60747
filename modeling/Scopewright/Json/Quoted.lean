import Scopewright.Text.Class

/-! # Quoted strings

The body of a string in double quotes.  `Quoted.escape` writes a text so that it can stand
between quotes: quotes, backslashes and control characters are escaped, and so is a surrogate
without its partner.  `Quoted.unescape` reads a body that may still be incomplete, in three
passes: escapes by number, escapes by letter, a backslash at the very end.  `Quoted.isClosed`
tells whether a literal ends with its own closing quote. -/

namespace Scopewright
namespace Json
namespace Quoted

/-- The backslash. -/
def backslash : CodeUnit := '\\'

/-- The double quote. -/
def quote : CodeUnit := '"'

/-- What is left of a literal behind its opening quote ends with the closing quote. -/
def closes : Text → Bool
  | [] => false
  | [c] => decide (c = quote)
  | c :: d :: r =>
    if c = backslash then closes r
    else if c = quote then false
    else closes (d :: r)

/-- The literal, its opening quote included, is closed by its last unit. -/
def isClosed (literal : Text) : Bool := closes (literal.drop 1)

/-- A digit of base sixteen in lower case. -/
def hexDigit (n : Nat) : CodeUnit := .ofNat (if n < 10 then 48 + n else 87 + n)

/-- The escape of a unit by its number. -/
def byNumber (c : CodeUnit) : Text :=
  [backslash, 'u', hexDigit (c.toNat / 4096), hexDigit (c.toNat / 256 % 16),
    hexDigit (c.toNat / 16 % 16), hexDigit (c.toNat % 16)]

/-- One unit that is not half of a surrogate pair, as it stands between quotes. -/
def escapeUnit (c : CodeUnit) : Text :=
  if c = quote then "\\\""
  else if c = backslash then "\\\\"
  else if c = '\n' then "\\n"
  else if c = '\r' then "\\r"
  else if c = '\t' then "\\t"
  else if c.toNat = 8 then "\\b"
  else if c.toNat = 12 then "\\f"
  else if c.toNat < 32 ∨ c.isLeadSurrogate ∨ c.isTrailSurrogate then byNumber c
  else [c]

/-- A text as it stands between quotes. -/
def escape : Text → Text
  | [] => []
  | [c] => escapeUnit c
  | c :: d :: r =>
    if c.isLeadSurrogate && d.isTrailSurrogate then c :: d :: escape r
    else escapeUnit c ++ escape (d :: r)

/-- A text in double quotes. -/
def encode (t : Text) : Text := quote :: (escape t ++ [quote])

/-- Replaces the escapes by number. -/
def readNumbers : Text → Text
  | a :: u :: h₁ :: h₂ :: h₃ :: h₄ :: r =>
    if a = backslash ∧ u = 'u' ∧ [h₁, h₂, h₃, h₄].all CodeUnit.isHexDigit then
      .ofNat (Text.natValue [h₁, h₂, h₃, h₄] 16) :: readNumbers r
    else a :: readNumbers (u :: h₁ :: h₂ :: h₃ :: h₄ :: r)
  | t => t

/-- What an escaped unit stands for. -/
def ofLetter (c : CodeUnit) : CodeUnit :=
  if c = 'n' then '\n'
  else if c = 't' then '\t'
  else if c = 'r' then '\r'
  else if c = 'b' then .ofNat 8
  else if c = 'f' then .ofNat 12
  else c

/-- Replaces the escapes by letter; a backslash before the end of a line stays. -/
def readLetters : Text → Text
  | a :: c :: r =>
    if a = backslash then
      if c.endsLine then a :: readLetters (c :: r) else ofLetter c :: readLetters r
    else a :: readLetters (c :: r)
  | t => t

/-- Removes a backslash at the end. -/
def dropOpenEscape (t : Text) : Text :=
  if t.getLast? = some backslash then t.dropLast else t

/-- What the body of a string stands for. -/
def unescape (body : Text) : Text := dropOpenEscape (readLetters (readNumbers body))

end Quoted
end Json
end Scopewright
