import Scopewright.Text.Basic

/-! # Classes of units

White space is the Unicode set together with the byte order mark and without U+0085
(`CodeUnit.isBlank`); word characters and digits are the ASCII ones.  A line terminator ends
what "any character" matches (`CodeUnit.endsLine`).  Each class comes with the trimming and
splitting it gives rise to. -/

namespace Scopewright
namespace CodeUnit

variable (c : CodeUnit)

/-- White space, line breaks included. -/
def isBlank : Bool :=
  c.within (ofNat 9) (ofNat 13) || decide (c = ' ') || decide (c = ofNat 0xA0)
    || decide (c = ofNat 0x1680) || c.within (ofNat 0x2000) (ofNat 0x200A)
    || decide (c = ofNat 0x2028) || decide (c = ofNat 0x2029) || decide (c = ofNat 0x202F)
    || decide (c = ofNat 0x205F) || decide (c = ofNat 0x3000) || decide (c = ofNat 0xFEFF)

/-- A line break or a Unicode line or paragraph separator. -/
def endsLine : Bool :=
  decide (c = '\n') || decide (c = '\r') || decide (c = ofNat 0x2028) || decide (c = ofNat 0x2029)

/-- An ASCII digit. -/
def isDigit : Bool := c.within '0' '9'

/-- An ASCII letter. -/
def isLetter : Bool := c.within 'a' 'z' || c.within 'A' 'Z'

/-- An ASCII letter, digit or underscore. -/
def isWord : Bool := c.isLetter || c.isDigit || decide (c = '_')

/-- A hexadecimal digit in either case. -/
def isHexDigit : Bool := c.isDigit || c.within 'a' 'f' || c.within 'A' 'F'

/-- The value of a hexadecimal digit. -/
def hexValue : Nat :=
  if c.isDigit then c.toNat - 48
  else if c.within 'a' 'f' then c.toNat - 87
  else if c.within 'A' 'F' then c.toNat - 55
  else 0

/-- The lower-case form of an ASCII letter; any other unit as it is. -/
def toLowerAscii : CodeUnit := if c.within 'A' 'Z' then ofNat (c.toNat + 32) else c

end CodeUnit

namespace Text

variable (t : Text)

/-- Without the white space at its start. -/
def trimStart : Text := t.dropWhile CodeUnit.isBlank

/-- Without the white space at its end. -/
def trimEnd : Text := (t.reverse.dropWhile CodeUnit.isBlank).reverse

/-- Without the white space at either end. -/
def trim : Text := trimEnd (trimStart t)

/-- The value of a run of digits in the given base. -/
def natValue (base : Nat) : Nat := t.foldl (fun n c => n * base + c.hexValue) 0

/-- The texts between runs of white space; a run at either end leaves an empty one there. -/
def splitBlank (t : Text) : List Text :=
  let word := t.takeWhile (!·.isBlank)
  match _h : t.dropWhile (!·.isBlank) with
  | [] => [word]
  | _ :: rest => word :: splitBlank (rest.dropWhile CodeUnit.isBlank)
termination_by t.length
decreasing_by
  have h₁ := (List.dropWhile_sublist (fun c : CodeUnit => !c.isBlank) (l := t)).length_le
  have h₂ := (List.dropWhile_sublist CodeUnit.isBlank (l := rest)).length_le
  rw [_h] at h₁
  simp only [List.length_cons] at h₁
  omega

/-- The words of a text: what stands between runs of white space, empty texts left out. -/
def words : List Text := t.splitBlank.filter (!·.isEmpty)

end Text
end Scopewright
