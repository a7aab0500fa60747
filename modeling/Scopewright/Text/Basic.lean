/-! # Texts as sequences of 16-bit units

Every offset, column and length of this library counts 16-bit units, and texts are compared
unit by unit.  A text is therefore a list of units (`Text`), and a character outside the
basic plane is two of them (`CodeUnit.ofChar`).  A caller may hand in offsets outside the text;
they are integers, brought inside by `Text.clamp`, and `Text.between` takes what stands
between two of them.

The order on texts is the lexicographic order of their units (`Text.le`), which differs from
the order of characters above the surrogates.  Lists of texts are put into this order by `Text.sort`,
without repetitions by `Text.sortUnique`. -/

namespace Scopewright

/-- One 16-bit unit of a text. -/
structure CodeUnit where
  code : UInt16
deriving DecidableEq, Hashable, Inhabited

namespace CodeUnit

/-- The number of the unit. -/
def toNat (c : CodeUnit) : Nat := c.code.toNat

/-- The unit with the given number, modulo `2 ^ 16`. -/
def ofNat (n : Nat) : CodeUnit := ⟨n.toUInt16⟩

/-- The unit of a character of the basic plane. -/
def ofBasic (c : Char) : CodeUnit := ofNat c.toNat

instance : Coe Char CodeUnit := ⟨ofBasic⟩

instance : LT CodeUnit := ⟨fun a b => a.code < b.code⟩

instance : DecidableLT CodeUnit := fun a b => inferInstanceAs (Decidable (a.code < b.code))

instance : LE CodeUnit := ⟨fun a b => a.code ≤ b.code⟩

instance : DecidableLE CodeUnit := fun a b => inferInstanceAs (Decidable (a.code ≤ b.code))

/-- The unit lies between two others, ends included. -/
def within (c lo hi : CodeUnit) : Bool := decide (lo ≤ c) && decide (c ≤ hi)

/-- The units of the code point `n`: two surrogates from `0x10000` on. -/
def ofCodePoint (n : Nat) : List CodeUnit :=
  if n < 0x10000 then [ofNat n]
  else [ofNat (0xD800 + (n - 0x10000) / 0x400), ofNat (0xDC00 + (n - 0x10000) % 0x400)]

/-- The units of a character. -/
def ofChar (c : Char) : List CodeUnit := ofCodePoint c.toNat

/-- The first unit of a surrogate pair. -/
def isLeadSurrogate (c : CodeUnit) : Bool := c.within (ofNat 0xD800) (ofNat 0xDBFF)

/-- The second unit of a surrogate pair. -/
def isTrailSurrogate (c : CodeUnit) : Bool := c.within (ofNat 0xDC00) (ofNat 0xDFFF)

end CodeUnit

/-- A text. -/
abbrev Text := List CodeUnit

/-- The part of a text from `start` up to, not including, `stop`. -/
structure Span where
  start : Int
  stop : Int
deriving DecidableEq, Repr, Inhabited

namespace Span

/-- The span of `length` units at `start`. -/
def ofLength (start length : Nat) : Span := ⟨start, start + length⟩

/-- Earlier spans first; of two that start together the shorter one. -/
def le (a b : Span) : Bool :=
  decide (a.start < b.start) || (decide (a.start = b.start) && decide (a.stop ≤ b.stop))

end Span

namespace Text

/-- The units of a string of characters. -/
def ofString (s : String) : Text := s.toList.flatMap CodeUnit.ofChar

instance : Coe String Text := ⟨ofString⟩

/-- The units of each of several strings. -/
def ofStrings (ss : List String) : List Text := ss.map ofString

/-- The text of a natural number in decimal. -/
def ofNat (n : Nat) : Text := ofString (toString n)

/-- The text of an integer in decimal. -/
def ofInt (n : Int) : Text := ofString (toString n)

/-- Lexicographic order by units. -/
def le (a b : Text) : Bool := !decide (b < a)

variable (t : Text)

/-- An offset brought into the text. -/
def clamp (offset : Int) : Nat := min offset.toNat t.length

/-- What stands between two offsets, in either order, each brought into the text. -/
def between (a b : Int) : Text :=
  (t.drop (min (t.clamp a) (t.clamp b))).take
    (max (t.clamp a) (t.clamp b) - min (t.clamp a) (t.clamp b))

/-- What stands from an offset on. -/
def «from» (a : Int) : Text := t.drop (t.clamp a)

/-- What stands before an offset. -/
def upTo (a : Int) : Text := t.take (t.clamp a)

/-- The unit occurs in the text. -/
def contains (c : CodeUnit) : Bool := t.any fun d => decide (d = c)

/-- `needle` occurs in the text. -/
def has (needle : Text) : Text → Bool
  | [] => needle.isEmpty
  | c :: r => needle.isPrefixOf (c :: r) || has needle r

/-- Distance to the first occurrence of `needle`. -/
def find? (needle : Text) : Text → Option Nat
  | [] => if needle.isEmpty then some 0 else none
  | c :: r => if needle.isPrefixOf (c :: r) then some 0 else (find? needle r).map (· + 1)

/-- Offset of the first occurrence of `needle` at or after `start`. -/
def findFrom? (needle : Text) (start : Nat) : Option Nat :=
  (find? needle (t.drop start)).map (min start t.length + ·)

/-- Offset of the first unit equal to `c` at or after `start`. -/
def indexFrom? (c : CodeUnit) (start : Nat) : Option Nat :=
  ((t.drop start).findIdx? (· = c)).map (start + ·)

/-- Offset of the last unit equal to `c`. -/
def lastIndex? (c : CodeUnit) : Option Nat :=
  (t.reverse.findIdx? (· = c)).map (t.length - 1 - ·)

/-- The texts between the occurrences of a unit; one more than there are occurrences. -/
def splitOn (c : CodeUnit) : Text → List Text
  | [] => [[]]
  | d :: r =>
    if d = c then [] :: splitOn c r
    else match splitOn c r with
      | [] => [[d]]
      | part :: parts => (d :: part) :: parts

/-- The texts in order, with `sep` between neighbours. -/
def join (sep : Text) (parts : List Text) : Text := sep.intercalate parts

/-- Every unit equal to `c` replaced by a text. -/
def replaceUnit (c : CodeUnit) (by' : Text) : Text :=
  t.flatMap fun d => if d = c then by' else [d]

/-- The first part without its last `n` units. -/
def dropEnd (n : Nat) : Text := t.take (t.length - n)

/-! ### Sorted texts -/

/-- The texts in order. -/
def sort (ts : List Text) : List Text := ts.mergeSort le

/-- Without a text that is equal to the one before it. -/
def dropRepeated : List Text → List Text
  | [] => []
  | [t] => [t]
  | t :: u :: ts => if t = u then dropRepeated (u :: ts) else t :: dropRepeated (u :: ts)

/-- The texts in order, each of them once. -/
def sortUnique (ts : List Text) : List Text := dropRepeated (sort ts)

end Text
end Scopewright
