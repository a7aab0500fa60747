import Scopewright.Text.Class

/-! # Reading numbers exactly

A numeral denotes a rational number, and the double it stands for is the nearest one, ties
going to the even neighbour (`Number.nearest`).  All arithmetic is on natural numbers: the
quotient is scaled until it has 53 bits, or as many as the smallest exponent leaves.
`Number.ofDecimal` reads digits with a power of ten, and `Number.ofText?` reads a whole text
as a numeral: decimal, or in base 16, 8 or 2 behind its mark, with white space around it. -/

namespace Scopewright
namespace Number

/-- A power of two. -/
def twoTo (n : Nat) : Nat := Nat.pow 2 n

/-- A power of ten. -/
def tenTo (n : Nat) : Nat := Nat.pow 10 n

/-- The sign bit of a double. -/
def signBit : UInt64 := 0x8000000000000000

/-- The bits of positive infinity. -/
def infinityBits : UInt64 := 0x7FF0000000000000

/-- Quotient and remainder of `num / den` after division by `2 ^ e`. -/
def scaledDiv (num den : Nat) (e : Int) : Nat × Nat × Nat :=
  let n := num * twoTo (-e).toNat
  let d := den * twoTo e.toNat
  (n / d, n % d, d)

/-- A quotient rounded to the nearest whole number, a tie to the even one. -/
def roundEven (q r d : Nat) : Nat :=
  if 2 * r < d then q
  else if d < 2 * r then q + 1
  else if q % 2 = 0 then q else q + 1

/-- The bits of the nonnegative double nearest to `num / den`. -/
def nearestBits (num den : Nat) : UInt64 :=
  if num = 0 ∨ den = 0 then 0
  else
    let guess : Int := num.log2 - den.log2 - 52
    let e := if (scaledDiv num den guess).1 < twoTo 52 then guess - 1 else guess
    let e := max e (-1074)
    let (q, r, d) := scaledDiv num den e
    let m := roundEven q r d
    if 972 ≤ e then infinityBits
    else if e = -1074 then m.toUInt64
    else ((e + 1075).toNat * twoTo 52 + (m - twoTo 52)).toUInt64

/-- The nonnegative double nearest to `num / den`. -/
def nearest (num den : Nat) : Float := Float.ofBits (nearestBits num den)

/-- A magnitude with a sign; zero keeps its sign. -/
def signed (negative : Bool) (x : Float) : Float := if negative then -x else x

/-- The double nearest to `digits · 10 ^ exponent`.  Exponents far outside the range of a
double are answered without computing the power. -/
def ofDecimal (digits : Nat) (exponent : Int) : Float :=
  if digits = 0 then 0
  else if 320 < (digits.log2 : Int) * 3 / 10 + exponent then Float.ofBits infinityBits
  else if ((digits.log2 : Int) + 1) * 31 / 100 + exponent < -340 then 0
  else nearest (digits * tenTo exponent.toNat) (tenTo (-exponent).toNat)

/-- The value of an unsigned decimal numeral given by its whole digits, its digits after the
point and its exponent. -/
def ofParts (whole fraction : Text) (exponent : Int) : Float :=
  ofDecimal (Text.natValue (whole ++ fraction) 10) (exponent - fraction.length)

/-- The exponent part of a numeral: nothing, or a mark with an optional sign and digits. -/
def exponent? (t : Text) : Option Int :=
  match t with
  | [] => some 0
  | mark :: r =>
    if mark = 'e' ∨ mark = 'E' then
      let (negative, ds) : Bool × Text := match r with
        | [] => (false, [])
        | c :: ds => if c = '-' then (true, ds) else if c = '+' then (false, ds) else (false, c :: ds)
      if ds.isEmpty ∨ !ds.all CodeUnit.isDigit then none
      else
        let n : Int := Text.natValue ds 10
        some (if negative then -n else n)
    else none

/-- The value of an unsigned decimal numeral: digits with an optional point, at least one of
them, and an optional exponent. -/
def decimal? (t : Text) : Option Float :=
  let whole := t.takeWhile CodeUnit.isDigit
  let rest := t.dropWhile CodeUnit.isDigit
  let (fraction, rest) : Text × Text := match rest with
    | [] => ([], [])
    | c :: r => if c = '.' then (r.takeWhile CodeUnit.isDigit, r.dropWhile CodeUnit.isDigit)
                else ([], c :: r)
  if whole.isEmpty ∧ fraction.isEmpty then none
  else (exponent? rest).map (ofParts whole fraction)

/-- The nonnegative whole number that digits of a base denote, if they are digits of it. -/
def inBase? (base : Nat) (t : Text) : Option Float :=
  if t.isEmpty ∨ !(t.all fun c => c.isHexDigit && decide (c.hexValue < base)) then none
  else some (nearest (t.natValue base) 1)

/-- The value of an unsigned numeral or of the word for infinity. -/
def magnitude? (t : Text) : Option Float :=
  if t = "Infinity" then some (Float.ofBits infinityBits) else decimal? t

/-- The value of a text as a number, white space at either end aside.  A text of nothing else
is zero; a base mark takes no sign. -/
def ofText? (t : Text) : Option Float :=
  match t.trim with
  | [] => some 0
  | c :: r =>
    if c = '-' then (magnitude? r).map (signed true)
    else if c = '+' then magnitude? r
    else match c, r with
      | z, mark :: ds =>
        if z = '0' ∧ (mark = 'x' ∨ mark = 'X') then inBase? 16 ds
        else if z = '0' ∧ (mark = 'o' ∨ mark = 'O') then inBase? 8 ds
        else if z = '0' ∧ (mark = 'b' ∨ mark = 'B') then inBase? 2 ds
        else magnitude? (c :: r)
      | _, [] => magnitude? [c]

end Number
end Scopewright
