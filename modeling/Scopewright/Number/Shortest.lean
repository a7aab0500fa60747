import Scopewright.Number.Nearest

/-! # Writing numbers

The digits of a double are the fewest that read back as it; of those the ones nearest to it,
an exact tie going to the even last digit (`Number.shortest`).  The double is `m · 2 ^ q`, and
the numbers that read back as it form an interval around it whose ends belong to it when `m`
is even; the two neighbours on the decimal grid of each digit count are tried against that
interval.

`Number.render` writes positional notation from `10⁻⁶` up to `10²¹` and an exponent with its
sign beyond, a whole number without a point. -/

namespace Scopewright
namespace Number

/-- A positive double as `mantissa · 2 ^ exponent`. -/
structure Binary where
  mantissa : Nat
  exponent : Int

/-- The parts of a finite double, its sign aside. -/
def Binary.ofFloat (x : Float) : Binary :=
  let bits := x.toBits.toNat
  let field : Nat := bits / twoTo 52 % twoTo 11
  let low : Nat := bits % twoTo 52
  if field = 0 then ⟨low, -1074⟩ else ⟨low + twoTo 52, (field : Int) - 1075⟩

namespace Binary

variable (b : Binary)

/-- Compares `a · 10 ^ p` with `x · 2 ^ (exponent - 2)`. -/
def compareGrid (a : Nat) (p : Int) (x : Nat) : Ordering :=
  let e := b.exponent - 2
  compare (a * tenTo p.toNat * twoTo (-e).toNat) (x * twoTo e.toNat * tenTo (-p).toNat)

/-- Four times the mantissa, so that the ends of the interval are whole. -/
def centre : Nat := 4 * b.mantissa

/-- The lower end of the interval; the gap below a power of two is half as wide. -/
def lower : Nat :=
  if b.mantissa = twoTo 52 ∧ b.exponent ≠ -1074 then b.centre - 1 else b.centre - 2

/-- The upper end of the interval. -/
def upper : Nat := b.centre + 2

/-- `a · 10 ^ p` reads back as the double. -/
def readsBack (a : Nat) (p : Int) : Bool :=
  let even := b.mantissa % 2 = 0
  let low := b.compareGrid a p b.lower
  let high := b.compareGrid a p b.upper
  (low == .gt || (low == .eq && decide even)) && (high == .lt || (high == .eq && decide even))

/-- The number of decimal digits before the point; nonpositive for zeros after it. -/
def magnitude : Int :=
  let guess := ((b.mantissa.log2 : Int) + b.exponent) * 30103 / 100000
  if b.compareGrid 1 (guess + 1) b.centre != .gt then guess + 2
  else if b.compareGrid 1 guess b.centre == .gt then guess
  else guess + 1

/-- The largest multiple of `10 ^ p` that is not above the double, in units of `10 ^ p`. -/
def floorAt (p : Int) : Nat :=
  (b.mantissa * twoTo b.exponent.toNat * tenTo (-p).toNat)
    / (tenTo p.toNat * twoTo (-b.exponent).toNat)

/-- The neighbour on the grid of `10 ^ p` that reads back, the nearer of two. -/
def onGrid? (p : Int) : Option Nat :=
  let a := b.floorAt p
  match decide (0 < a) && b.readsBack a p, b.readsBack (a + 1) p with
  | true, true =>
    match b.compareGrid (2 * a + 1) p (2 * b.centre) with
    | .gt => some a
    | .lt => some (a + 1)
    | .eq => some (if a % 2 = 0 then a else a + 1)
  | true, false => some a
  | false, true => some (a + 1)
  | false, false => none

/-- Tries grids of growing fineness, `fuel` of them. -/
def search (n : Int) (k : Nat) : Nat → Nat × Int
  | 0 => (b.floorAt (n - k), n - k)
  | fuel + 1 =>
    match b.onGrid? (n - k) with
    | some a => (a, n - k)
    | none => search n (k + 1) fuel

end Binary

/-- Removes the zeros at the end of a digit string. -/
def stripZeros (ds : Text) : Text := (ds.reverse.dropWhile (· = CodeUnit.ofBasic '0')).reverse

/-- The shortest digits of a positive double and the place of the point after them: `(ds, n)`
stands for `0.ds · 10 ^ n`. -/
def shortest (x : Float) : Text × Int :=
  let b := Binary.ofFloat x
  let (a, p) := b.search b.magnitude 1 17
  let ds := Text.ofNat a
  (stripZeros ds, ds.length + p)

/-- A number of zeros. -/
def zeros (n : Nat) : Text := List.replicate n (CodeUnit.ofBasic '0')

/-- The text of a positive finite double. -/
def renderPositive (x : Float) : Text :=
  let (ds, n) := shortest x
  let k := ds.length
  if k ≤ n ∧ n ≤ 21 then ds ++ zeros (n.toNat - k)
  else if 0 < n ∧ n ≤ 21 then ds.take n.toNat ++ "." ++ ds.drop n.toNat
  else if -6 < n ∧ n ≤ 0 then "0." ++ zeros (-n).toNat ++ ds
  else
    let e := n - 1
    let mark : Text := if 0 ≤ e then "e+" else "e-"
    let fraction : Text := if k = 1 then [] else "." ++ ds.drop 1
    ds.take 1 ++ fraction ++ mark ++ Text.ofNat e.natAbs

/-- The text of a number. -/
def render (x : Float) : Text :=
  if x.isNaN then "NaN"
  else if x == 0 then "0"
  else
    let size := Float.ofBits (x.toBits &&& (infinityBits ||| 0x000FFFFFFFFFFFFF))
    let sign : Text := if x < 0 then "-" else []
    sign ++ (if x.isInf then Text.ofString "Infinity" else renderPositive size)

end Number
end Scopewright
