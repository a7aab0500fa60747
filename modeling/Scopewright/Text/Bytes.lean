import Scopewright.Text.Class

/-! # Texts and bytes

Bytes stand for a text in UTF-8, and a text stands for bytes in Base64.

In UTF-8 a character outside ASCII takes two to four bytes, of which the first one says how many follow
(`Utf8.lead?`).  `Utf8.decode` reads any bytes: those that are no character give a mark each time
a character cannot be completed.

Base64 writes six bits as one unit (`Base64.value?`).  Of a unit only the low byte is read; the
padding ends the text, other units outside the alphabet count for nothing, and bits at the end
that make no byte are dropped. -/

namespace Scopewright
namespace Text
namespace Utf8

/-- What the first byte of a character adds to its number, how many bytes follow, and the least
character that needs so many. -/
structure Lead where
  value : Nat
  more : Nat
  least : Nat

/-- What the first byte of a character says. -/
def lead? (b : Nat) : Option Lead :=
  if b < 0x80 then some ⟨b, 0, 0⟩
  else if 0xC0 ≤ b ∧ b < 0xE0 then some ⟨b - 0xC0, 1, 0x80⟩
  else if 0xE0 ≤ b ∧ b < 0xF0 then some ⟨b - 0xE0, 2, 0x800⟩
  else if 0xF0 ≤ b ∧ b < 0xF8 then some ⟨b - 0xF0, 3, 0x10000⟩
  else none

/-- The code point is a character and needs as many bytes as its first byte says. -/
def Lead.admits (l : Lead) (n : Nat) : Bool :=
  decide (l.least ≤ n) && decide (n ≤ 0x10FFFF) && !(decide (0xD800 ≤ n) && decide (n < 0xE000))

/-- The first byte may begin a character. -/
def mayLead (b : Nat) : Bool :=
  decide (b < 0x80) || (decide (0xC2 ≤ b) && decide (b ≤ 0xF4))

/-- The second byte may follow the first one. -/
def maySecond (lead b : Nat) : Bool :=
  let low := if lead = 0xE0 then 0xA0 else if lead = 0xF0 then 0x90 else 0x80
  let high := if lead = 0xED then 0x9F else if lead = 0xF4 then 0x8F else 0xBF
  decide (low ≤ b) && decide (b ≤ high)

/-- Reads the last `more` bytes of a character: its number if all are there, and how many are. -/
def rest (value : Nat) : (more : Nat) → List Nat → Option Nat × Nat
  | 0, _ => (some value, 0)
  | _ + 1, [] => (none, 0)
  | more + 1, b :: bs =>
    if 0x80 ≤ b ∧ b < 0xC0 then
      let (n, count) := rest (value * 64 + (b - 0x80)) more bs
      (n, count + 1)
    else (none, 0)

/-- Stands for bytes that are no character. -/
def replacement : Text := [.ofNat 0xFFFD]

/-- The text of some bytes. -/
def decode (bytes : List Nat) : Text :=
  match bytes with
  | [] => []
  | b :: bs =>
    let (n, count) : Option Nat × Nat :=
      match (lead? b).filter fun _ => mayLead b with
      | none => (none, 0)
      | some l =>
        if l.more = 0 || bs.head?.any (maySecond b) then rest l.value l.more bs else (none, 0)
    (match n with
      | some n => CodeUnit.ofCodePoint n
      | none => replacement) ++ decode (bs.drop count)
termination_by bytes.length
decreasing_by
  simp only [List.length_cons, List.length_drop]
  omega

end Utf8
namespace Base64

/-- The six bits that a unit stands for; two units have a second form each. -/
def value? (c : CodeUnit) : Option Nat :=
  if c.within 'A' 'Z' then some (c.toNat - 65)
  else if c.within 'a' 'z' then some (c.toNat - 71)
  else if c.isDigit then some (c.toNat + 4)
  else if c = '+' ∨ c = '-' then some 62
  else if c = '/' ∨ c = '_' then some 63
  else none

/-- The bytes of groups of six bits. -/
def bytes : List Nat → List Nat
  | a :: b :: c :: d :: r =>
    (a * 4 + b / 16) :: (b % 16 * 16 + c / 4) :: (c % 4 * 64 + d) :: bytes r
  | [a, b, c] => [a * 4 + b / 16, b % 16 * 16 + c / 4]
  | [a, b] => [a * 4 + b / 16]
  | _ => []

/-- The unit that the low byte of a unit makes. -/
def lowByte (c : CodeUnit) : CodeUnit := .ofNat (c.toNat % 256)

/-- The bytes that a text stands for. -/
def decode (t : Text) : List Nat :=
  bytes (((t.map lowByte).takeWhile (· ≠ CodeUnit.ofBasic '=')).filterMap value?)

end Base64

end Text
end Scopewright
