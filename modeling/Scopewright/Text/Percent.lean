import Scopewright.Text.Bytes

/-! # Percent escapes

A byte is written as a percent sign and two hexadecimal digits, and a character outside ASCII as the
bytes of its UTF-8 form.  `Percent.decode?` reads a text in which all escapes are well formed;
`Percent.decodeLoosely` leaves the ones that are not as they are. -/

namespace Scopewright
namespace Text
namespace Percent

/-- The byte that an escape stands for. -/
def byte? (t : Text) : Option Nat :=
  match t with
  | p :: h :: l :: _ =>
    if p = '%' ∧ h.isHexDigit ∧ l.isHexDigit then some (h.hexValue * 16 + l.hexValue) else none
  | _ => none

/-- Reads `more` escapes of bytes that go on a character. -/
def continued? (value : Nat) : (more : Nat) → Text → Option Nat
  | 0, _ => some value
  | more + 1, t =>
    match byte? t with
    | some b =>
      if 0x80 ≤ b ∧ b < 0xC0 then continued? (value * 64 + (b - 0x80)) more (t.drop 3) else none
    | none => none

/-- The character that escapes at the front of a text stand for, and how many they are. -/
def character? (t : Text) : Option (Nat × Nat) := do
  let lead ← Utf8.lead? (← byte? t)
  let n ← continued? lead.value lead.more (t.drop 3)
  if lead.admits n then some (n, lead.more + 1) else none

/-- The text that a text with escapes stands for, if all of them are well formed. -/
def decode? (t : Text) : Option Text :=
  match t with
  | [] => some []
  | c :: r =>
    if c = '%' then
      match character? (c :: r) with
      | some (n, count) => (decode? (r.drop (3 * count - 1))).map (CodeUnit.ofCodePoint n ++ ·)
      | none => none
    else (decode? r).map (c :: ·)
termination_by t.length

/-- A percent sign with two letters or digits. -/
def isEscape (t : Text) : Bool :=
  match t with
  | p :: a :: b :: _ =>
    decide (p = '%') && (a.isLetter || a.isDigit) && (b.isLetter || b.isDigit)
  | _ => false

/-- The text of a run of escapes; when the run cannot be read, its first escape stays. -/
def decodeRun (run : Text) : Text :=
  match decode? run with
  | some t => t
  | none => if run.length ≤ 3 then run else run.take 3 ++ decodeRun (run.drop 3)
termination_by run.length

/-- The number of escapes at the front of a text. -/
def runLength (t : Text) : Nat := if _h : isEscape t then runLength (t.drop 3) + 1 else 0
termination_by t.length
decreasing_by
  match t, _h with
  | _ :: _ :: _ :: r, _ => simp only [List.drop_succ_cons, List.drop_zero, List.length_cons]; omega
  | [], h => simp [isEscape] at h
  | [_], h => simp [isEscape] at h
  | [_, _], h => simp [isEscape] at h

/-- The text that a text with escapes stands for, escapes that cannot be read left as they are. -/
def decodeLoosely (t : Text) : Text :=
  match t with
  | [] => []
  | c :: r =>
    let n := runLength (c :: r)
    if n = 0 then c :: decodeLoosely r
    else decodeRun ((c :: r).take (3 * n)) ++ decodeLoosely (r.drop (3 * n - 1))
termination_by t.length

end Percent
end Text
end Scopewright
