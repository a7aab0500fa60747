import Scopewright.Yaml.Report

/-! # Scalars on a line

The value of a plain scalar and of one in quotes.  Line breaks inside are folded: one break is a
space, and of several all but the first stay (`Yaml.foldLines`).  In double quotes a backslash
begins an escape (`Yaml.doubleQuoted`). -/

namespace Scopewright
namespace Yaml

/-- Without blanks at its start. -/
def trimLeft (t : Text) : Text := t.dropWhile isInline

/-- Without blanks at its end. -/
def trimRight (t : Text) : Text := (t.reverse.dropWhile isInline).reverse

/-- A line without a carriage return at its end. -/
def dropReturn (line : Text) : Text :=
  if line.getLast? = some (CodeUnit.ofBasic '\r') then line.dropLast else line

/-- Lines behind the first one, `sep` being what comes before the next one that is not empty. -/
def foldRest (sep : Text) : List Text → Text
  | [] => []
  | [last] => sep ++ trimLeft last
  | line :: lines =>
    let content := trimLeft (trimRight (dropReturn line))
    if content.isEmpty then
      if sep = "\n" then sep ++ foldRest sep lines else foldRest "\n" lines
    else sep ++ content ++ foldRest " " lines

/-- A text with its line breaks folded. -/
def foldLines (t : Text) : Text :=
  match Text.splitOn '\n' t with
  | first :: second :: rest => trimRight (dropReturn first) ++ foldRest " " (second :: rest)
  | _ => t

/-- What a plain scalar may not start with, if it does. -/
def badStart? (c : CodeUnit) : Option Text :=
  if c = '\t' then some "a tab character"
  else if c = ',' then some "flow indicator character ,"
  else if c = '%' then some "directive indicator character %"
  else if c = '|' ∨ c = '>' then some (("block scalar indicator " : Text) ++ [c])
  else if c = '@' ∨ c.toNat = 96 then some (("reserved character " : Text) ++ [c])
  else none

/-- The value of a plain scalar. -/
def plainValue (offset : Nat) (source : Text) : Report Text := do
  match source.head?.bind badStart? with
  | some what => Report.at' offset (("Plain value cannot start with " : Text) ++ what)
  | none => pure ()
  return foldLines source

/-- Two single quotes are one. -/
def joinQuotes : Text → Text
  | [] => []
  | [c] => [c]
  | c :: d :: r =>
    if c = '\'' ∧ d = '\'' then c :: joinQuotes r else c :: joinQuotes (d :: r)

/-- The value of a scalar in single quotes. -/
def singleQuoted (offset : Nat) (source : Text) : Report Text := do
  if source.length = 1 ∨ source.getLast? ≠ some (CodeUnit.ofBasic '\'') then
    Report.at' (offset + source.length) "Missing closing 'quote"
  return joinQuotes (foldLines (source.drop 1).dropLast)

/-- What a unit behind a backslash stands for. -/
def escapes : List (CodeUnit × CodeUnit) := [
  ('0', .ofNat 0), ('a', .ofNat 7), ('b', .ofNat 8), ('e', .ofNat 27), ('f', .ofNat 12),
  ('n', .ofNat 10), ('r', .ofNat 13), ('t', .ofNat 9), ('v', .ofNat 11), ('N', .ofNat 0x85),
  ('_', .ofNat 0xA0), ('L', .ofNat 0x2028), ('P', .ofNat 0x2029), (' ', ' '), ('"', '"'),
  ('/', '/'), ('\\', '\\'), ('\t', '\t')]

/-- The number of digits behind an escape by number. -/
def escapeDigits : List (CodeUnit × Nat) := [('x', 2), ('u', 4), ('U', 8)]

/-- The units of an escape by number, if its digits are complete and there is such a character. -/
def escaped? (count : Nat) (digits : Text) : Option Text :=
  if digits.length = count ∧ digits.all CodeUnit.isHexDigit ∧ Text.natValue digits 16 ≤ 0x10FFFF then
    some (CodeUnit.ofCodePoint (Text.natValue digits 16))
  else none

/-- A piece of a text in double quotes: what it stands for, its units behind the first one, and
whether it is an escape of no known form, which stands for itself. -/
structure QuotedPiece where
  value : Text
  more : Nat
  isBad : Bool

/-- The white space behind a line break, without a carriage return that stands alone. -/
def breakSpace : Text → Text
  | [] => []
  | c :: r =>
    if c = '\n' ∨ isInline c ∨ (c = '\r' ∧ r.head? = some (CodeUnit.ofBasic '\n')) then
      c :: breakSpace r
    else []

/-- Line breaks as they are folded inside double quotes: a single one is a space, and of several all
but the first stay. -/
def foldedBreaks (space : Text) : Text :=
  let breaks := space.filter fun (c : CodeUnit) => decide (c = '\n')
  if breaks.isEmpty then [CodeUnit.ofBasic ' '] else breaks

/-- The piece that a backslash begins, `d` and `r` being what follows it. -/
def escapePiece (d : CodeUnit) (r : Text) : QuotedPiece :=
  let isBreak := d = '\n' ∨ (d = '\r' ∧ r.head? = some (CodeUnit.ofBasic '\n'))
  match escapes.lookup d with
  | some e => ⟨[e], 1, false⟩
  | none =>
    if isBreak then
      let skip := if d = '\n' then 0 else 1
      ⟨[], 1 + skip + ((r.drop skip).takeWhile isInline).length, false⟩
    else
      match escapeDigits.lookup d with
      | some n =>
        match escaped? n (r.take n) with
        | some v => ⟨v, 1 + n, false⟩
        | none => ⟨[CodeUnit.ofBasic '\\', d] ++ r.take n, 1 + n, true⟩
      | none => ⟨[CodeUnit.ofBasic '\\', d], 1, true⟩

/-- The piece that begins with a unit, `r` being what follows it.  Blanks before a line break fall
away. -/
def quotedPiece (c : CodeUnit) (r : Text) : QuotedPiece :=
  if c = '\r' ∧ r.head? = some (CodeUnit.ofBasic '\n') then ⟨[], 0, false⟩
  else if c = '\n' then ⟨foldedBreaks (breakSpace r), (breakSpace r).length, false⟩
  else if c = '\\' then
    match r with
    | d :: r => escapePiece d r
    | [] => ⟨[c], 0, false⟩
  else if isInline c then
    let blanks := r.takeWhile isInline
    ⟨if 0 < breakLength (r.drop blanks.length) then [] else c :: blanks, blanks.length, false⟩
  else ⟨[c], 0, false⟩

/-- The value of a text in double quotes behind its opening quote, the last unit left out;
`offset` is where the text begins. -/
def unescape (offset : Nat) (t : Text) : Report Text :=
  match t with
  | [] => pure []
  | [_] => pure []
  | c :: d :: r => do
    let piece := quotedPiece c (d :: r)
    if piece.isBad then
      Report.at' offset (("Invalid escape sequence " : Text) ++ piece.value)
    let rest ← unescape (offset + 1 + piece.more) ((d :: r).drop piece.more)
    return piece.value ++ rest
termination_by t.length

/-- The value of a scalar in double quotes. -/
def doubleQuoted (offset : Nat) (source : Text) : Report Text := do
  let value ← unescape (offset + 1) (source.drop 1)
  if source.length = 1 ∨ source.getLast? ≠ some (CodeUnit.ofBasic '"') then
    Report.at' (offset + source.length) "Missing closing \"quote"
  return value

/-- The tokens behind a value: where they end, and whether there is a comment. -/
structure Ending where
  stop : Nat
  hasComment : Bool

/-- Reads the tokens behind a value that ends at `offset`. -/
def readEnding (needsSpace : Bool) (offset : Nat) (tokens : List Token) : Report Ending :=
  let rec go (hasSpace hasComment : Bool) (offset : Nat) : List Token → Report Ending
    | [] => pure ⟨offset, hasComment⟩
    | t :: ts => do
      let next := offset + t.source.length
      match t.kind with
      | .space | .newline => go true hasComment next ts
      | .comment =>
        if needsSpace ∧ !hasSpace then
          Report.atToken t
            "Comments must be separated from other tokens by white space characters"
        go hasSpace true next ts
      | kind =>
        Report.atToken t (("Unexpected " : Text) ++ kind.name ++ " at node end")
        go hasSpace hasComment next ts
  go false false offset tokens

end Yaml
end Scopewright
