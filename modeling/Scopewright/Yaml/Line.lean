import Scopewright.Text.Class

/-! # The structure of one line

A line of a block document may open sequence items by dashes and name one key
(`Yaml.LineEntry`).  A key is quoted or plain and is followed by a colon before white space or the
end of the line.  Comments, directives and document marks have no structure. -/

namespace Scopewright
namespace Yaml

/-- Something that a line opens, with its column. -/
inductive LineEntry where
  | dash (col : Nat)
  /-- A key; `hasValue` when a scalar or flow value stands on the same line, `blockScalar` when
  that value only announces a block of text. -/
  | key (col : Nat) (name : Text) (hasValue blockScalar : Bool)
deriving DecidableEq, Inhabited

namespace LineEntry

/-- The column of an entry. -/
def col : LineEntry → Nat
  | dash c => c
  | key c .. => c

/-- The entry is a dash at the given column. -/
def isDashAt (c : Nat) : LineEntry → Bool
  | dash d => decide (d = c)
  | key .. => false

/-- The entry is a key at the given column. -/
def isKeyAt (c : Nat) : LineEntry → Bool
  | dash _ => false
  | key d .. => decide (d = c)

/-- The name of a key at the given column. -/
def nameAt? (c : Nat) : LineEntry → Option Text
  | dash _ => none
  | key d name _ _ => if d = c then some name else none

end LineEntry

/-! ### Keys -/

/-- Length of a string in double quotes behind its opening quote. -/
def doubleQuotedLength : Text → Option Nat
  | [] => none
  | c :: r =>
    if c = '"' then some 1
    else if c = '\\' then
      match r with
      | [] => none
      | d :: r => if d.endsLine then none else (doubleQuotedLength r).map (· + 2)
    else (doubleQuotedLength r).map (· + 1)

/-- Length of a string in single quotes behind its opening quote. -/
def singleQuotedLength : Text → Option Nat
  | [] => none
  | [c] => if c = '\'' then some 1 else none
  | c :: d :: r =>
    if c = '\'' then
      if d = '\'' then (singleQuotedLength r).map (· + 2) else some 1
    else (singleQuotedLength (d :: r)).map (· + 1)

/-- The end of a key: a colon before white space or the end of the line, with white space in
front.  Its length. -/
def colonLength? (t : Text) : Option Nat :=
  match t.dropWhile CodeUnit.isBlank with
  | [] => none
  | c :: r =>
    if c = ':' ∧ r.head?.all CodeUnit.isBlank then some (t.length - r.length) else none

/-- A plain key does not begin with such a unit. -/
def isIndicator (c : CodeUnit) : Bool :=
  c.isBlank || Text.contains "#:'\"-[],\x7b\x7d" c

/-- A plain key goes on with such a unit. -/
def isPlainKeyUnit (c : CodeUnit) : Bool := !(decide (c = ':') || decide (c = '#'))

/-- A plain key begins the text. -/
def beginsPlainKey : Text → Bool
  | [] => false
  | c :: r =>
    if c = '-' then r.head?.any fun (d : CodeUnit) => isPlainKeyUnit d && !d.isBlank
    else !isIndicator c

/-- A key as it is written, and the length of it with its colon. -/
structure KeyHead where
  source : Text
  length : Nat

/-- The head of a text whose first `n` units are a quoted key. -/
def quotedHead? (t : Text) (n : Nat) : Option KeyHead :=
  (colonLength? (t.drop n)).map fun k => ⟨t.take n, n + k⟩

/-- The key that a text begins with. -/
def keyHead? (t : Text) : Option KeyHead :=
  match t with
  | [] => none
  | c :: r =>
    if c = '"' then doubleQuotedLength r >>= fun n => quotedHead? t (n + 1)
    else if c = '\'' then singleQuotedLength r >>= fun n => quotedHead? t (n + 1)
    else if beginsPlainKey t then
      let source := t.takeWhile isPlainKeyUnit
      (colonLength? (t.drop source.length)).map fun k => ⟨Text.trimEnd source, source.length + k⟩
    else none

/-- A text without the backslashes before other units of the line. -/
def dropBackslashes : Text → Text
  | [] => []
  | [c] => [c]
  | c :: d :: r =>
    if c = '\\' ∧ !d.endsLine then d :: dropBackslashes r else c :: dropBackslashes (d :: r)

/-- A text with doubled single quotes made single. -/
def halveQuotes : Text → Text
  | [] => []
  | [c] => [c]
  | c :: d :: r =>
    if c = '\'' ∧ d = '\'' then c :: halveQuotes r else c :: halveQuotes (d :: r)

/-- The text stands between two units equal to `q`. -/
def isQuotedBy (q : CodeUnit) (t : Text) : Bool :=
  decide (2 ≤ t.length) && decide (t.head? = some q) && decide (t.getLast? = some q)

/-- The name that a written key stands for. -/
def keyName (source : Text) : Text :=
  if isQuotedBy '"' source then dropBackslashes (source.drop 1).dropLast
  else if isQuotedBy '\'' source then halveQuotes (source.drop 1).dropLast
  else source

/-! ### Lines -/

/-- The dashes at the front of a text, by column, and what stands behind them. -/
structure Dashes where
  cols : List Nat
  contentCol : Nat
  content : Text

/-- A dash that opens an item begins the text. -/
def beginsItem : Text → Bool
  | [] => false
  | c :: r => decide (c = '-') && r.head?.all CodeUnit.isBlank

/-- The dashes that open items at the front of a text that begins at column `col`. -/
def dashes (col : Nat) (t : Text) : Dashes :=
  match t with
  | [] => ⟨[], col, []⟩
  | c :: r =>
    if beginsItem (c :: r) then
      let rest := r.dropWhile CodeUnit.isBlank
      let inner := dashes (col + 1 + (r.length - rest.length)) rest
      { inner with cols := col :: inner.cols }
    else ⟨[], col, c :: r⟩
termination_by t.length
decreasing_by
  have h := (List.dropWhile_sublist CodeUnit.isBlank (l := r)).length_le
  simp only [List.length_cons]
  omega

/-- The number of spaces at the front of a text. -/
def indentOf (t : Text) : Nat := (t.takeWhile (· = CodeUnit.ofBasic ' ')).length

/-- A unit of the header of a block of text. -/
def isHeaderUnit (c : CodeUnit) : Bool := c.isDigit || decide (c = '-') || decide (c = '+')

/-- The value announces a block of text: an indicator, its header, perhaps a comment. -/
def isBlockHeader (value : Text) : Bool :=
  match value with
  | [] => false
  | c :: r =>
    if c = '|' ∨ c = '>' then
      match (r.dropWhile isHeaderUnit).dropWhile CodeUnit.isBlank with
      | [] => true
      | d :: comment => decide (d = '#') && !comment.any CodeUnit.endsLine
    else false

/-- The key that the content of a line begins with, as an entry. -/
def keyMember? (col : Nat) (content : Text) : Option LineEntry :=
  (keyHead? content).map fun k =>
    let rest := Text.trim (content.drop k.length)
    let hasValue := rest.head?.any fun (c : CodeUnit) => decide (c ≠ '#')
    .key col (keyName k.source) hasValue (hasValue && isBlockHeader rest)

/-- The line has no structure: it is empty, a comment, a directive or a document mark. -/
def isPlainLine (line : Text) : Bool :=
  match line.drop (indentOf line) with
  | [] => true
  | c :: _ => decide (c = '#') || ("---" : Text).isPrefixOf line || ("%" : Text).isPrefixOf line

/-- The entries that a line opens, from the left. -/
def lineEntries (line : Text) : List LineEntry :=
  if isPlainLine line then []
  else
    let d := dashes (indentOf line) (line.drop (indentOf line))
    d.cols.map .dash ++ (keyMember? d.contentCol d.content).toList

end Yaml
end Scopewright
