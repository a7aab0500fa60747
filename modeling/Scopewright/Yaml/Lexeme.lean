import Scopewright.Text.Class

/-! # Lexemes

A YAML text falls into lexemes whose texts, in order, are the text (`Yaml.lexemes`).  Three marks
without text stand between them: a document begins, a flow collection ends for want of
indentation, and the next lexeme is a scalar.  Each mark is written as a control unit
(`Lexeme.source`), and a piece of the text that is such a unit counts as the mark.

The reading keeps what is left of the text (`Yaml.Reader.rest`) and two columns: the indentation
of the current line, and the least one that goes on the current block
(`Reader.indentValue`, `Reader.indentNext`).  Each mode of reading (`Yaml.Mode`) uses up some of
the text or hands over to a mode of lower rank, so twice as many steps as there are units, and a few
more, are enough. -/

namespace Scopewright
namespace Yaml

/-- A piece of the text, or a mark between pieces. -/
inductive Lexeme where
  | text (t : Text)
  | documentMark
  | flowEndMark
  | scalarMark
deriving DecidableEq, Inhabited

/-- The text that a lexeme takes up. -/
def Lexeme.toText : Lexeme → Text
  | text t => t
  | _ => []

/-- What is written for a lexeme. -/
def Lexeme.source : Lexeme → Text
  | text t => t
  | documentMark => [.ofNat 0x02]
  | flowEndMark => [.ofNat 0x18]
  | scalarMark => [.ofNat 0x1F]

/-- What is being read. -/
inductive Mode where
  | stream
  | blockStart
  | document
  | flow
deriving DecidableEq, Repr, Inhabited

/-- How far the reading has come. -/
structure Reader where
  /-- What is left of the text. -/
  rest : Text
  /-- The indentation of the current line. -/
  indentValue : Nat
  /-- The least indentation that goes on the current block. -/
  indentNext : Nat
  /-- The number of flow collections that are open. -/
  flowLevel : Nat
  /-- A colon right here would follow a key of a flow collection. -/
  flowKey : Bool
  /-- The lexemes so far, last first. -/
  reversed : List Lexeme

namespace Reader

/-- Adds a mark. -/
def mark (r : Reader) (l : Lexeme) : Reader := { r with reversed := l :: r.reversed }

/-- Reads `n` units as one lexeme, none for zero. -/
def take (r : Reader) (n : Nat) : Reader :=
  if n = 0 then r
  else { r with rest := r.rest.drop n, reversed := .text (r.rest.take n) :: r.reversed }

/-- Reads `n` units as the text of a scalar, which may be empty. -/
def takeScalar (r : Reader) (n : Nat) : Reader :=
  { r with rest := r.rest.drop n
           reversed := .text (r.rest.take n) :: .scalarMark :: r.reversed }

end Reader

/-! ### Classes -/

/-- White space of the grammar, line breaks included. -/
def isWhite (c : CodeUnit) : Bool :=
  decide (c = ' ') || decide (c = '\t') || decide (c = '\n') || decide (c = '\r')

/-- A blank inside a line. -/
def isInline (c : CodeUnit) : Bool := decide (c = ' ') || decide (c = '\t')

/-- A space. -/
def isSpace (c : CodeUnit) : Bool := decide (c = ' ')

/-- An indicator of flow collections. -/
def isFlowIndicator (c : CodeUnit) : Bool := Text.contains ",[]\x7b\x7d" c

/-- A unit of an anchor or of the name of an alias. -/
def isAnchorUnit (c : CodeUnit) : Bool := !Text.contains " ,[]\x7b\x7d\n\r\t" c

/-- A unit of a tag. -/
def isTagUnit (c : CodeUnit) : Bool :=
  c.isLetter || c.isDigit || Text.contains "-#;/?:@&=+$_.!~*'()" c

/-- White space or nothing begins a text. -/
def startsWhite (t : Text) : Bool := t.head?.all isWhite

/-- The line that begins a text, without its break. -/
def lineOf (t : Text) : Text :=
  let line := t.takeWhile (· ≠ CodeUnit.ofBasic '\n')
  if line.length < t.length ∧ line.getLast? = some (CodeUnit.ofBasic '\r') then line.dropLast
  else line

/-- Length of the line break that begins a text. -/
def breakLength (t : Text) : Nat :=
  match t with
  | [] => 0
  | [c] => if c = '\n' then 1 else 0
  | c :: d :: _ => if c = '\n' then 1 else if c = '\r' ∧ d = '\n' then 2 else 0

/-- The mark of a document or of its end begins a text. -/
def documentMarkBegins (t : Text) : Bool :=
  (("---" : Text).isPrefixOf t || ("..." : Text).isPrefixOf t) && startsWhite (t.drop 3)

/-- Only blanks or a comment are left on the line. -/
def atLineEnd (t : Text) : Bool :=
  let r := t.dropWhile isInline
  r.isEmpty || r.head? = some (CodeUnit.ofBasic '#') || 0 < breakLength r

/-! ### Lexemes of one kind -/

namespace Reader

variable (r : Reader)

/-- The number of spaces ahead. -/
def spaces : Nat := (r.rest.takeWhile isSpace).length

/-- The number of spaces and tabs ahead. -/
def blanks : Nat := (r.rest.takeWhile isInline).length

/-- Reads spaces and tabs. -/
def takeBlanks : Reader := r.take r.blanks

/-- Reads a line break. -/
def takeBreak : Reader := r.take (breakLength r.rest)

/-- Reads up to the end of the line. -/
def takeLine : Reader := r.take (lineOf r.rest).length

end Reader

/-- A text at the start of a line goes on a scalar of the least indentation `indent`. -/
def continuesScalar (indent : Nat) (t : Text) : Bool :=
  if 0 < indent then
    let n := (t.takeWhile isSpace).length
    0 < breakLength (t.drop n) || indent ≤ n
  else !documentMarkBegins t

/-- Length of the part of a tag behind its first unit. -/
def tagLength (t : Text) : Nat :=
  match t with
  | [] => 0
  | c :: r =>
    if isTagUnit c then tagLength r + 1
    else
      match r with
      | h :: l :: r =>
        if c = '%' ∧ h.isHexDigit ∧ l.isHexDigit then tagLength r + 3 else 0
      | _ => 0

/-- Reads a tag. -/
def Reader.takeTag (r : Reader) : Reader :=
  match r.rest with
  | bang :: c :: t =>
    if c = '<' then
      let name := t.takeWhile fun (d : CodeUnit) => !isWhite d && decide (d ≠ '>')
      let stop := if (t.drop name.length).head? = some (CodeUnit.ofBasic '>') then 1 else 0
      r.take (2 + name.length + stop)
    else r.take (1 + tagLength (bang :: c :: t).tail)
  | t => r.take t.length

/-- A structural indicator stands alone here: white space follows, or in a flow collection one of
its indicators. -/
def standsAlone (inFlow : Bool) (t : Text) : Bool :=
  match t with
  | [] => true
  | c :: _ => isWhite c || (inFlow && isFlowIndicator c)

/-- Reads tags, anchors and structural indicators with the blanks behind them, at most `fuel` of
them. -/
def Reader.takeIndicators (r : Reader) : (fuel : Nat) → Reader
  | 0 => r
  | fuel + 1 =>
    match r.rest with
    | [] => r
    | c :: t =>
      if c = '!' then r.takeTag.takeBlanks.takeIndicators fuel
      else if c = '&' then
        (r.take ((c :: t).takeWhile isAnchorUnit).length).takeBlanks.takeIndicators fuel
      else if (c = '-' ∨ c = '?' ∨ c = ':') ∧ standsAlone (0 < r.flowLevel) t then
        let r' := if r.flowLevel = 0 then { r with indentNext := r.indentValue + 1 }
          else { r with flowKey := false }
        (r'.take 1).takeBlanks.takeIndicators fuel
      else r

/-! ### Scalars -/

/-- Length of a plain scalar at the front of a text, its trailing white space left out.  `pending`
counts the white space since the last unit of the scalar; a line break may be passed when the
next line goes on the scalar, and white space there is passed as far as its last unit but one. -/
def plainLength (inFlow : Bool) (indent : Nat) (pending : Nat) (t : Text) : Nat :=
  match t with
  | [] => 0
  | c :: r =>
    if c = ':' then
      if standsAlone inFlow r then 0 else pending + 1 + plainLength inFlow indent 0 r
    else if c = '\n' ∨ 0 < breakLength (c :: r) then
      let size := if c = '\n' then 1 else 2
      let next := r.drop (size - 1)
      if next.head? = some (CodeUnit.ofBasic '#')
          ∨ (inFlow ∧ next.head?.any isFlowIndicator) then 0
      else if continuesScalar indent next then
        let skip := if 0 < indent then (next.takeWhile isSpace).length - 1 else 0
        plainLength inFlow indent (pending + size + skip) (next.drop skip)
      else 0
    else if isWhite c then
      let ends := r.head? = some (CodeUnit.ofBasic '#') ∨ (inFlow ∧ r.head?.any isFlowIndicator)
      if c = '\r' then
        pending + 1 + (if ends then 0 else plainLength inFlow indent 0 r)
      else if ends then 0
      else plainLength inFlow indent (pending + 1) r
    else if inFlow ∧ isFlowIndicator c then 0
    else pending + 1 + plainLength inFlow indent 0 r
termination_by t.length

/-- Length of a text in double quotes behind its opening quote. -/
def doubleQuotedEnd : Text → Option Nat
  | [] => none
  | c :: r =>
    if c = '"' then some 1
    else if c = '\\' then
      match r with
      | [] => none
      | _ :: r => (doubleQuotedEnd r).map (· + 2)
    else (doubleQuotedEnd r).map (· + 1)

/-- Length of a text in single quotes behind its opening quote. -/
def singleQuotedEnd : Text → Option Nat
  | [] => none
  | [c] => if c = '\'' then some 1 else none
  | c :: d :: r =>
    if c = '\'' then
      if d = '\'' then (singleQuotedEnd r).map (· + 2) else some 1
    else (singleQuotedEnd (d :: r)).map (· + 1)

/-- The first line break among `limit` units behind which the text does not go on the scalar: the
units before that line break. -/
def brokenAt? (indent : Nat) : (limit : Nat) → Text → Option Nat
  | 0, _ => none
  | _, [] => none
  | limit + 1, c :: r =>
    if c = '\n' then
      if continuesScalar indent r then (brokenAt? indent limit r).map (· + 1) else some 0
    else if 0 < breakLength (c :: r) ∧ 0 < limit ∧ !continuesScalar indent (r.drop 1) then some 0
    else (brokenAt? indent limit r).map (· + 1)

/-- Length of a quoted text with its quotes.  One that is not closed takes all that is left; one
that is broken off by a line of too little indentation ends before it. -/
def quotedLength (indent : Nat) (t : Text) : Nat :=
  match t with
  | [] => 0
  | q :: r =>
    match if q = '\'' then singleQuotedEnd r else doubleQuotedEnd r with
    | none => t.length
    | some n =>
      match brokenAt? indent (n - 1) r with
      | some k => k + 1
      | none => n + 1

/-! ### Blocks of text -/

/-- What the header of a block of text says: the digit for its indentation, and whether all line
breaks at its end are kept. -/
structure BlockHeader where
  indent : Option Nat
  keep : Bool

/-- Reads one more unit of a header. -/
def BlockHeader.read (h : BlockHeader) (c : CodeUnit) : BlockHeader :=
  if c = '+' then { h with keep := true }
  else if c.within '1' '9' then { h with indent := some (c.toNat - 49) }
  else h

/-- What a header says behind its indicator. -/
def blockHeader (t : Text) : BlockHeader :=
  (t.takeWhile fun (c : CodeUnit) => decide (c = '+') || decide (c = '-') || c.within '1' '9').foldl
    BlockHeader.read ⟨none, false⟩

/-- The lines of a text, each with its line break; the last one has none. -/
def brokenLines : Text → List Text
  | [] => [[]]
  | c :: r =>
    match brokenLines r with
    | [] => [[c]]
    | line :: lines => if c = '\n' then [c] :: line :: lines else (c :: line) :: lines

/-- A line of spaces with a break. -/
def isBlankLine (line : Text) : Bool := 0 < breakLength (line.dropWhile isSpace)

/-- The indentation of a line. -/
def indentation (line : Text) : Nat := (line.takeWhile isSpace).length

/-- How many of the lines belong to a block, the text behind a line deciding for it. -/
def blockLines (indent : Nat) : List Text → Nat
  | [] => 0
  | line :: lines =>
    if continuesScalar indent (line ++ lines.flatten) ∧ !line.isEmpty then
      blockLines indent lines + 1
    else 0

/-- A line of spaces, with or without a break, that is not indented more than the block. -/
def isSlack (indent : Nat) (line : Text) : Bool :=
  let t := line.dropWhile isSpace
  (t.isEmpty || t.length = breakLength t || t = "\r") && indentation line ≤ indent

/-- Without the slack lines at the end; the first line stays. -/
def trimSlack (indent : Nat) (lines : List Text) : List Text :=
  lines.take 1 ++ ((lines.drop 1).reverse.dropWhile (isSlack indent)).reverse

/-- A block of text: the units it takes, and the indentation that its content has set. -/
structure BlockExtent where
  length : Nat
  indentNext : Nat

/-- The extent of a block of text.  Its first line that is not blank sets the indentation, unless
the header does; white space with tabs behind too little indentation belongs to the block. -/
def blockExtent (h : BlockHeader) (indentNext : Nat) (t : Text) : BlockExtent :=
  let lines := brokenLines t
  let lead := (lines.takeWhile isBlankLine).length
  let indent := indentation ((lines.drop lead).headD [])
  let isDeeper := decide (indentNext ≤ indent)
  let indentNext' :=
    if isDeeper then
      match h.indent with
      | none => indent
      | some n => n + (if indentNext = 0 then 1 else indentNext)
    else indentNext
  let count := if isDeeper then lead + blockLines indentNext' (lines.drop lead) else lead
  let taken := lines.take count
  let after := (lines.drop count).flatten
  let inline := after.dropWhile isSpace
  if inline.head? = some (CodeUnit.ofBasic '\t') then
    ⟨taken.flatten.length + (after.length - (inline.dropWhile isWhite).length), indentNext'⟩
  else if h.keep then ⟨taken.flatten.length, indentNext'⟩
  else ⟨(trimSlack indent taken).flatten.length, indentNext'⟩

/-! ### Modes -/

/-- Reads the start of a line: the mark of a document, or its indentation. -/
def Reader.lineStart (r : Reader) : Reader × Mode :=
  if documentMarkBegins r.rest then
    ({ r.take 3 with indentValue := 0, indentNext := 0 },
      if ("---" : Text).isPrefixOf r.rest then .document else .stream)
  else
    let n := r.spaces
    let r := r.take n
    let indentNext :=
      if n < r.indentNext ∧ !startsWhite (r.rest.drop 1) then n else r.indentNext
    ({ r with indentValue := n, indentNext }, .blockStart)

/-- Reads an indicator at the start of a line. -/
def Reader.blockStart (r : Reader) : Reader × Mode :=
  match r.rest with
  | [] => (r, .document)
  | c :: t =>
    if (c = '-' ∨ c = '?' ∨ c = ':') ∧ startsWhite t then
      let r' := r.take 1
      ({ r'.takeBlanks with indentNext := r.indentValue + 1
                            indentValue := r.indentValue + 1 + r'.blanks }, .blockStart)
    else (r, .document)

/-- Length of a directive, blanks before a comment left out. -/
def directiveLength (line : Text) : Nat :=
  let rec go (before : Bool) : Text → Nat
    | [] => 0
    | c :: r => if before && decide (c = '#') then 0 else go (isInline c) r + 1
  (((line.take (go false line)).reverse.dropWhile isInline).reverse).length

/-- The byte order mark. -/
def byteOrderMark : CodeUnit := .ofNat 0xFEFF

/-- Reads between documents. -/
def Reader.stream (r : Reader) : Reader × Mode :=
  let r := if r.rest.head? = some byteOrderMark then r.take 1 else r
  let line := lineOf r.rest
  if line.head? = some (CodeUnit.ofBasic '%') then
    ((r.take (directiveLength line)).takeBlanks.takeLine, .stream)
  else if atLineEnd r.rest then (r.takeBlanks.takeLine.takeBreak, .stream)
  else
    let (r, mode) := (r.mark .documentMark).lineStart
    match mode with
    | .blockStart => r.blockStart
    | mode => (r, mode)

/-- The start of a line inside a document. -/
def Reader.nextLine (r : Reader) : Reader × Mode :=
  let (r, mode) := r.lineStart
  match mode with
  | .blockStart => r.blockStart
  | mode => (r, mode)

/-- The mode behind a value. -/
def Reader.afterValue (r : Reader) : Mode := if r.flowLevel = 0 then .document else .flow

/-- Reads a quoted text. -/
def Reader.takeQuoted (r : Reader) : Reader := r.take (quotedLength r.indentNext r.rest)

/-- Reads a plain scalar. -/
def Reader.takePlain (r : Reader) : Reader :=
  r.takeScalar (plainLength (0 < r.flowLevel) r.indentNext 0 r.rest)

/-- Reads a block of text from its header on. -/
def Reader.blockScalar (r : Reader) : Reader × Mode :=
  let header := blockHeader (r.rest.drop 1)
  let head := r.rest.takeWhile fun (c : CodeUnit) => !isWhite c && decide (c ≠ '#')
  let r := ((r.take head.length).takeBlanks).takeLine.takeBreak
  let extent := blockExtent header r.indentNext r.rest
  ({ r with indentNext := extent.indentNext }.takeScalar extent.length).nextLine

/-- Reads a part of a document. -/
def Reader.document (r : Reader) : Reader × Mode :=
  let r := r.takeBlanks
  let lineEnds := (lineOf r.rest).length
  let size := r.rest.length
  let r := r.takeIndicators size
  if size - r.rest.length = lineEnds then r.takeBreak.nextLine
  else
    match r.rest with
    | [] => r.nextLine
    | c :: _ =>
      if c = '#' then r.takeLine.takeBreak.nextLine
      else if Text.contains "[\x7b" c then
        ({ r.take 1 with flowKey := false, flowLevel := 1 }, .flow)
      else if Text.contains "]\x7d" c then (r.take 1, .document)
      else if c = '*' then (r.take (r.rest.takeWhile isAnchorUnit).length, .document)
      else if c = '"' ∨ c = '\'' then (r.takeQuoted, r.afterValue)
      else if c = '|' ∨ c = '>' then r.blockScalar
      else (r.takePlain, r.afterValue)

/-- Reads line breaks and blanks inside a flow collection, at most `fuel` times; the indentation of
the last line, if a line has begun. -/
def Reader.takeFlowSpace (r : Reader) (indent : Option Nat) : (fuel : Nat) → Reader × Option Nat
  | 0 => (r, indent)
  | fuel + 1 =>
    if 0 < breakLength r.rest then
      let r := r.takeBreak
      let n := r.spaces
      let r := { r.take n with indentValue := n }
      r.takeBlanks.takeFlowSpace (some n) fuel
    else if 0 < r.blanks then r.takeBlanks.takeFlowSpace indent fuel
    else (r, indent)

/-- The line that begins here ends the flow collections for want of indentation. -/
def Reader.endsFlow (r : Reader) (indent : Option Nat) : Bool :=
  match indent with
  | none => false
  | some n =>
    let line := lineOf r.rest
    let isComment := line.head? = some (CodeUnit.ofBasic '#')
    let isClosing := line.head?.any (Text.contains "]\x7d")
    ((n < r.indentNext && !isComment)
        || (n = 0 && (("---" : Text).isPrefixOf line || ("..." : Text).isPrefixOf line)
          && startsWhite (line.drop 3)))
      && !(n + 1 = r.indentNext && r.flowLevel = 1 && isClosing)

/-- Reads commas with the blanks behind them, at most `fuel` of them. -/
def Reader.takeCommas (r : Reader) : (fuel : Nat) → Reader
  | 0 => r
  | fuel + 1 =>
    if r.rest.head? = some (CodeUnit.ofBasic ',') then
      ({ r.take 1 with flowKey := false }.takeBlanks).takeCommas fuel
    else r

/-- Reads a part of a flow collection. -/
def Reader.flow (r : Reader) : Reader × Mode :=
  let (r, indent) := r.takeFlowSpace none r.rest.length
  if r.endsFlow indent then ({ r with flowLevel := 0 }.mark .flowEndMark).nextLine
  else
    let size := r.rest.length
    let lineEnds := (lineOf r.rest).length
    let r := (r.takeCommas size).takeIndicators size
    if size - r.rest.length = lineEnds then (r, .flow)
    else
      match r.rest with
      | [] => (r, .flow)
      | c :: t =>
        if c = '#' then (r.takeLine, .flow)
        else if Text.contains "[\x7b" c then
          ({ r.take 1 with flowKey := false, flowLevel := r.flowLevel + 1 }, .flow)
        else if Text.contains "]\x7d" c then
          let r := { r.take 1 with flowKey := true, flowLevel := r.flowLevel - 1 }
          (r, r.afterValue)
        else if c = '*' then (r.take (r.rest.takeWhile isAnchorUnit).length, .flow)
        else if c = '"' ∨ c = '\'' then ({ r with flowKey := true }.takeQuoted, .flow)
        else if c = ':' ∧ (r.flowKey ∨ startsWhite t ∨ t.head? = some (CodeUnit.ofBasic ',')) then
          ({ r.take 1 with flowKey := false }.takeBlanks, .flow)
        else
          let r := { r with flowKey := false }.takePlain
          (r, r.afterValue)

/-- Reads a part of the text in a mode. -/
def Reader.read (r : Reader) : Mode → Reader × Mode
  | .stream => r.stream
  | .blockStart => r.blockStart
  | .document => r.document
  | .flow => r.flow

/-- Reads on for at most `fuel` parts. -/
def Reader.readAll (r : Reader) (mode : Mode) : (fuel : Nat) → Reader
  | 0 => r
  | fuel + 1 =>
    if r.rest.isEmpty then r
    else
      let (r, mode) := r.read mode
      r.readAll mode fuel

/-- The lexemes of a text. -/
def lexemes (t : Text) : List Lexeme :=
  ((Reader.mk t 0 0 0 false []).readAll .stream (2 * t.length + 4)).reversed.reverse

end Yaml
end Scopewright
