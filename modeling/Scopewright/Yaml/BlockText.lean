import Scopewright.Yaml.Quoted

/-! # Blocks of text

A block of text has a header, which tells how its lines are joined, its indentation and what
happens to the line breaks at its end (`BlockText.Header`), and lines of which the indentation is
taken off (`BlockText.value`). -/

namespace Scopewright
namespace Yaml
namespace BlockText

/-- What happens to the line breaks at the end. -/
inductive Chomp where
  | clip
  | strip
  | keep
deriving DecidableEq, Repr, Inhabited

/-- The header of a block. -/
structure Header where
  isFolded : Bool
  /-- The indentation by number, zero for none. -/
  indent : Nat
  chomp : Chomp
  /-- The units up to the first line. -/
  length : Nat

/-- The indicator of a header with the offset of the first unit that does not belong there. -/
def readIndicator (h : Header) (bad : Option Nat) (offset : Nat) : Text → Header × Option Nat
  | [] => (h, bad)
  | c :: r =>
    if h.chomp = .clip ∧ c = '-' then readIndicator { h with chomp := .strip } bad (offset + 1) r
    else if h.chomp = .clip ∧ c = '+' then readIndicator { h with chomp := .keep } bad (offset + 1) r
    else if h.indent = 0 ∧ c.within '1' '9' then
      readIndicator { h with indent := c.toNat - 48 } bad (offset + 1) r
    else readIndicator h (bad.or (some offset)) (offset + 1) r

/-- The length of what follows the indicator up to the first line. -/
def readProps (hasSpace : Bool) (length : Nat) : List HeaderPart → Report Nat
  | [] => pure length
  | .stray s :: ps => do
    Report.add ⟨s.offset, s.offset + s.source.length⟩ s.message
    readProps hasSpace (length + s.source.length) ps
  | .token t :: ps => do
    match t.kind with
    | .space => readProps true (length + t.source.length) ps
    | .newline => readProps hasSpace (length + t.source.length) ps
    | .comment =>
      if !hasSpace then
        Report.atToken t "Comments must be separated from other tokens by white space characters"
      readProps hasSpace (length + t.source.length) ps
    | kind =>
      Report.atToken t (("Unexpected token in block scalar header: " : Text) ++ kind.name)
      readProps hasSpace (length + t.source.length) ps

/-- Reads a header. -/
def readHeader (offset : Nat) (props : List HeaderPart) : Report Header :=
  match props with
  | .token t :: ps => do
    let isFolded := t.source.head? = some (CodeUnit.ofBasic '>')
    let (h, bad) := readIndicator ⟨isFolded, 0, .clip, 0⟩ none (offset + 1) (t.source.drop 1)
    match bad with
    | some at' =>
      Report.at' at' (("Block scalar header includes extra characters: " : Text) ++ t.source)
    | none => pure ()
    return { h with length := ← readProps false t.source.length ps }
  | _ => pure ⟨false, 0, .clip, 0⟩

/-- A line: its spaces and what follows them. -/
structure Line where
  spaces : Text
  content : Text

namespace Line

/-- Splits a line. -/
def ofText (t : Text) : Line := ⟨t.takeWhile isSpace, t.dropWhile isSpace⟩

/-- Nothing but spaces. -/
def isEmpty (l : Line) : Bool := l.content.isEmpty || l.content = "\r"

/-- The units of the line with its break. -/
def length (l : Line) : Nat := l.spaces.length + l.content.length + 1

end Line

/-- The lines of a block. -/
def lines (source : Text) : List Line :=
  if source.isEmpty then [] else (Text.splitOn '\n' source).map Line.ofText

/-- The least indentation that counts, and the number of empty lines in front.  Without an
indentation by number, the first line that is not empty sets it. -/
structure Start where
  trim : Nat
  count : Nat
  offset : Nat

/-- Reads the lines up to the first one that is not empty. -/
def readStart (h : Header) (atRoot : Bool) (s : Start) : List Line → Report Start
  | [] => pure { s with count := 0 }
  | l :: ls => do
    if l.isEmpty then
      let trim := if h.indent = 0 ∧ s.trim < l.spaces.length then l.spaces.length else s.trim
      readStart h atRoot ⟨trim, s.count + 1, s.offset + l.length⟩ ls
    else
      if l.spaces.length < s.trim then
        Report.at' (s.offset + l.spaces.length)
          ("Block scalars with more-indented leading empty lines must use an explicit " ++
            "indentation indicator" : String)
      let trim := if h.indent = 0 then l.spaces.length else s.trim
      if trim = 0 ∧ !atRoot then
        Report.at' s.offset "Block scalar values in collections must be indented"
      return { s with trim }

/-- The text so far, what joins the next line to it, and whether the line before was indented
more. -/
structure Joined where
  text : Text
  sep : Text
  isMore : Bool

/-- Joins one more line. -/
def Joined.add (isFolded : Bool) (trim : Nat) (j : Joined) (spaces content : Text) : Joined :=
  if !isFolded then ⟨j.text ++ j.sep ++ spaces.drop trim ++ content, "\n", j.isMore⟩
  else if trim < spaces.length ∨ content.head? = some (CodeUnit.ofBasic '\t') then
    let sep : Text :=
      if j.sep = " " then "\n" else if !j.isMore && j.sep = "\n" then "\n\n" else j.sep
    ⟨j.text ++ sep ++ spaces.drop trim ++ content, "\n", true⟩
  else if content.isEmpty then
    if j.sep = "\n" then { j with text := j.text ++ "\n" } else { j with sep := "\n" }
  else ⟨j.text ++ j.sep ++ content, " ", false⟩

/-- Joins the lines of the content. -/
def joinLines (h : Header) (trim offset : Nat) (j : Joined) : List Line → Report Text
  | [] => pure j.text
  | l :: ls => do
    let next := offset + l.length
    let content := dropReturn l.content
    let spaces ←
      if !content.isEmpty ∧ l.spaces.length < trim then do
        let source : Text := if h.indent = 0 then "first line" else "explicit indentation indicator"
        Report.at' (next - content.length - (if content.length < l.content.length then 2 else 1))
          (("Block scalar lines must not be less indented than their " : Text) ++ source)
        pure []
      else pure l.spaces
    joinLines h trim next (j.add h.isFolded trim spaces content) ls

/-- The value of a block with the given header and text, whose content begins at `offset`. -/
def value (h : Header) (atRoot : Bool) (indent offset : Nat) (source : Text) : Report Text := do
  let ls := lines source
  let tail := (ls.reverse.takeWhile Line.isEmpty).length
  if tail = ls.length then
    return if h.chomp = .keep ∧ !ls.isEmpty then List.replicate (max 1 (ls.length - 1)) '\n' else []
  let body := ls.take (ls.length - tail)
  let start ← readStart h atRoot ⟨indent + h.indent, 0, offset⟩ body
  let slack := ((ls.drop body.length).reverse.dropWhile fun l =>
    decide (l.spaces.length ≤ start.trim)).length
  let content := ls.take (body.length + slack)
  let lead := (content.take start.count).flatMap fun l =>
    l.spaces.drop start.trim ++ ("\n" : Text)
  let text ← joinLines h start.trim start.offset ⟨lead, [], false⟩ (content.drop start.count)
  match h.chomp with
  | .strip => return text
  | .clip => return text ++ "\n"
  | .keep =>
    let text := text ++ (ls.drop content.length).flatMap fun l =>
      ("\n" : Text) ++ l.spaces.drop start.trim
    return if text.getLast? = some (CodeUnit.ofBasic '\n') then text else text ++ "\n"

end BlockText
end Yaml
end Scopewright
