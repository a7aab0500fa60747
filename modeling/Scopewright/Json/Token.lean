import Scopewright.Number.Nearest

/-! # Tokens

The tokens of a document with comments (`Json.Token`).  Every token says where it stands, what
it stands for, and what is wrong with it, if anything (`Json.Fault`); of several faults in one
string the last one is kept.  `Json.tokens` lists the tokens of a text, blanks and comments
included, with an end mark behind them.

A comment that is not closed counts one unit more than it has, even past the end of the text;
the end mark then has that one unit. -/

namespace Scopewright
namespace Json

/-- What the grammar does not allow. -/
inductive Fault where
  | invalidSymbol
  | propertyNameExpected
  | valueExpected
  | colonExpected
  | commaExpected
  | closeBraceExpected
  | closeBracketExpected
  | endOfFileExpected
  | unexpectedEndOfComment
  | unexpectedEndOfString
  | unexpectedEndOfNumber
  | invalidUnicode
  | invalidEscapeCharacter
  | invalidCharacter
deriving DecidableEq, Repr, Inhabited

/-- The name under which a fault is reported. -/
def Fault.name : Fault → Text
  | invalidSymbol => "InvalidSymbol"
  | propertyNameExpected => "PropertyNameExpected"
  | valueExpected => "ValueExpected"
  | colonExpected => "ColonExpected"
  | commaExpected => "CommaExpected"
  | closeBraceExpected => "CloseBraceExpected"
  | closeBracketExpected => "CloseBracketExpected"
  | endOfFileExpected => "EndOfFileExpected"
  | unexpectedEndOfComment => "UnexpectedEndOfComment"
  | unexpectedEndOfString => "UnexpectedEndOfString"
  | unexpectedEndOfNumber => "UnexpectedEndOfNumber"
  | invalidUnicode => "InvalidUnicode"
  | invalidEscapeCharacter => "InvalidEscapeCharacter"
  | invalidCharacter => "InvalidCharacter"

/-- The kinds of tokens. -/
inductive Kind where
  | openBrace
  | closeBrace
  | openBracket
  | closeBracket
  | comma
  | colon
  | nullWord
  | trueWord
  | falseWord
  | string
  | number
  | comment
  | space
  | unknown
  | done
deriving DecidableEq, Repr, Inhabited

/-- A token. -/
structure Token where
  kind : Kind
  start : Nat
  length : Nat
  /-- What a string stands for, or the numeral of a number. -/
  value : Text
  fault : Option Fault
deriving Inhabited

/-- What a token is, told from its first unit and the text behind it: `extra` units belong to
it besides the first. -/
structure Lexeme where
  kind : Kind
  extra : Nat
  value : Text
  fault : Option Fault

/-- A token of one unit. -/
def Lexeme.single (kind : Kind) : Lexeme := ⟨kind, 0, [], none⟩

/-- A line break. -/
def isBreak (c : CodeUnit) : Bool := decide (c = '\n') || decide (c = '\r')

/-- A blank inside a line. -/
def isSpace (c : CodeUnit) : Bool := decide (c = ' ') || decide (c = '\t')

/-- A unit that goes on a word, be it a known word or not. -/
def isWordUnit (c : CodeUnit) : Bool :=
  !(isSpace c || isBreak c || Text.contains "[]\":,/\x7b\x7d" c)

/-- What a string stands for so far, how many units it takes, and its last fault. -/
structure Body where
  value : Text
  length : Nat
  fault : Option Fault

/-- Puts units in front of a body. -/
def Body.before (b : Body) (units : Text) (length : Nat) (fault : Option Fault) : Body :=
  ⟨units ++ b.value, length + b.length, b.fault <|> fault⟩

/-- What the letter of an escape stands for. -/
def escapeLetter? (c : CodeUnit) : Option CodeUnit :=
  if c = '"' ∨ c = '\\' ∨ c = '/' then some c
  else if c = 'b' then some (.ofNat 8)
  else if c = 'f' then some (.ofNat 12)
  else if c = 'n' then some '\n'
  else if c = 'r' then some '\r'
  else if c = 't' then some '\t'
  else none

/-- Reads a string behind its opening quote, up to its closing quote, the end of the line or the
end of the text. -/
def stringBody (t : Text) : Body :=
  match t with
  | [] => ⟨[], 0, some .unexpectedEndOfString⟩
  | c :: r =>
    if c = '"' then ⟨[], 1, none⟩
    else if c = '\\' then
      match r with
      | [] => ⟨[], 1, some .unexpectedEndOfString⟩
      | d :: r =>
        if d = 'u' then
          let digits := (r.take 4).takeWhile CodeUnit.isHexDigit
          let rest := stringBody (r.drop digits.length)
          if digits.length = 4 then
            rest.before [.ofNat (Text.natValue digits 16)] 6 none
          else rest.before [] (2 + digits.length) (some .invalidUnicode)
        else match escapeLetter? d with
          | some e => (stringBody r).before [e] 2 none
          | none => (stringBody r).before [] 2 (some .invalidEscapeCharacter)
    else if isBreak c then ⟨[], 0, some .unexpectedEndOfString⟩
    else if c.toNat < 32 then (stringBody r).before [c] 1 (some .invalidCharacter)
    else (stringBody r).before [c] 1 none
termination_by t.length
decreasing_by
  all_goals
    simp only [List.length_cons, List.length_drop]
    omega

/-- Length of a comment behind its opening mark, and whether it is closed. -/
def commentBody : Text → Nat × Bool
  | [] => (1, false)
  | [_] => (1, false)
  | c :: d :: r =>
    if c = '*' ∧ d = '/' then (2, true)
    else if c = '\r' ∧ d = '\n' then
      let (n, closed) := commentBody r
      (n + 2, closed)
    else
      let (n, closed) := commentBody (d :: r)
      (n + 1, closed)

/-- The parts of a numeral: the units that count, the units taken, and its fault. -/
structure Numeral where
  value : Text
  length : Nat
  fault : Option Fault

/-- The exponent of a numeral, behind the units `done`. -/
def exponentPart (done : Text) (t : Text) : Numeral :=
  match t with
  | [] => ⟨done, done.length, none⟩
  | e :: r =>
    if e = 'e' ∨ e = 'E' then
      let sign : Text := match r with
        | [] => []
        | s :: _ => if s = '+' ∨ s = '-' then [s] else []
      let digits := (r.drop sign.length).takeWhile CodeUnit.isDigit
      if digits.isEmpty then
        ⟨done, done.length + 1 + sign.length, some .unexpectedEndOfNumber⟩
      else
        let whole := done ++ e :: (sign ++ digits)
        ⟨whole, whole.length, none⟩
    else ⟨done, done.length, none⟩

/-- A numeral that begins with a digit; a zero at its front stands alone. -/
def numeral (t : Text) : Numeral :=
  let whole := match t with
    | [] => []
    | c :: r => if c = '0' then [c] else c :: r.takeWhile CodeUnit.isDigit
  match t.drop whole.length with
  | [] => ⟨whole, whole.length, none⟩
  | p :: r =>
    if p = '.' then
      let digits := r.takeWhile CodeUnit.isDigit
      if digits.isEmpty then ⟨whole ++ [p], whole.length + 1, some .unexpectedEndOfNumber⟩
      else exponentPart (whole ++ p :: digits) (r.drop digits.length)
    else exponentPart whole (p :: r)

/-- The kind of a word. -/
def wordKind (word : Text) : Kind :=
  if word = "true" then .trueWord
  else if word = "false" then .falseWord
  else if word = "null" then .nullWord
  else .unknown

/-- A word that begins with `c`. -/
def wordLexeme (c : CodeUnit) (r : Text) : Lexeme :=
  let tail := r.takeWhile isWordUnit
  ⟨wordKind (c :: tail), tail.length, [], none⟩

/-- A slash and what follows it. -/
def slashLexeme (r : Text) : Lexeme :=
  match r with
  | [] => .single .unknown
  | d :: r =>
    if d = '/' then ⟨.comment, 1 + (r.takeWhile (!isBreak ·)).length, [], none⟩
    else if d = '*' then
      let (n, closed) := commentBody r
      ⟨.comment, 1 + n, [], if closed then none else some .unexpectedEndOfComment⟩
    else .single .unknown

/-- A minus sign belongs to a numeral only before a digit. -/
def minusLexeme (c : CodeUnit) (r : Text) : Lexeme :=
  if r.head?.any CodeUnit.isDigit then
    let n := numeral r
    ⟨.number, n.length, c :: n.value, n.fault⟩
  else .single .unknown

/-- The token that begins with `c`. -/
def lexeme (c : CodeUnit) (r : Text) : Lexeme :=
  if isSpace c then ⟨.space, (r.takeWhile isSpace).length, [], none⟩
  else if c = '\r' then
    ⟨.space, if r.head?.any (fun (d : CodeUnit) => decide (d = '\n')) then 1 else 0, [], none⟩
  else if c = '\n' then .single .space
  else if c = '{' then .single .openBrace
  else if c = '}' then .single .closeBrace
  else if c = '[' then .single .openBracket
  else if c = ']' then .single .closeBracket
  else if c = ':' then .single .colon
  else if c = ',' then .single .comma
  else if c = '"' then
    let b := stringBody r
    ⟨.string, b.length, b.value, b.fault⟩
  else if c = '/' then slashLexeme r
  else if c = '-' then minusLexeme c r
  else if c.isDigit then
    let n := numeral (c :: r)
    ⟨.number, n.length - 1, n.value, n.fault⟩
  else wordLexeme c r

/-- The tokens of what is left of a text of `size` units, from `start` on. -/
def tokensFrom (size start : Nat) (t : Text) : List Token :=
  match t with
  | [] => [⟨.done, size, start - size, [], none⟩]
  | c :: r =>
    let l := lexeme c r
    ⟨l.kind, start, l.extra + 1, l.value, l.fault⟩
      :: tokensFrom size (start + l.extra + 1) (r.drop l.extra)
termination_by t.length

/-- The tokens of a text. -/
def tokens (t : Text) : List Token := tokensFrom t.length 0 t

end Json
end Scopewright
