import Scopewright.Markup.Reference

/-! # Pieces of markup

A document with elements falls into pieces (`Markup.Piece`): character data, tags, and asides such
as comments.  Every piece says which offset it ends at and from where the next piece counts
itself (`next`); behind a closing tag with white space in it that is the white space.  What is
cut off by the end of the text is left over as a tail (`Markup.Tail`).

`Markup.construct` tells what stands behind a `<`: a piece, something unfinished, or nothing, in
which case the `<` is character data. -/

namespace Scopewright
namespace Markup

/-- What a piece is. -/
inductive PieceKind where
  | text (data : Text)
  | opening (name : Text)
  | closing (name : Text)
  | empty (name : Text)
  | aside
deriving Inhabited

/-- A piece of a document. -/
structure Piece where
  kind : PieceKind
  /-- The offset that the piece ends at. -/
  stop : Nat
  /-- Where the next piece counts itself from. -/
  next : Nat
deriving Inhabited

/-- What the end of the text cuts off. -/
structure Tail where
  /-- What of it is character data. -/
  text : Text
  /-- Where a next piece would count itself from, when that has moved. -/
  next : Option Nat
deriving Inhabited

/-- White space inside markup. -/
def isSpace (c : CodeUnit) : Bool :=
  decide (c = ' ') || decide (c = '\n') || decide (c = '\t') || decide (c = .ofNat 12)
    || decide (c = '\r')

/-- A unit that ends the name of a tag. -/
def endsName (c : CodeUnit) : Bool := decide (c = '/') || decide (c = '>') || isSpace c

/-! ### Inside an opening tag -/

/-- Where the reading of an opening tag stands. -/
inductive TagState where
  | beforeName
  | slash
  | inName (start : Nat)
  | afterName
  | beforeValue
  | quoted (quote : CodeUnit)
  | bare

/-- What one unit of an opening tag does. -/
inductive TagStep where
  | goOn (state : TagState) (mark : Option Nat)
  | opened
  | emptied

/-- A unit before the name of an attribute, `i` units into the document. -/
def stepBeforeName (c : CodeUnit) (i : Nat) (mark : Option Nat) : TagStep :=
  if c = '>' then .opened
  else if c = '/' then .goOn .slash mark
  else if isSpace c then .goOn .beforeName mark
  else .goOn (.inName i) mark

/-- A unit behind the name of an attribute. -/
def stepAfterName (c : CodeUnit) (i : Nat) (mark : Option Nat) : TagStep :=
  if c = '=' then .goOn .beforeValue mark
  else if c = '/' ∨ c = '>' then stepBeforeName c i mark
  else if isSpace c then .goOn .afterName mark
  else .goOn (.inName i) mark

/-- A unit of a value without quotes. -/
def stepBare (c : CodeUnit) (i : Nat) (mark : Option Nat) : TagStep :=
  if isSpace c ∨ c = '>' then stepBeforeName c i mark else .goOn .bare mark

/-- What a unit of an opening tag does.  The end of an attribute's name marks its beginning. -/
def TagState.step (s : TagState) (c : CodeUnit) (i : Nat) (mark : Option Nat) : TagStep :=
  match s with
  | beforeName => stepBeforeName c i mark
  | slash =>
    if c = '>' then .emptied
    else if isSpace c then .goOn .slash mark
    else stepBeforeName c i mark
  | inName start =>
    if c = '=' ∨ endsName c then stepAfterName c i (some start) else .goOn (.inName start) mark
  | afterName => stepAfterName c i mark
  | beforeValue =>
    if c = '"' ∨ c = '\'' then .goOn (.quoted c) mark
    else if isSpace c then .goOn .beforeValue mark
    else stepBare c i mark
  | quoted q => if c = q then .goOn .beforeName mark else .goOn (.quoted q) mark
  | bare => stepBare c i mark

/-- How an opening tag ends: the units it takes behind its name and whether its element is
empty, or the tail it leaves. -/
inductive TagEnd where
  | closed (length : Nat) (isEmpty : Bool)
  | unfinished (tail : Tail)

/-- Adds one unit to the length of a tag. -/
def TagEnd.succ : TagEnd → TagEnd
  | closed n e => closed (n + 1) e
  | t => t

/-- Reads an opening tag behind its name; `last` is the unit read before. -/
def readTag (s : TagState) (i : Nat) (mark : Option Nat) (last : CodeUnit) : Text → TagEnd
  | [] =>
    match s with
    | .slash => .unfinished ⟨[last], some i⟩
    | _ => .unfinished ⟨[], mark⟩
  | c :: r =>
    match s.step c i mark with
    | .opened => .closed 1 false
    | .emptied => .closed 1 true
    | .goOn s mark => (readTag s (i + 1) mark c r).succ

/-! ### Behind a `<` -/

/-- What stands behind a `<`. -/
inductive Construct where
  /-- The `<` is character data. -/
  | none
  /-- A piece that takes `length` units; `last` of them is the one it ends at. -/
  | piece (kind : PieceKind) (last length : Nat)
  /-- A piece that ends at its unit `last` and leaves a tail. -/
  | cut (kind : PieceKind) (last : Nat) (tail : Tail)
  | unfinished (tail : Tail)

/-- Counts one more unit in front. -/
def Construct.succ : Construct → Construct
  | piece kind last length => piece kind (last + 1) (length + 1)
  | cut kind last tail => cut kind (last + 1) tail
  | d => d

/-- An aside that ends at the first `>` behind `skip` units; `i` is the offset of the text, and
`text` what is character data when there is none. -/
def asideAfter (skip i : Nat) (t text : Text) : Construct :=
  match (t.drop skip).findIdx? (· = CodeUnit.ofBasic '>') with
  | some k => .piece .aside (skip + k) (skip + k + 1)
  | none => .unfinished ⟨text, if text.isEmpty then Option.none else some (i + t.length)⟩

/-- The mark of character data that is taken as it stands, behind its `[`. -/
def dataMark : Text := "CDATA["

/-- What stands behind `<!`; `i` is the offset of the text. -/
def declaration (i : Nat) (t : Text) : Construct :=
  match t with
  | [] => .unfinished ⟨[], Option.none⟩
  | c :: r =>
    if c = '[' ∧ dataMark.isPrefixOf r then
      let body := r.drop dataMark.length
      match Text.find? "]]>" body with
      | some k => .piece (.text (body.take k)) (k + 9) (k + 10)
      | none => .unfinished ⟨body, if body.isEmpty then Option.none else some (i + t.length + 1)⟩
    else if c = '[' then asideAfter 1 i t t
    else if c = '-' then
      match r with
      | [] => .unfinished ⟨t, some (i + t.length)⟩
      | d :: body =>
        if d = '-' then
          match Text.find? "-->" (Text.ofString "--" ++ body) with
          | some k => .piece .aside (k + 2) (k + 3)
          | none =>
            .unfinished ⟨[], if body.isEmpty then Option.none else some (i + t.length + 1)⟩
        else asideAfter 2 i t t
    else asideAfter 1 i t t

/-- What stands behind `</`; `i` is the offset of the text. -/
def closingTag (i : Nat) (t : Text) : Construct :=
  let lead := (t.takeWhile isSpace).length
  match t.drop lead with
  | [] => .none
  | c :: r =>
    if c = '>' then .none
    else if c = '/' then
      match r.findIdx? (· = CodeUnit.ofBasic '>') with
      | some k => .piece .aside (lead + 1 + k) (lead + 2 + k)
      | none => .unfinished ⟨c :: r, some (i + t.length)⟩
    else
      let tail := r.takeWhile fun (d : CodeUnit) => !(isSpace d || decide (d = '>'))
      let last := lead + 1 + tail.length
      match r.drop tail.length with
      | [] => .unfinished ⟨[], Option.none⟩
      | rest =>
        match rest.findIdx? (· = CodeUnit.ofBasic '>') with
        | some k => .piece (.closing (c :: tail)) last (last + k + 1)
        | none => .cut (.closing (c :: tail)) last ⟨t.getLast?.toList, some (i + t.length)⟩

/-- What stands behind a `<`; `i` is the offset of the text. -/
def construct (i : Nat) (t : Text) : Construct :=
  match t with
  | [] => .none
  | c :: r =>
    if c = '!' then (declaration (i + 1) r).succ
    else if c = '?' then
      match r.findIdx? (· = CodeUnit.ofBasic '>') with
      | some k => .piece .aside (k + 1) (k + 2)
      | none => .unfinished ⟨r, if r.isEmpty then Option.none else some (i + t.length)⟩
    else if c = '/' then (closingTag (i + 1) r).succ
    else if endsName c then .none
    else
      let tail := r.takeWhile fun d => !endsName d
      match r.drop tail.length with
      | [] => .unfinished ⟨[], Option.none⟩
      | rest =>
        match readTag .beforeName (i + 1 + tail.length) Option.none c rest with
        | .closed n false =>
          .piece (.opening (c :: tail)) (tail.length + n) (tail.length + n + 1)
        | .closed n true => .piece (.empty (c :: tail)) (tail.length + n) (tail.length + n + 1)
        | .unfinished d => .unfinished d

/-! ### The pieces of a text -/

/-- The piece of character data that ends before `i`; `reversed` is the data, last unit
first. -/
def dataPiece (reversed : Text) (i : Nat) : List Piece :=
  if reversed.isEmpty then [] else [⟨.text (Reference.readStrict reversed.reverse), i, i⟩]

/-- The pieces of what is left, `i` units into a document and behind character data that has not
been written out; and the tail. -/
def piecesFrom (reversed : Text) (i : Nat) (t : Text) : List Piece × Tail :=
  match t with
  | [] => (dataPiece reversed i, ⟨[], none⟩)
  | c :: r =>
    if c = '<' then
      match construct (i + 1) r with
      | .none => piecesFrom (c :: reversed) (i + 1) r
      | .piece kind last length =>
        let (pieces, tail) := piecesFrom [] (i + 1 + length) (r.drop length)
        (dataPiece reversed i ++ ⟨kind, i + 1 + last, i + 2 + last⟩ :: pieces, tail)
      | .cut kind last tail =>
        (dataPiece reversed i ++ [⟨kind, i + 1 + last, i + 2 + last⟩], tail)
      | .unfinished tail => (dataPiece reversed i, tail)
    else piecesFrom (c :: reversed) (i + 1) r
termination_by t.length

/-- The pieces of a document, and its tail. -/
def pieces (t : Text) : List Piece × Tail := piecesFrom [] 0 t

end Markup
end Scopewright
