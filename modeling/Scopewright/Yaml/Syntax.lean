import Scopewright.Yaml.Lexeme

/-! # Concrete structure

The lexemes of a text are tokens with a kind (`Yaml.Kind`, `Yaml.Token`), and tokens nest into values:
scalars, blocks of text, collections of both styles (`Yaml.Value`).  Every token of the text is
kept, so a value also holds what stands around it: `start` before a key or an item, `sep` between
a key and its value, `ending` behind a value on its line.

A stream is a sequence of documents, directives and stray tokens (`Yaml.Part`). -/

namespace Scopewright
namespace Yaml

/-- The kind of a token. -/
inductive Kind where
  | byteOrderMark
  | documentMark
  | flowErrorEnd
  | scalar
  | docStart
  | docEnd
  | newline
  | seqItem
  | explicitKey
  | mapValue
  | flowMapStart
  | flowMapEnd
  | flowSeqStart
  | flowSeqEnd
  | comma
  | space
  | comment
  | directive
  | reference
  | anchor
  | tag
  | singleQuoted
  | doubleQuoted
  | blockHeader
deriving DecidableEq, Repr, Inhabited

namespace Kind

/-- The name of a kind in messages. -/
def name : Kind → Text
  | byteOrderMark => "byte-order-mark"
  | documentMark => "doc-mode"
  | flowErrorEnd => "flow-error-end"
  | scalar => "scalar"
  | docStart => "doc-start"
  | docEnd => "doc-end"
  | newline => "newline"
  | seqItem => "seq-item-ind"
  | explicitKey => "explicit-key-ind"
  | mapValue => "map-value-ind"
  | flowMapStart => "flow-map-start"
  | flowMapEnd => "flow-map-end"
  | flowSeqStart => "flow-seq-start"
  | flowSeqEnd => "flow-seq-end"
  | comma => "comma"
  | space => "space"
  | comment => "comment"
  | directive => "directive-line"
  | reference => "alias"
  | anchor => "anchor"
  | tag => "tag"
  | singleQuoted => "single-quoted-scalar"
  | doubleQuoted => "double-quoted-scalar"
  | blockHeader => "block-scalar-header"

/-- White space and comments. -/
def isEmpty : Kind → Bool
  | space | comment | newline => true
  | _ => false

end Kind

/-- The kinds of tokens whose whole text tells them. -/
def wholeKinds : List (Text × Kind) := [
  ([byteOrderMark], .byteOrderMark), (Lexeme.documentMark.source, .documentMark),
  (Lexeme.flowEndMark.source, .flowErrorEnd), (Lexeme.scalarMark.source, .scalar),
  ("---", .docStart), ("...", .docEnd), ("", .newline),
  ("\n", .newline), ("\r\n", .newline), ("-", .seqItem), ("?", .explicitKey), (":", .mapValue),
  ("\x7b", .flowMapStart), ("\x7d", .flowMapEnd), ("[", .flowSeqStart), ("]", .flowSeqEnd),
  (",", .comma)]

/-- The kinds of tokens whose first unit tells them. -/
def leadingKinds : List (CodeUnit × Kind) := [
  (' ', .space), ('\t', .space), ('#', .comment), ('%', .directive), ('*', .reference),
  ('&', .anchor), ('!', .tag), ('\'', .singleQuoted), ('"', .doubleQuoted),
  ('|', .blockHeader), ('>', .blockHeader)]

/-- The kind of a token that is not the text of a scalar. -/
def kindOf? (t : Text) : Option Kind :=
  match wholeKinds.lookup t with
  | some k => some k
  | none => t.head? >>= fun c => leadingKinds.lookup c

/-- A token: its place, the indentation in force there, and its text. -/
structure Token where
  kind : Kind
  offset : Nat
  indent : Nat
  source : Text
deriving DecidableEq, Inhabited

namespace Token

/-- Where a token ends. -/
def stop (t : Token) : Nat := t.offset + t.source.length

/-- The extent of a token. -/
def span (t : Token) : Span := ⟨t.offset, t.stop⟩

end Token

/-- One of the tokens has the kind. -/
def hasKind (ts : List Token) (k : Kind) : Bool := ts.any fun (t : Token) => decide (t.kind = k)

/-- The kinds of scalars on a line, and aliases. -/
inductive Style where
  | reference
  | plain
  | singleQuoted
  | doubleQuoted
deriving DecidableEq, Repr, Inhabited

/-- The style of a scalar token. -/
def Kind.style? : Kind → Option Style
  | .reference => some .reference
  | .scalar => some .plain
  | .singleQuoted => some .singleQuoted
  | .doubleQuoted => some .doubleQuoted
  | _ => none

/-- A token that stands where it may not, or text that is no token. -/
structure Stray where
  offset : Nat
  source : Text
  message : Text
deriving DecidableEq, Inhabited

/-- A part of the header of a block of text. -/
inductive HeaderPart where
  | token (t : Token)
  | stray (s : Stray)
deriving DecidableEq, Inhabited

mutual

/-- A value. -/
inductive Value where
  | scalar (style : Style) (offset indent : Nat) (source : Text) (ending : List Token)
  | block (offset indent : Nat) (props : List HeaderPart) (source : Text)
  | blockMap (offset indent : Nat) (items : List Item)
  | blockSeq (offset indent : Nat) (items : List Item)
  | flow (start : Token) (indent : Nat) (items : List Item) (ending : List Token)
  | stray (s : Stray)

/-- An entry of a mapping or an item of a sequence.  An entry has a `sep` as soon as it has a key or
a colon. -/
inductive Item where
  | mk (start : List Token) (isExplicit : Bool) (key : Option Value) (sep : Option (List Token))
    (value : Option Value)

end

instance : Inhabited Value := ⟨.stray default⟩

instance : Inhabited Item := ⟨.mk [] false none none none⟩

namespace Item

/-- The tokens in front. -/
def start : Item → List Token
  | mk s .. => s

/-- A key indicator stands in front. -/
def isExplicit : Item → Bool
  | mk _ e .. => e

/-- The key. -/
def key : Item → Option Value
  | mk _ _ k .. => k

/-- The tokens between key and value. -/
def sep : Item → Option (List Token)
  | mk _ _ _ s _ => s

/-- The value. -/
def value : Item → Option Value
  | mk _ _ _ _ v => v

/-- An item that has only tokens in front. -/
def bare (start : List Token) : Item := mk start false none none none

/-- Adds a token in front of the key. -/
def addStart (i : Item) (t : Token) : Item := mk (i.start ++ [t]) i.isExplicit i.key i.sep i.value

/-- Replaces the tokens in front. -/
def setStart (i : Item) (ts : List Token) : Item := mk ts i.isExplicit i.key i.sep i.value

/-- Adds a token behind the key. -/
def addSep (i : Item) (t : Token) : Item :=
  mk i.start i.isExplicit i.key (some (i.sep.getD [] ++ [t])) i.value

/-- Replaces the tokens behind the key. -/
def setSep (i : Item) (ts : List Token) : Item := mk i.start i.isExplicit i.key (some ts) i.value

/-- Puts in a key, with the tokens behind it. -/
def setKey (i : Item) (k : Option Value) (ts : List Token) : Item :=
  mk i.start i.isExplicit k (some ts) i.value

/-- Puts in the value. -/
def setValue (i : Item) (v : Value) : Item := mk i.start i.isExplicit i.key i.sep (some v)

end Item

namespace Value

/-- Where a value begins. -/
def offset : Value → Nat
  | scalar _ o .. => o
  | block o .. => o
  | blockMap o .. => o
  | blockSeq o .. => o
  | flow s .. => s.offset
  | stray s => s.offset

/-- The indentation of a value; what stands where it may not has none. -/
def indent? : Value → Option Nat
  | scalar _ _ i .. => some i
  | block _ i .. => some i
  | blockMap _ i _ => some i
  | blockSeq _ i _ => some i
  | flow _ i .. => some i
  | stray _ => none

/-- A collection in block style. -/
def isBlockCollection : Value → Bool
  | blockMap .. => true
  | blockSeq .. => true
  | _ => false

/-- A mapping in block style. -/
def isBlockMap : Value → Bool
  | blockMap .. => true
  | _ => false

/-- A sequence in block style. -/
def isBlockSeq : Value → Bool
  | blockSeq .. => true
  | _ => false

/-- A block of text. -/
def isBlockText : Value → Bool
  | block .. => true
  | _ => false

/-- A collection in flow style. -/
def isFlowCollection : Value → Bool
  | flow .. => true
  | _ => false

/-- A scalar on a line, or a collection in flow style. -/
def isFlow : Value → Bool
  | scalar .. => true
  | flow .. => true
  | _ => false

/-- The tokens behind a value on its line, if it is of a kind that has them. -/
def ending? : Value → Option (List Token)
  | scalar _ _ _ _ e => some e
  | flow _ _ _ e => some e
  | _ => none

/-- Adds tokens behind a value. -/
def addEnding (v : Value) (ts : List Token) : Value :=
  match v with
  | scalar st o i s e => scalar st o i s (e ++ ts)
  | flow s i items e => flow s i items (e ++ ts)
  | v => v

/-- What is written for errors at a value: its text, if it is a single token. -/
def errorSpan : Value → Span
  | scalar _ o _ s _ => ⟨o, o + s.length⟩
  | block o _ _ s => ⟨o, o + s.length⟩
  | blockMap o .. => ⟨o, o + 1⟩
  | blockSeq o .. => ⟨o, o + 1⟩
  | flow s .. => ⟨s.offset, s.offset + 1⟩
  | stray s => ⟨s.offset, s.offset + s.source.length⟩

end Value

/-- A document: the tokens before its value, the value, and the tokens behind it. -/
structure DocumentPart where
  offset : Nat
  start : List Token
  value : Option Value
  ending : List Token

/-- A part of a stream. -/
inductive Part where
  | directive (t : Token)
  | document (d : DocumentPart)
  | documentEnd (mark : Token) (ending : List Token)
  | token (t : Token)
  | stray (s : Stray)

end Yaml
end Scopewright
