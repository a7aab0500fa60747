import Scopewright.Document.Yaml
import Scopewright.Proofs.Text.Split
import Scopewright.Proofs.Yaml.Lexing

/-! # The tree of one entry

A text whose lexemes are those of a key, a colon and a scalar is a document of one entry, and
nothing is reported (`Yaml.yamlTree_entry`).  Its value is what the reader of scalars makes of it: by
its form if it is plain (`Yaml.yamlTree_plain`), and the text between the quotes if it is in single
quotes (`Yaml.yamlTree_quoted`). -/

namespace Scopewright
namespace Yaml

/-! ### Parts -/

/-- The entry whose value is a scalar. -/
def entryItem (style : Style) (source : Text) : Item :=
  .mk [] false (some (.scalar .plain 0 0 "key" []))
    (some [⟨.mapValue, 3, 0, ":"⟩, ⟨.space, 4, 0, " "⟩]) (some (.scalar style 5 0 source []))

/-- The document of the entry. -/
def entryDocument (style : Style) (source : Text) : DocumentPart :=
  ⟨0, [], some (.blockMap 0 0 [entryItem style source]), []⟩

theorem parts_plain {t v : Text} (h : lexemes t = [.documentMark, .scalarMark, .text "key",
    .text ":", .text " ", .scalarMark, .text v]) :
    parts t = [.document (entryDocument .plain v)] := by
  rw [parts, h]
  rfl

theorem parts_quoted {t body : Text} (h : lexemes t = [.documentMark, .scalarMark, .text "key",
    .text ":", .text " ", .text (CodeUnit.ofBasic '\'' :: body)]) :
    parts t = [.document (entryDocument .singleQuoted (CodeUnit.ofBasic '\'' :: body))] := by
  rw [parts, h]
  rfl

/-! ### Nodes -/

/-- The node of a scalar that is the value of the entry. -/
def valueNode (source : Text) (datum : Datum) : Node :=
  .scalar ⟨5, 5 + source.length, 5 + source.length⟩ datum true

/-- The mapping of the entry. -/
def entryNode (source : Text) (datum : Datum) : Node :=
  .map ⟨0, 5 + source.length, 5 + source.length⟩
    [(.scalar ⟨0, 3, 3⟩ (.plain (.string "key")) true, some (valueNode source datum))]

variable {style : Style} {source : Text} {datum : Datum}

/-- What stands before the value: the colon and a blank. -/
def valueProps : Props :=
  ⟨none, some ⟨.mapValue, 3, 0, ":"⟩, [], false, none, none, none, 5, 5⟩

section pairs

variable {ds : Directives} {indent : ℕ} {s : BlockState} {key value : Value} {sep : List Token}
  {props vprops : Props} {keyNode node : Node} {colon : Token}

/-- An entry with a key and a value, between which there is a colon, and nothing in front. -/
theorem makePairs_implicit (items : List Item)
    (hprops : Props.read ⟨none, .explicitKey, keyNext (some key) (some sep), s.offset, indent, true⟩
      [] = pure props)
    (hfound : props.found = none) (hnewline : props.newlineAfterProp = none)
    (himplicit : checkImplicitKey indent s.offset (some key) = pure ())
    (hbreak : key.hasBreak = false) (hkey : makeNode ds false true props key = pure keyNode)
    (hvprops : Props.read ⟨none, .mapValue, some (.ofValue value), keyNode.extent.stop, indent,
      key.isBlockText⟩ sep = pure vprops)
    (hcolon : vprops.found = some colon) (hmap : value.isBlockMap = false)
    (hnear : ¬ props.start + 1024 < colon.offset)
    (hvalue : makeNode ds false false vprops value = pure node) :
    makePairs ds indent s (.mk [] false (some key) (some sep) (some value) :: items) =
      makePairs ds indent { s with offset := node.extent.stop
                                   pairs := (keyNode, some node) :: s.pairs } items := by
  have hany : ¬ ((some value).any Value.isBlockMap = true ∧ (!vprops.hasNewline) = true) := by
    rw [Option.any_some, hmap]
    exact fun h => Bool.false_ne_true h.1
  have hbroken : ¬ (props.newlineAfterProp.isSome || key.hasBreak) = true := by
    rw [hnewline, hbreak]
    exact Bool.false_ne_true
  have hnone : props.found.isNone = true := by
    rw [hfound]
    rfl
  have hentry : ¬ (props.found.isNone && props.anchor.isNone && props.tag.isNone &&
      (some sep).isNone) = true := by
    rw [Option.isNone_some, Bool.and_false]
    exact Bool.false_ne_true
  change (Props.read ⟨none, .explicitKey, keyNext (some key) (some sep), s.offset, indent, true⟩
    [] >>= _) = _
  rw [hprops, pure_bind]
  refine (if_pos hnone).trans ?_
  rw [himplicit, pure_bind]
  refine (if_neg hentry).trans ?_
  refine (if_pos hnone).trans ?_
  refine (if_neg hbroken).trans ?_
  dsimp only
  rw [hkey, pure_bind]
  dsimp only [Option.map_some, Option.getD_some]
  rw [hvprops, pure_bind, hcolon]
  dsimp only
  refine (if_pos hnone).trans ?_
  refine (if_neg hany).trans ?_
  refine (if_neg hnear).trans ?_
  rw [hvalue, pure_bind]

end pairs

theorem makePairs_entry
    (h : lineNode .default false valueProps style 5 source [] = pure (valueNode source datum)) :
    makePairs .default 0 ⟨0, none, [], []⟩ [entryItem style source] =
      pure ⟨5 + source.length, none, [(.scalar ⟨0, 3, 3⟩ (.plain (.string "key")) true,
        some (valueNode source datum))], []⟩ := by
  have hkey : makeNode .default false true (Props.none 0) (.scalar .plain 0 0 "key" []) =
      pure (.scalar ⟨0, 3, 3⟩ (.plain (.string "key")) true) := rfl
  have hvalue : makeNode .default false false valueProps (.scalar style 5 0 source []) =
      pure (valueNode source datum) := h
  exact (makePairs_implicit [] rfl rfl rfl rfl (by decide) hkey rfl rfl rfl (by decide)
    hvalue).trans rfl

theorem makeNode_entry
    (h : lineNode .default false valueProps style 5 source [] = pure (valueNode source datum)) :
    makeNode .default true false (Props.none 0) (.blockMap 0 0 [entryItem style source]) =
      pure (entryNode source datum) := by
  have htag : readTag .default none = pure none := rfl
  change (readTag .default none >>= _) = _
  rw [htag, pure_bind, makePairs_entry h, pure_bind]
  rfl

/-- The value of the entry is read behind all else, and nothing is reported besides. -/
theorem makeDocument_entry
    (h : lineNode .default false valueProps style 5 source [] = pure (valueNode source datum)) :
    makeDocument .default (entryDocument style source) =
      pure (entryNode source datum, 5 + source.length) := by
  have hprops : Props.read ⟨none, .docStart,
      some (.ofValue (.blockMap 0 0 [entryItem style source])), 0, 0, true⟩ [] =
        pure (Props.none 0) := rfl
  change (Props.read ⟨none, .docStart, some (.ofValue (.blockMap 0 0 [entryItem style source])),
    0, 0, true⟩ [] >>= _) = _
  rw [hprops, pure_bind]
  refine (if_neg fun h => Bool.false_ne_true h.1).trans ?_
  change (makeNode .default true false (Props.none 0) (.blockMap 0 0 [entryItem style source]) >>=
    _) = _
  rw [makeNode_entry h, pure_bind]
  rfl

/-! ### Scalars of one line -/

theorem foldLines_of_notMem {t : Text} (h : CodeUnit.ofBasic '\n' ∉ t) : foldLines t = t := by
  unfold foldLines
  rw [Text.splitOn_of_notMem h]

/-- A plain scalar of one line has the value of its form. -/
theorem lineNode_plain (hbreak : CodeUnit.ofBasic '\n' ∉ source)
    (hstart : source.head?.bind badStart? = none) :
    lineNode .default false valueProps .plain 5 source [] =
      pure (valueNode source (Version.v12.readPlain false source)) := by
  have hvalue : plainValue 5 source = pure source := by
    unfold plainValue
    rw [hstart, foldLines_of_notMem hbreak]
  change (plainValue 5 source >>= _) = _
  rw [hvalue, pure_bind]
  rfl

/-- A text of one line in single quotes is a string. -/
theorem lineNode_quoted {body : Text} (hbreak : CodeUnit.ofBasic '\n' ∉ body) :
    lineNode .default false valueProps .singleQuoted 5
        (CodeUnit.ofBasic '\'' :: (body ++ [CodeUnit.ofBasic '\''])) [] =
      pure (valueNode (CodeUnit.ofBasic '\'' :: (body ++ [CodeUnit.ofBasic '\'']))
        (.plain (.string (joinQuotes body)))) := by
  have hvalue : singleQuoted 5 (CodeUnit.ofBasic '\'' :: (body ++ [CodeUnit.ofBasic '\''])) =
      pure (joinQuotes body) := by
    have hclosed : ¬ ((CodeUnit.ofBasic '\'' :: (body ++ [CodeUnit.ofBasic '\''])).length = 1 ∨
        (CodeUnit.ofBasic '\'' :: (body ++ [CodeUnit.ofBasic '\''])).getLast? ≠
          some (CodeUnit.ofBasic '\'')) := by
      rw [← List.cons_append, List.getLast?_concat, List.length_append]
      simp
    unfold singleQuoted
    rw [if_neg hclosed]
    dsimp only
    rw [List.drop_one, List.tail_cons, List.dropLast_concat, foldLines_of_notMem hbreak]
  change (singleQuoted 5 _ >>= _) = _
  rw [hvalue, pure_bind]
  rfl

/-! ### The document -/

/-- The tree of the entry. -/
def entryTree (length : ℕ) (value : Document.Scalar) : Document.Tree :=
  ⟨some (.object ⟨0, 5 + length⟩ [(⟨"key", ⟨0, 3⟩⟩, .scalar ⟨5, 5 + length⟩ value)]), []⟩

/-- The tree of a document of one entry. -/
theorem yamlTree_entry {t : Text} (hparts : parts t = [.document (entryDocument style source)])
    (h : lineNode .default false valueProps style 5 source [] = pure (valueNode source datum)) :
    Document.yamlTree t = entryTree source.length (.ofDatum datum) := by
  have hrun : (makeDocument StreamState.init.directives (entryDocument style source)).run =
      ((entryNode source datum, 5 + source.length), []) := by
    change (makeDocument .default _).run = _
    rw [makeDocument_entry h]
    rfl
  have hstart : StreamState.init.startDocument (entryDocument style source) =
      { StreamState.init with document := some (entryNode source datum, []) } := by
    unfold StreamState.startDocument
    rw [hrun]
    rfl
  have hfirst : firstDocument t = ⟨some (entryNode source datum), []⟩ := by
    have hnone : StreamState.init.document = none := rfl
    rw [firstDocument, hparts, StreamState.readParts, hnone]
    dsimp only
    rw [hstart]
    rfl
  unfold Document.yamlTree
  rw [hfirst]
  rfl

/-- The tree of an entry whose value is a plain scalar. -/
theorem yamlTree_plain {c : CodeUnit} {r : Text} (hblank : isInline c = false)
    (hindicator : Text.contains "!&-?:#[]\x7b\x7d*\"|>" c = false)
    (hquote : c ≠ CodeUnit.ofBasic '\'') (hstart : badStart? c = none)
    (hbreak : CodeUnit.ofBasic '\n' ∉ c :: r) (h : ¬ Breaks (c :: r)) (hend : EndsPlain (c :: r)) :
    Document.yamlTree (keyFront ++ c :: r) =
      entryTree (c :: r).length (.ofDatum (Version.v12.readPlain false (c :: r))) :=
  yamlTree_entry (parts_plain (lexemes_plain hblank hindicator hquote hbreak h hend))
    (lineNode_plain hbreak hstart)

/-- The tree of an entry whose value stands in single quotes. -/
theorem yamlTree_quoted {body : Text} (hbreak : CodeUnit.ofBasic '\n' ∉ body)
    (hend : singleQuotedEnd (body ++ [CodeUnit.ofBasic '\'']) = some (body.length + 1)) :
    Document.yamlTree (keyFront ++ CodeUnit.ofBasic '\'' :: (body ++ [CodeUnit.ofBasic '\''])) =
      entryTree (body.length + 2) (.string (joinQuotes body)) := by
  have hnotMem : CodeUnit.ofBasic '\n' ∉ body ++ [CodeUnit.ofBasic '\''] := by
    rw [List.mem_append, not_or]
    exact ⟨hbreak, by decide⟩
  have hlength : (body ++ [CodeUnit.ofBasic '\'']).length = body.length + 1 := List.length_append
  refine (yamlTree_entry (parts_quoted (lexemes_quoted hnotMem (by rw [hend, hlength])))
    (lineNode_quoted hbreak)).trans ?_
  rw [List.length_cons, hlength]
  rfl

end Yaml
end Scopewright
