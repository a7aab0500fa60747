import Scopewright.Proofs.Text.Class
import Scopewright.Proofs.Text.Find
import Scopewright.Yaml.Lexeme

/-! # The lexemes of one entry

What the lexer makes of a text of one line that is a key and its value.  A plain scalar is read to
the end of the line when no colon in it stands before white space, no number sign behind white
space, and it does not end with white space (`Yaml.plainLength_eq`); a text in single quotes is read
up to the quote that is not doubled (`Yaml.quotedLength_eq`).  So the lexemes of the entry are those
of the key, the colon and the value as a whole (`Yaml.lexemes_plain`, `Yaml.lexemes_quoted`).

The reader is followed mode by mode: the start of the stream, the key, and what stands behind the
colon (`Yaml.stream_key`, `Yaml.document_key`, `Yaml.document_value`). -/

namespace Scopewright
namespace Yaml

variable {t : Text} {c : CodeUnit}

/-! ### Texts of one line -/

theorem breakLength_eq_zero (h : CodeUnit.ofBasic '\n' ∉ t) : breakLength t = 0 := by
  match t with
  | [] => rfl
  | [c] =>
      have hc : c ≠ CodeUnit.ofBasic '\n' := fun hc => h (hc ▸ List.mem_cons_self)
      exact if_neg hc
  | c :: d :: r =>
      obtain ⟨hc, h⟩ := not_or.mp (List.mem_cons.not.mp h)
      obtain ⟨hd, -⟩ := not_or.mp (List.mem_cons.not.mp h)
      rw [breakLength, if_neg (Ne.symm hc), if_neg fun hbreak => hd hbreak.2.symm]

/-- A text without line breaks is a line. -/
theorem lineOf_of_notMem (h : CodeUnit.ofBasic '\n' ∉ t) : lineOf t = t := by
  have hline : t.takeWhile (· ≠ CodeUnit.ofBasic '\n') = t :=
    List.takeWhile_eq_self_iff.mpr fun c hc => decide_eq_true fun heq => h (heq ▸ hc)
  unfold lineOf
  rw [hline]
  exact if_neg fun hlt => Nat.lt_irrefl _ hlt.1

theorem breakLength_of_isWhite (h : isWhite c = false) (r : Text) : breakLength (c :: r) = 0 := by
  have hn : c ≠ CodeUnit.ofBasic '\n' := by
    rintro rfl
    cases h
  have hr : c ≠ CodeUnit.ofBasic '\r' := by
    rintro rfl
    cases h
  cases r with
  | nil => exact if_neg hn
  | cons d r => rw [breakLength, if_neg hn, if_neg fun hbreak => hr hbreak.1]

/-- The last unit is no white space. -/
def EndsPlain (t : Text) : Prop := ∀ c ∈ t.getLast?, isWhite c = false

/-- A colon before white space or at the end, or a number sign behind white space. -/
def Breaks : Text → Prop
  | [] => False
  | c :: r =>
    (c = CodeUnit.ofBasic ':' ∧ startsWhite r = true) ∨
      (isWhite c = true ∧ r.head? = some (CodeUnit.ofBasic '#')) ∨ Breaks r

/-- A plain scalar of one line is read as a whole. -/
theorem plainLength_eq (hbreak : CodeUnit.ofBasic '\n' ∉ t) (h : ¬ Breaks t) (hend : EndsPlain t)
    (hne : t ≠ []) (indent pending : ℕ) :
    plainLength false indent pending t = pending + t.length := by
  induction t generalizing pending with
  | nil => exact absurd rfl hne
  | cons c r ih =>
      obtain ⟨hc, hr⟩ := not_or.mp (List.mem_cons.not.mp hbreak)
      obtain ⟨hcolon, h⟩ := not_or.mp h
      obtain ⟨hnumber, h⟩ := not_or.mp h
      have hlater (n : ℕ) (hrest : r ≠ []) : plainLength false indent n r = n + r.length := by
        refine ih hr h ?_ hrest n
        intro d hd
        obtain ⟨a, r, rfl⟩ := List.exists_cons_of_ne_nil hrest
        exact hend d hd
      have hall : pending + 1 + plainLength false indent 0 r = pending + (c :: r).length := by
        rw [List.length_cons]
        by_cases hrest : r = []
        · rw [hrest, plainLength]
          rfl
        · rw [hlater 0 hrest]
          omega
      have hzero : breakLength (c :: r) = 0 := breakLength_eq_zero hbreak
      unfold plainLength
      simp only [hzero, Nat.lt_irrefl, or_false, if_neg (Ne.symm hc), Bool.false_eq_true, false_and]
      split
      · rename_i heq
        have hstands : ¬ standsAlone false r = true := by
          intro hstands
          refine hcolon ⟨heq, ?_⟩
          cases r with
          | nil => rfl
          | cons d r => simpa [standsAlone, startsWhite] using hstands
        rw [if_neg hstands, hall]
      · split
        · rename_i hwhite
          have hends : ¬ r.head? = some (CodeUnit.ofBasic '#') := fun heq => hnumber ⟨hwhite, heq⟩
          simp only [if_neg hends]
          split
          · exact hall
          · have hrest : r ≠ [] := by
              rintro rfl
              rw [hend c rfl] at hwhite
              cases hwhite
            rw [hlater (pending + 1) hrest, List.length_cons]
            omega
        · exact hall

/-! ### Quoted texts -/

theorem brokenAt_eq_none (hbreak : CodeUnit.ofBasic '\n' ∉ t) (indent limit : ℕ) :
    brokenAt? indent limit t = none := by
  induction t generalizing limit with
  | nil => cases limit <;> rfl
  | cons c r ih =>
      cases limit with
      | zero => rfl
      | succ limit =>
          have hzero : breakLength (c :: r) = 0 := breakLength_eq_zero hbreak
          obtain ⟨hc, hr⟩ := not_or.mp (List.mem_cons.not.mp hbreak)
          rw [brokenAt?, if_neg (Ne.symm hc), if_neg (by omega), ih hr]
          rfl

/-- A text in single quotes is read as a whole when the quote behind it is the first that is not
doubled. -/
theorem quotedLength_eq {body : Text} (hbreak : CodeUnit.ofBasic '\n' ∉ body)
    (hend : singleQuotedEnd body = some body.length) (indent : ℕ) :
    quotedLength indent (CodeUnit.ofBasic '\'' :: body) = body.length + 1 := by
  rw [quotedLength, if_pos rfl, hend]
  dsimp only
  rw [brokenAt_eq_none hbreak]

/-! ### The front of an entry -/

/-- What stands in front of the value in an entry of the key `key`. -/
def keyFront : Text := "key: "

/-- The reader behind the key and its colon. -/
def behindColon (rest : Text) : Reader :=
  ⟨rest, 0, 1, 0, false, [.text " ", .text ":", .text "key", .scalarMark, .documentMark]⟩

theorem notMem_keyFront (h : CodeUnit.ofBasic '\n' ∉ t) :
    CodeUnit.ofBasic '\n' ∉ keyFront ++ t := by
  rw [List.mem_append, not_or]
  exact ⟨by decide, h⟩

/-- The key is read up to its colon. -/
theorem plainLength_keyFront (t : Text) : plainLength false 0 0 (keyFront ++ t) = 3 := by
  have hcons {c : CodeUnit} (hc : isWhite c = false) (hcolon : c ≠ CodeUnit.ofBasic ':')
      (r : Text) : plainLength false 0 0 (c :: r) = 1 + plainLength false 0 0 r := by
    have hn : c ≠ CodeUnit.ofBasic '\n' := by
      rintro rfl
      cases hc
    rw [plainLength, if_neg hcolon, breakLength_of_isWhite hc, if_neg (by simp [hn]), hc]
    simp
  have hstop : plainLength false 0 0 (CodeUnit.ofBasic ':' :: CodeUnit.ofBasic ' ' :: t) = 0 := by
    rw [plainLength]
    rfl
  change plainLength false 0 0 (CodeUnit.ofBasic 'k' :: CodeUnit.ofBasic 'e' ::
    CodeUnit.ofBasic 'y' :: CodeUnit.ofBasic ':' :: CodeUnit.ofBasic ' ' :: t) = 3
  rw [hcons (by decide) (by decide), hcons (by decide) (by decide), hcons (by decide) (by decide),
    hstop]

theorem stream_key (h : CodeUnit.ofBasic '\n' ∉ t) :
    (Reader.mk (keyFront ++ t) 0 0 0 false []).stream =
      (⟨keyFront ++ t, 0, 0, 0, false, [.documentMark]⟩, .document) := by
  have hline : lineOf (keyFront ++ t) = keyFront ++ t := lineOf_of_notMem (notMem_keyFront h)
  have hhead : (keyFront ++ t).head? = some (CodeUnit.ofBasic 'k') := rfl
  have hbom : ¬ (keyFront ++ t).head? = some byteOrderMark := by rw [hhead]; decide
  unfold Reader.stream
  dsimp only
  rw [if_neg hbom]
  dsimp only
  rw [hline]
  rfl

theorem document_key (h : CodeUnit.ofBasic '\n' ∉ t) :
    (Reader.mk (keyFront ++ t) 0 0 0 false [.documentMark]).document =
      (⟨CodeUnit.ofBasic ':' :: CodeUnit.ofBasic ' ' :: t, 0, 0, 0, false,
        [.text "key", .scalarMark, .documentMark]⟩, .document) := by
  have hline : lineOf (keyFront ++ t) = keyFront ++ t := lineOf_of_notMem (notMem_keyFront h)
  have hblanks : (Reader.mk (keyFront ++ t) 0 0 0 false [.documentMark]).takeBlanks =
      Reader.mk (keyFront ++ t) 0 0 0 false [.documentMark] := rfl
  have hindicators : (Reader.mk (keyFront ++ t) 0 0 0 false [.documentMark]).takeIndicators
      (keyFront ++ t).length = Reader.mk (keyFront ++ t) 0 0 0 false [.documentMark] := by
    rfl
  have hplain : (Reader.mk (keyFront ++ t) 0 0 0 false [.documentMark]).takePlain =
      ⟨CodeUnit.ofBasic ':' :: CodeUnit.ofBasic ' ' :: t, 0, 0, 0, false,
        [.text "key", .scalarMark, .documentMark]⟩ := by
    change Reader.takeScalar _ (plainLength false 0 0 (keyFront ++ t)) = _
    rw [plainLength_keyFront]
    rfl
  unfold Reader.document
  rw [hblanks]
  dsimp only
  rw [hindicators, hline, Nat.sub_self, if_neg (by exact nofun)]
  exact congrArg (·, Mode.document) hplain

theorem ne_of_contains {s : Text} (h : s.contains c = false) {d : CodeUnit} (hd : d ∈ s) :
    c ≠ d := by
  rintro rfl
  rw [Text.contains_iff.mpr hd] at h
  cases h

/-- Behind the colon and the blank no further indicator is read. -/
theorem takeIndicators_colon (hblank : isInline c = false)
    (hindicator : Text.contains "!&-?:" c = false) (r : Text) :
    (Reader.mk (CodeUnit.ofBasic ':' :: CodeUnit.ofBasic ' ' :: c :: r) 0 0 0 false
      [.text "key", .scalarMark, .documentMark]).takeIndicators (r.length + 3) =
      behindColon (c :: r) := by
  have hone : (CodeUnit.ofBasic ' ' :: c :: r).takeWhile isInline = [CodeUnit.ofBasic ' '] := by
    rw [List.takeWhile_cons_of_pos rfl, List.takeWhile_cons_of_neg (by rw [hblank]; exact nofun)]
  have hblanks : (Reader.mk (CodeUnit.ofBasic ' ' :: c :: r) 0 1 0 false
      [.text ":", .text "key", .scalarMark, .documentMark]).takeBlanks = behindColon (c :: r) := by
    rw [Reader.takeBlanks, Reader.blanks, hone]
    rfl
  have hstop : (behindColon (c :: r)).takeIndicators (r.length + 2) = behindColon (c :: r) := by
    have hne (d : CodeUnit) (hd : d ∈ Text.ofString "!&-?:") : c ≠ d :=
      ne_of_contains hindicator hd
    unfold Reader.takeIndicators
    dsimp only [behindColon]
    rw [if_neg (hne '!' (by decide)), if_neg (hne '&' (by decide))]
    apply if_neg
    rintro ⟨rfl | rfl | rfl, -⟩
    · exact hne _ (by decide) rfl
    · exact hne _ (by decide) rfl
    · exact hne _ (by decide) rfl
  rw [← hstop, ← hblanks]
  rfl

/-- The reader behind the value of an entry: it is read in quotes or as a plain scalar. -/
def behindValue (c : CodeUnit) (r : Text) : Reader :=
  if c = CodeUnit.ofBasic '\'' then (behindColon (c :: r)).takeQuoted
  else (behindColon (c :: r)).takePlain

/-- The value is read behind its key: in quotes, or as a plain scalar. -/
theorem document_value (hblank : isInline c = false)
    (hindicator : Text.contains "!&-?:#[]\x7b\x7d*\"|>" c = false) {r : Text}
    (hbreak : CodeUnit.ofBasic '\n' ∉ c :: r) :
    (Reader.mk (CodeUnit.ofBasic ':' :: CodeUnit.ofBasic ' ' :: c :: r) 0 0 0 false
      [.text "key", .scalarMark, .documentMark]).document =
      (behindValue c r, .document) := by
  have hne (d : CodeUnit) (hd : d ∈ Text.ofString "!&-?:#[]\x7b\x7d*\"|>") : c ≠ d :=
    ne_of_contains hindicator hd
  have hsub {s : Text} (hs : ∀ d ∈ s, d ∈ Text.ofString "!&-?:#[]\x7b\x7d*\"|>") :
      s.contains c = false := by
    rw [Bool.eq_false_iff, Ne, Text.contains_iff]
    exact fun hc => hne c (hs c hc) rfl
  have hindicators := takeIndicators_colon hblank (hsub (by decide)) r
  have hblanks : (Reader.mk (CodeUnit.ofBasic ':' :: CodeUnit.ofBasic ' ' :: c :: r) 0 0 0 false
      [.text "key", .scalarMark, .documentMark]).takeBlanks =
      Reader.mk (CodeUnit.ofBasic ':' :: CodeUnit.ofBasic ' ' :: c :: r) 0 0 0 false
        [.text "key", .scalarMark, .documentMark] := rfl
  have hline : lineOf (CodeUnit.ofBasic ':' :: CodeUnit.ofBasic ' ' :: c :: r) =
      CodeUnit.ofBasic ':' :: CodeUnit.ofBasic ' ' :: c :: r := by
    refine lineOf_of_notMem ?_
    rw [List.mem_cons, List.mem_cons, not_or, not_or]
    exact ⟨by decide, by decide, hbreak⟩
  unfold Reader.document behindValue
  rw [hblanks]
  dsimp only
  rw [hline, List.length_cons, List.length_cons, List.length_cons, hindicators]
  dsimp only [behindColon]
  -- two units have been read, and the line goes on
  have hsize : ¬ r.length + 1 + 1 + 1 - (c :: r).length = r.length + 1 + 1 + 1 := by
    rw [List.length_cons]
    omega
  refine (if_neg hsize).trans ?_
  rw [if_neg (hne '#' (by decide)), hsub (by decide), hsub (by decide), if_neg Bool.false_ne_true,
    if_neg Bool.false_ne_true, if_neg (hne '*' (by decide))]
  by_cases hquote : c = CodeUnit.ofBasic '\''
  · rw [if_pos (.inr hquote), if_pos hquote]
    rfl
  · rw [if_neg (not_or.mpr ⟨hne '"' (by decide), hquote⟩), if_neg hquote,
      if_neg (not_or.mpr ⟨hne '|' (by decide), hne '>' (by decide)⟩)]
    rfl

/-! ### The lexemes of an entry -/

/-- An entry is read with its value when that goes on to the end of the text. -/
theorem lexemes_keyFront (hblank : isInline c = false)
    (hindicator : Text.contains "!&-?:#[]\x7b\x7d*\"|>" c = false) {r : Text}
    (hbreak : CodeUnit.ofBasic '\n' ∉ c :: r) (hrest : (behindValue c r).rest = []) :
    lexemes (keyFront ++ c :: r) = (behindValue c r).reversed.reverse := by
  have hsize : 2 * (keyFront ++ c :: r).length + 4 = 2 * r.length + 16 := by
    rw [List.length_append, List.length_cons]
    change 2 * (5 + _) + 4 = _
    omega
  have hstep {s s' : Reader} {mode mode' : Mode} (hread : s.read mode = (s', mode'))
      (hne : s.rest ≠ []) (n : ℕ) : s.readAll mode (n + 1) = s'.readAll mode' n := by
    rw [Reader.readAll, if_neg (by rwa [List.isEmpty_iff]), hread]
  have hfirst : Reader.read _ .stream = _ := stream_key hbreak
  have hsecond : Reader.read _ .document = _ := document_key hbreak
  have hthird : Reader.read _ .document = _ := document_value hblank hindicator hbreak
  rw [lexemes, hsize, hstep hfirst (List.cons_ne_nil _ _), hstep hsecond (List.cons_ne_nil _ _),
    hstep hthird (List.cons_ne_nil _ _), Reader.readAll, if_pos (by rw [hrest]; rfl)]

/-- The lexemes of an entry with a plain scalar. -/
theorem lexemes_plain {r : Text} (hblank : isInline c = false)
    (hindicator : Text.contains "!&-?:#[]\x7b\x7d*\"|>" c = false)
    (hquote : c ≠ CodeUnit.ofBasic '\'') (hbreak : CodeUnit.ofBasic '\n' ∉ c :: r)
    (h : ¬ Breaks (c :: r)) (hend : EndsPlain (c :: r)) :
    lexemes (keyFront ++ c :: r) = [.documentMark, .scalarMark, .text "key", .text ":",
      .text " ", .scalarMark, .text (c :: r)] := by
  have hplain : (behindColon (c :: r)).takePlain =
      { behindColon [] with
        reversed := .text (c :: r) :: .scalarMark :: (behindColon []).reversed } := by
    change Reader.takeScalar _ (plainLength false 1 0 (c :: r)) = _
    rw [plainLength_eq hbreak h hend (List.cons_ne_nil c r), Nat.zero_add, Reader.takeScalar]
    dsimp only [behindColon]
    rw [List.drop_length, List.take_length]
  have hvalue : behindValue c r = _ := (if_neg hquote).trans hplain
  rw [lexemes_keyFront hblank hindicator hbreak (by rw [hvalue]; rfl), hvalue]
  rfl

/-- The lexemes of an entry with a text in single quotes. -/
theorem lexemes_quoted {body : Text} (hbreak : CodeUnit.ofBasic '\n' ∉ body)
    (hend : singleQuotedEnd body = some body.length) :
    lexemes (keyFront ++ CodeUnit.ofBasic '\'' :: body) = [.documentMark, .scalarMark,
      .text "key", .text ":", .text " ", .text (CodeUnit.ofBasic '\'' :: body)] := by
  have hquoted : (behindColon (CodeUnit.ofBasic '\'' :: body)).takeQuoted =
      { behindColon [] with
        reversed := .text (CodeUnit.ofBasic '\'' :: body) :: (behindColon []).reversed } := by
    change Reader.take _ (quotedLength 1 (CodeUnit.ofBasic '\'' :: body)) = _
    rw [quotedLength_eq hbreak hend, ← List.length_cons, Reader.take, if_neg (by simp)]
    dsimp only [behindColon]
    rw [List.drop_length, List.take_length]
  have hnotMem : CodeUnit.ofBasic '\n' ∉ CodeUnit.ofBasic '\'' :: body := by
    rw [List.mem_cons, not_or]
    exact ⟨by decide, hbreak⟩
  have hvalue : behindValue '\'' body = _ := (if_pos rfl).trans hquoted
  rw [lexemes_keyFront (by decide) (by decide) hnotMem (by rw [hvalue]; rfl), hvalue]
  rfl

end Yaml
end Scopewright
