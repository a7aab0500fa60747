import Scopewright.Proofs.Block.Row
import Scopewright.Proofs.Cursor.Inserted
import Scopewright.Proofs.Yaml.Key

/-! # Lines with a quoted key

A line may open items by markers, a dash and a space each, and then name a key between quotes
(`Yaml.keyLine`).  A quote that is written inside the key never closes it, so the key ends where it
was written, whatever it holds and whatever follows its colon (`Yaml.keyHead?_quotedKey`).  In
single quotes every key is read back, in double quotes every key without control characters and lone
surrogates (`Yaml.keyName_quotedKey`).

The entries of such a line are its markers, in their columns, and its key; the key has a value when
something other than a comment follows (`Yaml.lineEntries_keyLine`). -/

namespace Scopewright
namespace Yaml

open Block (spaces dashText dashCols endCol)
open Cursor (Quote)
open Cursor.Yaml (readBack)
open Json.Quoted (escape escapeUnit escapeUnit_cases Legible)

/-- A key between quotes: in double quotes it is escaped, in single quotes its quotes are doubled. -/
def quotedKey : Quote → Text → Text
  | .double, k => Json.Quoted.encode k
  | .single, k => '\'' :: (Completion.doubleQuotes k ++ [CodeUnit.ofBasic '\''])

/-- Markers of items, each a dash and a space. -/
def markers (m : ℕ) : Text := (List.replicate m ("- " : Text)).flatten

/-- What stands behind the colon of a key: nothing, or a space and the rest of the line. -/
def afterColon : Option Text → Text
  | none => []
  | some rest => ' ' :: rest

/-- An indented line with markers and a quoted key. -/
def keyLine (indent m : ℕ) (q : Quote) (k : Text) (rest : Option Text) : Text :=
  spaces indent ++ (markers m ++ (quotedKey q k ++ CodeUnit.ofBasic ':' :: afterColon rest))

variable {w s : Text} {col : ℕ} {q : Quote}

/-! ### Where the key ends -/

theorem doubleQuotedLength_word (hw : ∀ c ∈ w, c.isWord = true) (s : Text) :
    doubleQuotedLength (w ++ s) = (doubleQuotedLength s).map (· + w.length) := by
  induction w with
  | nil => simp
  | cons c w ih =>
      obtain ⟨hc, hw⟩ := List.forall_mem_cons.mp hw
      rw [List.cons_append, doubleQuotedLength_cons (CodeUnit.ne_of_isWord hc (by decide))
        (CodeUnit.ne_of_isWord hc (by decide)), ih hw, Option.map_map]
      rfl

theorem doubleQuotedLength_escapeUnit (c : CodeUnit) (s : Text) :
    doubleQuotedLength (escapeUnit c ++ s) =
      (doubleQuotedLength s).map (· + (escapeUnit c).length) := by
  rcases escapeUnit_cases c with ⟨-, hquote, hback, heq⟩ | ⟨-, hc, heq⟩ | ⟨-, d, w, hw, -, heq⟩
  · rw [heq]
    exact doubleQuotedLength_cons hquote hback s
  · have hends : ¬ c.endsLine = true := by rcases hc with rfl | rfl <;> decide
    rw [heq]
    exact (doubleQuotedLength_escape c s).trans (if_neg hends)
  · obtain ⟨hd, hw⟩ := List.forall_mem_cons.mp hw
    have hends : ¬ d.endsLine = true := by simp [Cursor.Yaml.endsLine_of_isWord hd]
    rw [heq]
    refine (doubleQuotedLength_escape d (w ++ s)).trans ((if_neg hends).trans ?_)
    rw [doubleQuotedLength_word hw, Option.map_map]
    rfl

/-- No unit of an escaped text closes it, so the quote behind it does. -/
theorem doubleQuotedLength_escaped (k s : Text) :
    doubleQuotedLength (escape k ++ CodeUnit.ofBasic '"' :: s) = some ((escape k).length + 1) := by
  fun_induction escape k with
  | case1 => exact doubleQuotedLength_quote s
  | case2 c =>
      rw [doubleQuotedLength_escapeUnit, doubleQuotedLength_quote, Option.map_some, Nat.add_comm]
  | case3 c d r hpair ih =>
      obtain ⟨hc, hd⟩ := Bool.and_eq_true_iff.mp hpair
      have hquote : ∀ e : CodeUnit, e.isLeadSurrogate = true ∨ e.isTrailSurrogate = true →
          e ≠ CodeUnit.ofBasic '"' := by
        rintro e he rfl
        revert he
        decide
      rw [List.cons_append, List.cons_append,
        doubleQuotedLength_cons (hquote c (.inl hc)) (Json.Quoted.ne_backslash_of_lead hc),
        doubleQuotedLength_cons (hquote d (.inr hd)) (Json.Quoted.ne_backslash_of_trail hd), ih]
      rfl
  | case4 c d r _ ih =>
      rw [List.append_assoc, doubleQuotedLength_escapeUnit, ih, Option.map_some, List.length_append]
      exact congrArg some (by omega)

theorem singleQuotedLength_doubleQuotes (k : Text)
    (hs : s.head? ≠ some (CodeUnit.ofBasic '\'')) :
    singleQuotedLength (Completion.doubleQuotes k ++ CodeUnit.ofBasic '\'' :: s) =
      some ((Completion.doubleQuotes k).length + 1) := by
  induction k with
  | nil => exact singleQuotedLength_quote hs
  | cons c k ih =>
      have htwice : (("''" : Text) ++ Completion.doubleQuotes k) ++ CodeUnit.ofBasic '\'' :: s =
          CodeUnit.ofBasic '\'' :: CodeUnit.ofBasic '\'' ::
            (Completion.doubleQuotes k ++ CodeUnit.ofBasic '\'' :: s) := rfl
      have honce : ([c] ++ Completion.doubleQuotes k) ++ CodeUnit.ofBasic '\'' :: s =
          c :: (Completion.doubleQuotes k ++ CodeUnit.ofBasic '\'' :: s) := rfl
      rw [Completion.doubleQuotes_cons]
      split_ifs with hc
      · rw [htwice, singleQuotedLength_doubled, ih]
        rfl
      · rw [honce, singleQuotedLength_cons hc, ih]
        rfl

/-- A quoted text at the front is the key when a colon follows. -/
theorem quotedHead?_colon (key : Text) (hs : s.head?.all CodeUnit.isBlank = true) :
    quotedHead? (key ++ CodeUnit.ofBasic ':' :: s) key.length =
      some ⟨key, key.length + 1⟩ := by
  rw [quotedHead?, List.drop_left, List.take_left, Block.colonLength?_colon hs]
  rfl

theorem keyHead?_quotedKey (q : Quote) (k : Text) (hs : s.head?.all CodeUnit.isBlank = true) :
    keyHead? (quotedKey q k ++ CodeUnit.ofBasic ':' :: s) =
      some ⟨quotedKey q k, (quotedKey q k).length + 1⟩ := by
  have hhead := quotedHead?_colon (quotedKey q k) hs
  cases q with
  | double =>
      have hlength : doubleQuotedLength ((escape k ++ [CodeUnit.ofBasic '"']) ++
          CodeUnit.ofBasic ':' :: s) = some ((escape k).length + 1) := by
        rw [List.append_assoc]
        exact doubleQuotedLength_escaped k _
      change (doubleQuotedLength ((escape k ++ [CodeUnit.ofBasic '"']) ++
        CodeUnit.ofBasic ':' :: s) >>= _) = _
      rw [hlength]
      rw [quotedKey, Json.Quoted.encode, List.length_cons, List.length_append] at hhead ⊢
      exact hhead
  | single =>
      have hlength : singleQuotedLength ((Completion.doubleQuotes k ++ [CodeUnit.ofBasic '\'']) ++
          CodeUnit.ofBasic ':' :: s) = some ((Completion.doubleQuotes k).length + 1) := by
        rw [List.append_assoc]
        exact singleQuotedLength_doubleQuotes k nofun
      change (singleQuotedLength ((Completion.doubleQuotes k ++ [CodeUnit.ofBasic '\'']) ++
        CodeUnit.ofBasic ':' :: s) >>= _) = _
      rw [hlength]
      rw [quotedKey, List.length_cons, List.length_append] at hhead ⊢
      exact hhead

/-! ### What the key stands for -/

theorem isQuotedBy_append (c : CodeUnit) (t : Text) : isQuotedBy c (c :: (t ++ [c])) = true := by
  have hlast : (c :: (t ++ [c])).getLast? = some c := List.getLast?_concat (l := c :: t)
  simp [isQuotedBy, hlast]

theorem keyName_quotedKey (q : Quote) (k : Text) : keyName (quotedKey q k) = readBack q k := by
  cases q with
  | double =>
      have hquoted : isQuotedBy '"' (quotedKey .double k) = true := isQuotedBy_append _ _
      rw [keyName, if_pos hquoted, readBack, ← Cursor.Yaml.dropBackslashes_escape]
      exact congrArg dropBackslashes List.dropLast_concat
  | single =>
      have hquoted : isQuotedBy '\'' (quotedKey .single k) = true := isQuotedBy_append _ _
      have hhead : decide ((quotedKey .single k).head? = some (CodeUnit.ofBasic '"')) = false :=
        decide_eq_false fun h => absurd (Option.some.inj h) (by decide)
      have hdouble : ¬ isQuotedBy '"' (quotedKey .single k) = true := by
        rw [isQuotedBy, hhead, Bool.and_false, Bool.false_and]
        exact Bool.false_ne_true
      have hbody : ((quotedKey .single k).drop 1).dropLast = Completion.doubleQuotes k :=
        List.dropLast_concat
      rw [keyName, if_neg hdouble, if_pos hquoted, hbody, Cursor.Yaml.doubleQuotes_eq]
      exact Cursor.Yaml.valueText_write .single k

/-- A key is read back in single quotes, and in double quotes if it is legible. -/
theorem readBack_eq_iff {k : Text} : readBack q k = k ↔ q = .double → Legible k := by
  cases q with
  | single => simp [readBack]
  | double => simp [readBack, Json.Quoted.bare_eq_iff]

/-! ### The line -/

theorem trim_afterColon (rest : Option Text) :
    Text.trim (afterColon rest) = Text.trim (rest.getD []) := by
  cases rest with
  | none => rfl
  | some rest =>
      have hblank : CodeUnit.isBlank (CodeUnit.ofBasic ' ') = true := by decide
      rw [afterColon, Text.trim, Text.trimStart, List.dropWhile_cons_of_pos hblank]
      rfl

theorem keyMember?_quotedKey (col : ℕ) (q : Quote) (k : Text) (rest : Option Text) :
    ∃ hasValue blockScalar,
      keyMember? col (quotedKey q k ++ CodeUnit.ofBasic ':' :: afterColon rest) =
        some (.key col (readBack q k) hasValue blockScalar) ∧
      (hasValue = true ↔ Text.trim (rest.getD []) ≠ [] ∧
        (Text.trim (rest.getD [])).head? ≠ some (CodeUnit.ofBasic '#')) := by
  have hblank : (afterColon rest).head?.all CodeUnit.isBlank = true := by cases rest <;> rfl
  have hdrop : (quotedKey q k ++ CodeUnit.ofBasic ':' :: afterColon rest).drop
      ((quotedKey q k).length + 1) = afterColon rest := by
    rw [← List.drop_drop, List.drop_left]
    rfl
  rw [keyMember?, keyHead?_quotedKey q k hblank, Option.map_some]
  simp only [hdrop, trim_afterColon, keyName_quotedKey]
  refine ⟨_, _, rfl, ?_⟩
  cases Text.trim (rest.getD []) with
  | nil => simp
  | cons c r => simp

theorem markers_eq (m : ℕ) : markers m = dashText (List.replicate m 0) := by
  induction m with
  | zero => rfl
  | succ m ih =>
      rw [markers, List.replicate_succ, List.flatten_cons, ← markers, ih]
      rfl

/-- Markers stand in every second column. -/
theorem dashCols_replicate (m : ℕ) (col : ℕ) :
    dashCols col (List.replicate m 0) = (List.range m).map (col + 2 * ·) ∧
      endCol col (List.replicate m 0) = col + 2 * m := by
  induction m generalizing col with
  | zero => exact ⟨rfl, rfl⟩
  | succ m ih =>
      obtain ⟨hcols, hend⟩ := ih (col + 0 + 2)
      rw [List.replicate_succ, dashCols, endCol, hcols, hend, List.range_succ_eq_map,
        List.map_cons, List.map_map]
      refine ⟨congrArg (col :: ·) (List.map_congr_left fun i _ => ?_), by omega⟩
      simp only [Function.comp_apply]
      omega

/-- Behind the markers stands a quote. -/
theorem exists_quote (q : Quote) (k : Text) (rest : Option Text) :
    ∃ r, quotedKey q k ++ CodeUnit.ofBasic ':' :: afterColon rest = q.unit :: r := by
  cases q <;> exact ⟨_, rfl⟩

theorem isPlainLine_keyLine (indent m : ℕ) (q : Quote) (k : Text) (rest : Option Text) :
    isPlainLine (keyLine indent m q k rest) = false := by
  rw [keyLine, markers_eq]
  cases m with
  | succ m => exact Block.isPlainLine_eq_false (by decide) (by decide) (by decide) rfl
  | zero =>
      obtain ⟨r, hr⟩ := exists_quote q k rest
      rw [hr]
      cases q with
      | double => exact Block.isPlainLine_eq_false (by decide) (by decide) (by decide) rfl
      | single => exact Block.isPlainLine_eq_false (by decide) (by decide) (by decide) rfl

/-- Where the line begins, its markers and what stands behind them. -/
theorem dashes_keyLine (indent m : ℕ) (q : Quote) (k : Text) (rest : Option Text) :
    indentOf (keyLine indent m q k rest) = indent ∧
      dashes indent ((keyLine indent m q k rest).drop indent) =
        ⟨(List.range m).map (indent + 2 * ·), indent + 2 * m,
          quotedKey q k ++ CodeUnit.ofBasic ':' :: afterColon rest⟩ := by
  obtain ⟨r, hr⟩ := exists_quote q k rest
  have hitem : beginsItem (q.unit :: r) = false := by cases q <;> rfl
  have hblank : ∀ c, (q.unit :: r).head? = some c → c.isBlank = false := by
    intro c hc
    rw [← Option.some.inj hc]
    cases q <;> rfl
  obtain ⟨hcols, hend⟩ := dashCols_replicate m indent
  rw [keyLine, markers_eq, hr]
  refine ⟨Block.indentOf_spaces indent (Block.head_dashText hblank _), ?_⟩
  rw [List.drop_left' (Block.length_spaces indent), Block.dashes_dashText hitem hblank, hcols, hend]

/-- **Lines with a quoted key.**  A line of markers and a key between quotes opens an item in the
column of each marker and then names the key, whatever is in the key and behind its colon.  The name is
the key that was written, in double quotes exactly if it has no control characters and no lone
surrogates; the key has a value exactly if more than a comment follows. -/
theorem lineEntries_keyLine (indent m : ℕ) (q : Quote) (k : Text) (rest : Option Text) :
    ∃ name hasValue blockScalar,
      lineEntries (keyLine indent m q k rest) =
        (List.range m).map (fun i => .dash (indent + 2 * i)) ++
          [.key (indent + 2 * m) name hasValue blockScalar] ∧
      (name = k ↔ q = .double → Legible k) ∧
      (hasValue = true ↔ Text.trim (rest.getD []) ≠ [] ∧
        (Text.trim (rest.getD [])).head? ≠ some (CodeUnit.ofBasic '#')) := by
  obtain ⟨hasValue, blockScalar, hmember, hvalue⟩ :=
    keyMember?_quotedKey (indent + 2 * m) q k rest
  obtain ⟨hindent, hdashes⟩ := dashes_keyLine indent m q k rest
  refine ⟨readBack q k, hasValue, blockScalar, ?_, readBack_eq_iff, hvalue⟩
  rw [lineEntries, isPlainLine_keyLine, if_neg Bool.false_ne_true, hindent, hdashes]
  simp only [hmember, List.map_map]
  rfl

end Yaml
end Scopewright
