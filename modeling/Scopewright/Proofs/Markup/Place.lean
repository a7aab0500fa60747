import Scopewright.Proofs.Markup.Growth

/-! # Places outside of markup

A place outside of markup (`Outside`) has whole pieces and units of character data in front of it.  What
is read up to there does not depend on what follows: the pieces of a text that goes on are those in
front of the place, and those of what stands behind it (`Outside.exists_pieces`).

All markup ends with a `>` (`construct_ends`). -/

namespace Scopewright
namespace Markup

open Text (findIdx_lt find_isPrefix)

/-- The place `n` units behind the offset `i`, from which on the text is read, is outside of markup. -/
inductive Outside : ℕ → Text → ℕ → Prop
  | here (i : ℕ) (t : Text) : Outside i t 0
  | unit {i n : ℕ} {c : CodeUnit} {r : Text} (hc : c ≠ CodeUnit.ofBasic '<')
      (h : Outside (i + 1) r n) : Outside i (c :: r) (n + 1)
  | markup {i n : ℕ} {r : Text} {kind : PieceKind} {last length : ℕ}
      (hpiece : construct (i + 1) r = .piece kind last length)
      (h : Outside (i + 1 + length) (r.drop length) n) :
      Outside i (CodeUnit.ofBasic '<' :: r) (length + n + 1)

variable {i n : ℕ} {t : Text} {kind : PieceKind} {last length : ℕ}

theorem Outside.le_length (h : Outside i t n) : n ≤ t.length := by
  induction h with
  | here => exact Nat.zero_le _
  | unit _ _ ih => exact Nat.succ_le_succ ih
  | markup hpiece _ ih =>
      have := (construct_complete hpiece).length_le
      rw [List.length_drop] at ih
      rw [List.length_cons]
      omega

/-- In front of a place outside of markup stand the same pieces whatever follows, and behind it those
of what follows. -/
theorem Outside.exists_pieces (h : Outside i t n) (reversed : Text) :
    ∃ ps data, ∀ u, u <+: t → n ≤ u.length →
      (piecesFrom reversed i u).1 = ps ++ (piecesFrom data (i + n) (u.drop n)).1 := by
  induction h generalizing reversed with
  | here i t => exact ⟨[], reversed, fun u _ _ => rfl⟩
  | @unit i n c r hc _ ih =>
      obtain ⟨ps, data, hps⟩ := ih (c :: reversed)
      refine ⟨ps, data, fun u hu hn => ?_⟩
      cases u with
      | nil => exact absurd hn (Nat.not_succ_le_zero n)
      | cons d u =>
          obtain ⟨rfl, hrest⟩ := List.cons_prefix_cons.mp hu
          rw [piecesFrom_unit hc, hps u hrest (Nat.le_of_succ_le_succ hn), List.drop_succ_cons,
            Nat.add_right_comm, Nat.add_assoc]
  | @markup i n r kind last length hpiece _ ih =>
      obtain ⟨ps, data, hps⟩ := ih []
      refine ⟨dataPiece reversed i ++ ⟨kind, i + 1 + last, i + 2 + last⟩ :: ps, data,
        fun u hu hn => ?_⟩
      cases u with
      | nil => exact absurd hn (Nat.not_succ_le_zero _)
      | cons d u =>
          obtain ⟨rfl, hrest⟩ := List.cons_prefix_cons.mp hu
          rw [List.length_cons] at hn
          have hsame := (construct_complete hpiece).of_isPrefix u hrest (by omega)
          have hbehind := hps (u.drop length) (hrest.drop length) (by rw [List.length_drop]; omega)
          have hplace : i + 1 + length + n = i + (length + n + 1) := by omega
          rw [piecesFrom_piece hsame, hbehind, List.drop_drop, List.drop_succ_cons, hplace,
            List.append_assoc, List.cons_append]

/-! ### Character data -/

theorem piecesFrom_data {data : Text} (hdata : CodeUnit.ofBasic '<' ∉ data) (reversed : Text)
    (i : ℕ) (r : Text) : piecesFrom reversed i (data ++ r) =
      piecesFrom (data.reverse ++ reversed) (i + data.length) r := by
  induction data generalizing reversed i with
  | nil => rfl
  | cons c data ih =>
      rw [List.mem_cons, not_or] at hdata
      rw [List.cons_append, piecesFrom_unit (Ne.symm hdata.1), ih hdata.2, List.reverse_cons,
        List.append_assoc, List.singleton_append, List.length_cons, Nat.add_assoc,
        Nat.add_comm 1]

theorem pieces_data {data : Text} (hdata : CodeUnit.ofBasic '<' ∉ data) (i : ℕ) :
    (piecesFrom [] i data).1 = dataPiece data.reverse (i + data.length) := by
  have h := piecesFrom_data hdata [] i []
  rw [List.append_nil, List.append_nil] at h
  rw [h, piecesFrom]

/-! ### The last unit of markup -/

theorem getElem_of_findIdx {k : ℕ} (h : t.findIdx? (· = CodeUnit.ofBasic '>') = some k) :
    t[k]? = some (CodeUnit.ofBasic '>') := by
  obtain ⟨hlt, hunit, -⟩ := List.findIdx?_eq_some_iff_getElem.mp h
  rw [List.getElem?_eq_getElem hlt, of_decide_eq_true hunit]

theorem getElem_of_find {needle : Text} {c : CodeUnit} {k j : ℕ}
    (h : Text.find? needle t = some k) (hj : needle[j]? = some c) : t[k + j]? = some c := by
  obtain ⟨rest, hrest⟩ := find_isPrefix h
  rw [← List.getElem?_drop, ← hrest,
    List.getElem?_append_left (List.getElem?_eq_some_iff.mp hj).1, hj]

/-- The last unit that a piece takes is a `>`. -/
def Ends (t : Text) (length : ℕ) : Prop := ∃ j, length = j + 1 ∧ t[j]? = some (CodeUnit.ofBasic '>')

theorem Ends.succ (h : Ends t length) (c : CodeUnit) : Ends (c :: t) (length + 1) := by
  obtain ⟨j, rfl, hj⟩ := h
  exact ⟨j + 1, rfl, hj⟩

theorem Ends.of_drop {lead : ℕ} (h : Ends (t.drop lead) length) : Ends t (lead + length) := by
  obtain ⟨j, rfl, hj⟩ := h
  rw [List.getElem?_drop] at hj
  exact ⟨lead + j, rfl, hj⟩

theorem Ends.of_findIdx {k : ℕ} (h : t.findIdx? (· = CodeUnit.ofBasic '>') = some k) :
    Ends t (k + 1) := ⟨k, rfl, getElem_of_findIdx h⟩

theorem Ends.take (h : Ends t length) :
    ∃ front, t.take length = front ++ [CodeUnit.ofBasic '>'] := by
  obtain ⟨j, rfl, hj⟩ := h
  exact ⟨t.take j, by rw [List.take_add_one, hj]; rfl⟩

theorem asideAfter_ends {skip : ℕ} {text : Text}
    (h : asideAfter skip i t text = .piece kind last length) : Ends t length := by
  unfold asideAfter at h
  split at h
  · rename_i k hk
    obtain ⟨-, -, rfl⟩ := Construct.piece.inj h
    exact (Ends.of_findIdx hk).of_drop
  · cases h

theorem declaration_ends (h : declaration i t = .piece kind last length) : Ends t length := by
  cases t with
  | nil => cases h
  | cons c r =>
      rcases declaration_cases h with ⟨-, -, k, hk, -, -, rfl⟩ | ⟨rfl, body, rfl, k, hk, -, -, rfl⟩ |
        ⟨skip, haside, -⟩
      · have hend : Ends (r.drop dataMark.length) (k + 3) := ⟨k + 2, rfl, getElem_of_find hk rfl⟩
        have hlength : k + 10 = dataMark.length + (k + 3) + 1 := by
          have : dataMark.length = 6 := rfl
          omega
        rw [hlength]
        exact hend.of_drop.succ c
      · exact ⟨k + 2, rfl, getElem_of_find hk rfl⟩
      · exact asideAfter_ends haside

theorem closingTag_ends (h : closingTag i t = .piece kind last length) : Ends t length := by
  obtain ⟨c, r, hr, -, ⟨-, k, hk, -, -, rfl⟩ | ⟨-, k, hk, -, rfl, rfl⟩⟩ := closingTag_iff.mp h
  · have hend : Ends (t.drop (t.takeWhile isSpace).length) (k + 1 + 1) := by
      rw [hr]
      exact (Ends.of_findIdx hk).succ c
    have hlength : (t.takeWhile isSpace).length + 2 + k =
        (t.takeWhile isSpace).length + (k + 1 + 1) := by
      omega
    rw [hlength]
    exact hend.of_drop
  · have hend : Ends (t.drop (t.takeWhile isSpace).length) ((closingTail r).length + (k + 1) + 1) := by
      rw [hr]
      exact (Ends.of_findIdx hk).of_drop.succ c
    have hlength : (t.takeWhile isSpace).length + 1 + (closingTail r).length + k + 1 =
        (t.takeWhile isSpace).length + ((closingTail r).length + (k + 1) + 1) := by omega
    rw [hlength]
    exact hend.of_drop

theorem stepBeforeName_goOn {c : CodeUnit} (hc : c ≠ CodeUnit.ofBasic '>') (mark : Option ℕ) :
    ∃ s m, stepBeforeName c i mark = .goOn s m := by
  unfold stepBeforeName
  rw [if_neg hc]
  split_ifs <;> exact ⟨_, _, rfl⟩

theorem stepAfterName_goOn {c : CodeUnit} (hc : c ≠ CodeUnit.ofBasic '>') (mark : Option ℕ) :
    ∃ s m, stepAfterName c i mark = .goOn s m := by
  unfold stepAfterName
  split_ifs
  · exact ⟨_, _, rfl⟩
  · exact stepBeforeName_goOn hc mark
  · exact ⟨_, _, rfl⟩
  · exact ⟨_, _, rfl⟩

/-- Only a `>` ends an opening tag. -/
theorem step_goOn {c : CodeUnit} (hc : c ≠ CodeUnit.ofBasic '>') (st : TagState)
    (mark : Option ℕ) : ∃ s m, st.step c i mark = .goOn s m := by
  have hbare : ∃ s m, stepBare c i mark = .goOn s m := by
    unfold stepBare
    split_ifs
    · exact stepBeforeName_goOn hc mark
    · exact ⟨_, _, rfl⟩
  cases st with
  | beforeName => exact stepBeforeName_goOn hc mark
  | slash =>
      simp only [TagState.step, if_neg hc]
      split_ifs
      · exact ⟨_, _, rfl⟩
      · exact stepBeforeName_goOn hc mark
  | inName start =>
      simp only [TagState.step]
      split_ifs
      · exact stepAfterName_goOn hc _
      · exact ⟨_, _, rfl⟩
  | afterName => exact stepAfterName_goOn hc mark
  | beforeValue =>
      simp only [TagState.step]
      split_ifs
      · exact ⟨_, _, rfl⟩
      · exact ⟨_, _, rfl⟩
      · exact hbare
  | quoted q =>
      simp only [TagState.step]
      split_ifs
      · exact ⟨_, _, rfl⟩
      · exact ⟨_, _, rfl⟩
  | bare => exact hbare

theorem readTag_ends {st : TagState} {mark : Option ℕ} {before : CodeUnit} {isEmpty : Bool}
    (h : readTag st i mark before t = .closed n isEmpty) : Ends t n := by
  induction t generalizing st i mark before n with
  | nil =>
      obtain ⟨hpos, hle⟩ := lt_of_readTag h
      exact absurd (Nat.lt_of_lt_of_le hpos hle) (Nat.lt_irrefl 0)
  | cons c r ih =>
      rw [readTag] at h
      by_cases hgoOn : ∃ s m, st.step c i mark = .goOn s m
      · obtain ⟨s, m, hstep⟩ := hgoOn
        rw [hstep] at h
        cases hrest : readTag s (i + 1) m c r with
        | closed k e =>
            simp only [hrest, TagEnd.succ] at h
            obtain ⟨rfl, rfl⟩ := TagEnd.closed.inj h
            exact (ih hrest).succ c
        | unfinished =>
            simp only [hrest, TagEnd.succ] at h
            cases h
      · have hc : c = CodeUnit.ofBasic '>' := by
          by_contra hc
          exact hgoOn (step_goOn hc st mark)
        have hn : n = 1 := by
          split at h
          · exact (TagEnd.closed.inj h).1.symm
          · exact (TagEnd.closed.inj h).1.symm
          · exact absurd ⟨_, _, ‹_›⟩ hgoOn
        exact ⟨0, hn, congrArg some hc⟩

theorem construct_ends (h : construct i t = .piece kind last length) : Ends t length := by
  cases t with
  | nil => cases h
  | cons c r =>
      rcases construct_cases h with ⟨-, last', length', hread, -, rfl⟩ | ⟨-, k, hk, -, -, rfl⟩ |
        ⟨-, last', length', hread, -, rfl⟩ | ⟨hname, hmark⟩
      · exact (declaration_ends hread).succ c
      · exact (Ends.of_findIdx hk).succ c
      · exact (closingTag_ends hread).succ c
      · obtain ⟨k, isEmpty, hend, -, rfl, rfl⟩ := (construct_tag_iff hname hmark).mp h
        exact (readTag_ends hend).of_drop.succ c

end Markup
end Scopewright
