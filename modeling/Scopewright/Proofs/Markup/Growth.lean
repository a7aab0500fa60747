import Scopewright.Markup.Element
import Scopewright.Proofs.Markup.Construct

/-! # How elements grow

A place in character data (`InData`) lies between pieces, or inside one that is character data.  The
pieces in front of it are those of the text up to it, but for the data that is cut off
(`exists_pieces_take`).  Each piece moves the place where the next element begins (`Rising`).

The nodes of a document grow out of what has been read: what stands inside an open element is the
beginning of what stands there in the end (`Builder.Grows`), whatever follows (`grows_nodes`).  The
elements of a document begin at different places, which rise as they are read (`nodes_starts`). -/

namespace Scopewright
namespace Markup

/-! ### The pieces in front of a place -/

/-- The place `n` units behind the offset `i`, from which on the text is read, is in character data:
outside of markup, or inside a section that is taken as it stands. -/
inductive InData : ℕ → Text → ℕ → Prop
  | here (i : ℕ) (t : Text) : InData i t 0
  | unit {i n : ℕ} {c : CodeUnit} {r : Text} (hc : c ≠ CodeUnit.ofBasic '<')
      (h : InData (i + 1) r n) : InData i (c :: r) (n + 1)
  | markup {i n : ℕ} {r : Text} {kind : PieceKind} {last length : ℕ}
      (hpiece : construct (i + 1) r = .piece kind last length)
      (h : InData (i + 1 + length) (r.drop length) n) :
      InData i (CodeUnit.ofBasic '<' :: r) (length + n + 1)
  | within {i n : ℕ} {r data : Text} {last length : ℕ}
      (hpiece : construct (i + 1) r = .piece (.text data) last length) (hbegun : 8 ≤ n)
      (hopen : n + 3 ≤ length) : InData i (CodeUnit.ofBasic '<' :: r) (n + 1)

theorem piecesFrom_unit {c : CodeUnit} (hc : c ≠ CodeUnit.ofBasic '<') (reversed : Text) (i : ℕ)
    (r : Text) : piecesFrom reversed i (c :: r) = piecesFrom (c :: reversed) (i + 1) r := by
  rw [piecesFrom, if_neg hc]

theorem piecesFrom_piece {i last length : ℕ} {r : Text} {kind : PieceKind}
    (h : construct (i + 1) r = .piece kind last length) (reversed : Text) :
    (piecesFrom reversed i (CodeUnit.ofBasic '<' :: r)).1 =
      dataPiece reversed i ++ ⟨kind, i + 1 + last, i + 2 + last⟩ ::
        (piecesFrom [] (i + 1 + length) (r.drop length)).1 := by
  rw [piecesFrom, if_pos rfl, h]

/-- In front of a place in character data stand the same pieces whether the text goes on or not. -/
theorem exists_pieces_take {i n : ℕ} {t : Text} (h : InData i t n) (reversed : Text) :
    ∃ ps data j qs, (piecesFrom reversed i (t.take n)).1 = ps ++ dataPiece data j ∧
      (piecesFrom reversed i t).1 = ps ++ qs := by
  induction h generalizing reversed with
  | here i t => exact ⟨[], reversed, i, _, by rw [List.take_zero, piecesFrom]; rfl, rfl⟩
  | unit hc _ ih =>
      rw [List.take_succ_cons, piecesFrom_unit hc, piecesFrom_unit hc]
      exact ih _
  | @markup i n r kind last length hpiece _ ih =>
      have hcomplete := construct_complete hpiece
      have htake : construct (i + 1) (r.take (length + n)) = .piece kind last length := by
        refine hcomplete.of_isPrefix _ (List.take_prefix _ _) ?_
        have := hcomplete.length_le
        rw [List.length_take]
        omega
      obtain ⟨ps, data, j, qs, hfront, hwhole⟩ := ih []
      rw [List.take_succ_cons, piecesFrom_piece htake, piecesFrom_piece hpiece, List.drop_take,
        Nat.add_sub_cancel_left, hfront, hwhole]
      exact ⟨dataPiece reversed i ++ ⟨kind, i + 1 + last, i + 2 + last⟩ :: ps, data, j, qs,
        by simp only [List.append_assoc, List.cons_append],
        by simp only [List.append_assoc, List.cons_append]⟩
  | @within i n r data last length hpiece hbegun hopen =>
      have hle := (construct_complete hpiece).length_le
      have hlength : (r.take n).length = n := List.length_take_of_le (by omega)
      obtain ⟨tail, htake⟩ := construct_section hpiece (List.take_prefix n r)
        (by rw [hlength]; exact hbegun) (by rw [hlength]; exact hopen)
      rw [List.take_succ_cons, piecesFrom_piece hpiece, piecesFrom, if_pos rfl, htake]
      exact ⟨dataPiece reversed i, [], 0, _, (List.append_nil _).symm, rfl⟩

/-! ### Where the next element begins -/

/-- Each piece moves the place where the next element begins, which is `k` in front of them. -/
def Rising : ℕ → List Piece → Prop
  | _, [] => True
  | k, p :: ps => k < p.next ∧ Rising p.next ps

theorem rising_data {k i : ℕ} {reversed : Text} {ps : List Piece} (hk : k + reversed.length ≤ i)
    (h : ∀ k' ≤ i, Rising k' ps) : Rising k (dataPiece reversed i ++ ps) := by
  unfold dataPiece
  cases reversed with
  | nil => exact h k hk
  | cons c r => exact ⟨Nat.lt_of_lt_of_le (Nat.lt_add_of_pos_right (Nat.succ_pos _)) hk, h i le_rfl⟩

theorem rising_piecesFrom {k i : ℕ} {reversed t : Text} (hk : k + reversed.length ≤ i) :
    Rising k (piecesFrom reversed i t).1 := by
  induction reversed, i, t using piecesFrom.induct generalizing k with
  | case1 reversed i =>
      rw [piecesFrom, ← List.append_nil (dataPiece reversed i)]
      exact rising_data hk fun _ _ => trivial
  | case2 reversed i r hread ih =>
      rw [piecesFrom, if_pos rfl, hread]
      exact ih (by rw [List.length_cons]; omega)
  | case3 reversed i r kind last length hpiece pieces tail _ ih =>
      have hlast := (construct_complete hpiece).last_lt
      rw [piecesFrom_piece hpiece]
      refine rising_data hk fun k' hk' => ⟨?_, ih ?_⟩
      · show k' < i + 2 + last
        omega
      · show i + 2 + last + 0 ≤ i + 1 + length
        omega
  | case4 reversed i r kind last tail hcut =>
      rw [piecesFrom, if_pos rfl, hcut]
      refine rising_data hk fun k' hk' => ⟨?_, trivial⟩
      show k' < i + 2 + last
      omega
  | case5 reversed i r tail hunfinished =>
      rw [piecesFrom, if_pos rfl, hunfinished, ← List.append_nil (dataPiece reversed i)]
      exact rising_data hk fun _ _ => trivial
  | case6 reversed i c r hc ih =>
      rw [piecesFrom_unit hc]
      exact ih (by rw [List.length_cons]; omega)

/-- Each piece of a document moves the place where the next element begins. -/
theorem rising_pieces (t : Text) : Rising 0 (pieces t).1 := rising_piecesFrom (Nat.le_refl 0)

/-! ### Open elements -/

/-- The elements that are open behind a text, innermost first. -/
def opens (t : Text) : List Open := ((pieces t).1.foldl Builder.read .start).stack

/-! ### Open elements and the whole document -/

/-- What stands inside the innermost of some open elements so far, or outside of all. -/
def levelOf (outside : List Node) : List Open → List Node
  | [] => outside.reverse
  | o :: _ => o.reversed.reverse

/-- A document has the open elements, and `inner` is all that stands inside the innermost of them. -/
def Encloses (outside : List Node) : List Open → List Node → List Node → Prop
  | [], inner, document => inner = document
  | o :: os, inner, document => ∃ stop more, Encloses outside os
      (levelOf outside os ++ .element o.name ⟨o.start, stop⟩ inner :: more) document

namespace Builder

/-- What has been read is the beginning of a document. -/
def Grows (b : Builder) (document : List Node) : Prop :=
  ∃ more, Encloses b.outside b.stack (levelOf b.outside b.stack ++ more) document

variable {b : Builder} {document : List Node}

theorem grows_add_iff {n : Node} : (b.add n).Grows document ↔
    ∃ more, Encloses b.outside b.stack (levelOf b.outside b.stack ++ n :: more) document := by
  unfold Grows add
  cases hstack : b.stack with
  | nil => simp [levelOf, Encloses]
  | cons o os => simp [levelOf, Encloses]

theorem Grows.of_add {n : Node} (h : (b.add n).Grows document) : b.Grows document := by
  obtain ⟨more, h⟩ := grows_add_iff.mp h
  exact ⟨n :: more, h⟩

theorem Grows.of_open {name : Text} {start : ℕ}
    (h : Grows { b with stack := ⟨name, start, []⟩ :: b.stack } document) : b.Grows document := by
  obtain ⟨inner, stop, more, h⟩ := h
  exact ⟨_ :: more, h⟩

theorem Grows.of_close {stop : ℕ} (h : (b.close stop).Grows document) : b.Grows document := by
  unfold close at h
  cases hstack : b.stack with
  | nil =>
      rw [hstack] at h
      exact h
  | cons o os =>
      rw [hstack] at h
      obtain ⟨more, h⟩ := grows_add_iff.mp h
      refine ⟨[], ?_⟩
      rw [hstack, List.append_nil]
      exact ⟨_, more, h⟩

theorem Grows.of_closeMany {stop n : ℕ} (h : (closeMany stop n b).Grows document) :
    b.Grows document := by
  induction n generalizing b with
  | zero => exact h
  | succ n ih => exact (ih h).of_close

theorem Grows.of_read {p : Piece} (h : (b.read p).Grows document) : b.Grows document := by
  unfold read at h
  cases hkind : p.kind with
  | text data =>
      rw [hkind] at h
      exact Grows.of_add h
  | opening name =>
      rw [hkind] at h
      exact Grows.of_open h
  | empty name =>
      rw [hkind] at h
      exact Grows.of_add h
  | closing name =>
      rw [hkind] at h
      simp only at h
      split at h
      · exact Grows.of_closeMany h
      · exact h
  | aside =>
      rw [hkind] at h
      exact h

/-- What has been read so far is the beginning of what is read in the end. -/
theorem Grows.of_foldl {ps : List Piece} (h : (ps.foldl read b).Grows document) :
    b.Grows document := by
  induction ps generalizing b with
  | nil => exact h
  | cons p ps ih => exact (ih h).of_read

theorem length_stack_add (n : Node) : (b.add n).stack.length = b.stack.length := by
  unfold add
  cases b.stack <;> rfl

theorem length_stack_close (stop : ℕ) : (b.close stop).stack.length = b.stack.length - 1 := by
  unfold close
  cases hstack : b.stack with
  | nil => simp [hstack]
  | cons o os => simp [length_stack_add]

theorem length_stack_closeMany (stop n : ℕ) :
    (closeMany stop n b).stack.length = b.stack.length - n := by
  induction n generalizing b with
  | zero => rfl
  | succ n ih =>
      rw [closeMany, ih, length_stack_close]
      omega

theorem stack_closeMany (stop : ℕ) : (closeMany stop b.stack.length b).stack = [] := by
  rw [← List.length_eq_zero_iff, length_stack_closeMany, Nat.sub_self]

theorem grows_finish (b : Builder) (t : Tail) : b.Grows (b.finish t) := by
  have hclosed (b : Builder) (stop : ℕ) :
      b.Grows (closeMany stop b.stack.length b).outside.reverse := by
    have hgrows : (closeMany stop b.stack.length b).Grows
        (closeMany stop b.stack.length b).outside.reverse := by
      refine ⟨[], ?_⟩
      rw [stack_closeMany, List.append_nil]
      rfl
    exact hgrows.of_closeMany
  unfold finish
  simp only
  split
  · exact hclosed b _
  · exact Grows.of_add (hclosed _ _)

end Builder

/-- Whatever follows some pieces, what they leave is the beginning of the document. -/
theorem grows_nodes {t : Text} {ps qs : List Piece} (h : (pieces t).1 = ps ++ qs) :
    (ps.foldl Builder.read .start).Grows (nodes t) := by
  have hwhole : ((pieces t).1.foldl Builder.read .start).Grows (nodes t) :=
    Builder.grows_finish _ _
  rw [h, List.foldl_append] at hwhole
  exact hwhole.of_foldl

/-! ### Where elements begin -/

mutual

/-- Where the elements at and below a node begin. -/
def Node.starts : Node → List ℤ
  | .data _ => []
  | .element _ span children => span.start :: startsOf children

/-- Where the elements at and below nodes begin. -/
def startsOf : List Node → List ℤ
  | [] => []
  | n :: ns => n.starts ++ startsOf ns

end

theorem startsOf_append (ms ns : List Node) : startsOf (ms ++ ns) = startsOf ms ++ startsOf ns := by
  induction ms with
  | nil => rfl
  | cons m ms ih => rw [List.cons_append, startsOf, startsOf, ih, List.append_assoc]

theorem startsOf_singleton (n : Node) : startsOf [n] = n.starts := List.append_nil _

namespace Builder

/-- Where the elements begin that have been read, in the order of the document. -/
def starts (b : Builder) : List ℤ :=
  startsOf b.outside.reverse ++
    b.stack.reverse.flatMap fun o => (o.start : ℤ) :: startsOf o.reversed.reverse

variable {b : Builder}

theorem starts_add (n : Node) : (b.add n).starts = b.starts ++ n.starts := by
  unfold starts add
  cases hstack : b.stack with
  | nil =>
      simp only [List.reverse_cons, startsOf_append, startsOf_singleton, List.reverse_nil,
        List.flatMap_nil, List.append_nil]
  | cons o os =>
      simp only [List.reverse_cons, startsOf_append, startsOf_singleton, List.flatMap_append,
        List.flatMap_singleton, List.append_assoc, List.cons_append]

theorem starts_close (stop : ℕ) : (b.close stop).starts = b.starts := by
  unfold close
  cases hstack : b.stack with
  | nil => rfl
  | cons o os =>
      simp only
      rw [starts_add]
      simp only [starts, hstack, Node.starts, List.reverse_cons, List.flatMap_append,
        List.flatMap_singleton, List.append_assoc]

theorem starts_closeMany (stop n : ℕ) : (closeMany stop n b).starts = b.starts := by
  induction n generalizing b with
  | zero => rfl
  | succ n ih => rw [closeMany, ih, starts_close]

/-- The elements that have been read begin at rising places, in front of the next one. -/
structure Ascending (b : Builder) : Prop where
  pairwise : b.starts.Pairwise (· < ·)
  lt_next : ∀ s ∈ b.starts, s < b.next

/-- A piece begins at most one element, at the place where the next one does. -/
theorem starts_read (p : Piece) :
    (b.read p).starts = b.starts ∨ (b.read p).starts = b.starts ++ [(b.next : ℤ)] := by
  unfold read
  cases p.kind with
  | text data => exact .inl ((starts_add _).trans (List.append_nil _))
  | opening name =>
      right
      simp only [starts, List.reverse_cons, List.flatMap_append, List.flatMap_singleton,
        List.reverse_nil, startsOf, List.append_assoc]
  | empty name => exact .inr (starts_add _)
  | closing name =>
      simp only
      split
      · exact .inl (starts_closeMany _ _)
      · exact .inl rfl
  | aside => exact .inl rfl

theorem Ascending.read (h : b.Ascending) {p : Piece} (hp : b.next < p.next) :
    (b.read p).Ascending := by
  have hlt : ∀ s ∈ b.starts, s < (p.next : ℤ) := by
    intro s hs
    have := h.lt_next s hs
    omega
  rcases starts_read (b := b) p with hstarts | hstarts
  · exact ⟨hstarts ▸ h.pairwise, hstarts ▸ hlt⟩
  · refine ⟨?_, ?_⟩
    · rw [hstarts, List.pairwise_append]
      refine ⟨h.pairwise, List.pairwise_singleton _ _, fun s hs next hnext => ?_⟩
      rw [List.mem_singleton.mp hnext]
      exact h.lt_next s hs
    · rw [hstarts]
      intro s hs
      rcases List.mem_append.mp hs with hs | hs
      · exact hlt s hs
      · rw [List.mem_singleton.mp hs]
        exact Int.ofNat_lt.mpr hp

theorem Ascending.foldl (h : b.Ascending) {ps : List Piece} (hps : Rising b.next ps) :
    (ps.foldl Builder.read b).Ascending := by
  induction ps generalizing b with
  | nil => exact h
  | cons p ps ih => exact ih (h.read hps.1) hps.2

theorem ascending_start : Builder.start.Ascending := ⟨List.Pairwise.nil, List.forall_mem_nil _⟩

theorem startsOf_finish (t : Tail) : startsOf (b.finish t) = b.starts := by
  have hclosed (b : Builder) (stop : ℕ) :
      startsOf (closeMany stop b.stack.length b).outside.reverse = b.starts := by
    rw [← starts_closeMany stop b.stack.length, starts, stack_closeMany]
    exact (List.append_nil _).symm
  unfold finish
  simp only
  split
  · exact hclosed b _
  · rw [hclosed, starts_add]
    exact List.append_nil _

end Builder

/-- The elements of a document begin at rising places. -/
theorem nodes_starts (t : Text) : (startsOf (nodes t)).Pairwise (· < ·) := by
  have hstarts : startsOf (nodes t) = ((pieces t).1.foldl Builder.read .start).starts :=
    Builder.startsOf_finish _
  rw [hstarts]
  exact (Builder.ascending_start.foldl (rising_pieces t)).pairwise

end Markup
end Scopewright
