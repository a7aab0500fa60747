import Mathlib.Data.List.Forall2
import Scopewright.Proofs.Markup.Growth
import Scopewright.Proofs.Markup.Place

/-! # Well-formed content

Content is well-formed when each tag that opens an element has one that closes the same element, and
elements do not overlap (`Reads`).  It is told as it is written (`Source`), with what stands behind it
still there.  Well-formed content adds its nodes to the element that it stands in and leaves the other
open elements alone (`Reads.exists_nodes`).

In a well-formed document the elements that are open at a place are closed one after the other behind
it (`Levels`), with well-formed content in between (`exists_behind`). -/

namespace Scopewright
namespace Markup

/-- A part of the content of an element as it is written: a unit of character data, markup without
anything inside, or an element with its two tags.  The units of markup are those behind its `<`. -/
inductive Source where
  | unit (c : CodeUnit)
  | markup (kind : PieceKind) (units : Text)
  | element (name opening : Text) (inner : List Source) (closing : Text)

/-- The piece stands by itself: it neither opens nor closes an element. -/
def PieceKind.isWhole : PieceKind → Bool
  | opening _ => false
  | closing _ => false
  | _ => true

/-- From the offset `i` on a text has well-formed content, behind which the rest stands at the offset
`j`. -/
inductive Reads : ℕ → Text → List Source → ℕ → Text → Prop
  | done (i : ℕ) (t : Text) : Reads i t [] i t
  | unit {i j : ℕ} {c : CodeUnit} {r rest : Text} {ss : List Source}
      (hc : c ≠ CodeUnit.ofBasic '<') (h : Reads (i + 1) r ss j rest) :
      Reads i (c :: r) (.unit c :: ss) j rest
  | markup {i j last length : ℕ} {r rest : Text} {kind : PieceKind} {ss : List Source}
      (hpiece : construct (i + 1) r = .piece kind last length) (hkind : kind.isWhole = true)
      (h : Reads (i + 1 + length) (r.drop length) ss j rest) :
      Reads i (CodeUnit.ofBasic '<' :: r) (.markup kind (r.take length) :: ss) j rest
  | element {i j k last length last' length' : ℕ} {r r' rest name : Text}
      {inner ss : List Source} (hopen : construct (i + 1) r = .piece (.opening name) last length)
      (hinner : Reads (i + 1 + length) (r.drop length) inner k (CodeUnit.ofBasic '<' :: r'))
      (hclose : construct (k + 1) r' = .piece (.closing name) last' length')
      (h : Reads (k + 1 + length') (r'.drop length') ss j rest) :
      Reads i (CodeUnit.ofBasic '<' :: r)
        (.element name (r.take length) inner (r'.take length') :: ss) j rest

/-- A text is well-formed content from its front to its end. -/
def WellFormed (t : Text) : Prop := ∃ ss j, Reads 0 t ss j []

/-! ### Open elements behind a place -/

/-- What stands behind a place in an element that is open there: content, and the closing tag. -/
structure Level where
  name : Text
  inner : List Source
  /-- The units of the tag behind its `<`. -/
  closing : Text

/-- From the offset `i` on stands what is left of some open elements, one behind the other, innermost
first, and then content up to the end. -/
inductive Levels : List Level → ℕ → Text → Prop
  | outside {i j : ℕ} {t : Text} {ss : List Source} (h : Reads i t ss j []) : Levels [] i t
  | inside {i k last length : ℕ} {t r name : Text} {inner : List Source} {ls : List Level}
      (hinner : Reads i t inner k (CodeUnit.ofBasic '<' :: r))
      (hclose : construct (k + 1) r = .piece (.closing name) last length)
      (h : Levels ls (k + 1 + length) (r.drop length)) :
      Levels (⟨name, inner, r.take length⟩ :: ls) i t

/-- Some elements are open, innermost first, and each one is closed. -/
def Closed (names : List Text) (i : ℕ) (t : Text) : Prop :=
  ∃ ls : List Level, ls.map Level.name = names ∧ Levels ls i t

section closed

variable {i : ℕ} {t r : Text} {c : CodeUnit} {names : List Text} {kind : PieceKind}
  {last length : ℕ}

theorem Closed.inside {k : ℕ} {name : Text} {inner : List Source}
    (hinner : Reads i t inner k (CodeUnit.ofBasic '<' :: r))
    (hclose : construct (k + 1) r = .piece (.closing name) last length)
    (h : Closed names (k + 1 + length) (r.drop length)) : Closed (name :: names) i t := by
  obtain ⟨ls, rfl, hls⟩ := h
  exact ⟨_, rfl, .inside hinner hclose hls⟩

theorem Closed.unit (h : Closed names i (c :: r)) (hc : c ≠ CodeUnit.ofBasic '<') :
    Closed names (i + 1) r := by
  obtain ⟨ls, rfl, hls⟩ := h
  cases hls with
  | outside h =>
      cases h with
      | unit _ h => exact ⟨[], rfl, .outside h⟩
      | markup => exact absurd rfl hc
      | element => exact absurd rfl hc
  | inside h hclose hrest =>
      cases h with
      | done => exact absurd rfl hc
      | unit _ h => exact .inside h hclose ⟨_, rfl, hrest⟩
      | markup => exact absurd rfl hc
      | element => exact absurd rfl hc

/-- The elements that are open behind a piece. -/
def namesBehind (names : List Text) : PieceKind → List Text
  | .opening name => name :: names
  | .closing _ => names.tail
  | _ => names

theorem namesBehind_of_isWhole (h : kind.isWhole = true) : namesBehind names kind = names := by
  cases kind <;> first | rfl | cases h

/-- Behind a piece the elements are closed that the piece leaves open, and a closing tag is that of the
innermost one. -/
theorem Closed.piece (h : Closed names i (CodeUnit.ofBasic '<' :: r))
    (hpiece : construct (i + 1) r = .piece kind last length) :
    Closed (namesBehind names kind) (i + 1 + length) (r.drop length) ∧
      ∀ name, kind = .closing name → names.head? = some name := by
  obtain ⟨ls, rfl, hls⟩ := h
  cases hls with
  | outside h =>
      cases h with
      | unit hc => exact absurd rfl hc
      | markup hpiece' hkind h =>
          rw [hpiece] at hpiece'
          obtain ⟨rfl, rfl, rfl⟩ := Construct.piece.inj hpiece'
          rw [namesBehind_of_isWhole hkind]
          exact ⟨⟨[], rfl, .outside h⟩, by rintro name rfl; cases hkind⟩
      | element hopen hinner hclose h =>
          rw [hpiece] at hopen
          obtain ⟨rfl, rfl, rfl⟩ := Construct.piece.inj hopen
          exact ⟨.inside hinner hclose ⟨[], rfl, .outside h⟩, nofun⟩
  | inside h hclose hrest =>
      cases h with
      | done =>
          rw [hpiece] at hclose
          obtain ⟨rfl, rfl, rfl⟩ := Construct.piece.inj hclose
          exact ⟨⟨_, rfl, hrest⟩, fun name hname => congrArg some (PieceKind.closing.inj hname)⟩
      | unit hc => exact absurd rfl hc
      | markup hpiece' hkind h =>
          rw [hpiece] at hpiece'
          obtain ⟨rfl, rfl, rfl⟩ := Construct.piece.inj hpiece'
          rw [namesBehind_of_isWhole hkind]
          exact ⟨.inside h hclose ⟨_, rfl, hrest⟩, by rintro name rfl; cases hkind⟩
      | element hopen hinner hclose' h =>
          rw [hpiece] at hopen
          obtain ⟨rfl, rfl, rfl⟩ := Construct.piece.inj hopen
          exact ⟨.inside hinner hclose' (.inside h hclose ⟨_, rfl, hrest⟩), nofun⟩

end closed

/-! ### Reading well-formed content -/

namespace Builder

variable {b : Builder} {p : Piece}

/-- The names of the elements that are open, innermost first. -/
def names (b : Builder) : List Text := b.stack.map Open.name

theorem names_add (n : Node) : (b.add n).names = b.names := by
  unfold names add
  cases b.stack <;> rfl

/-- A tag of the innermost element closes it alone. -/
theorem read_closing {o : Open} {os : List Open} (hstack : b.stack = o :: os)
    (hp : p.kind = .closing o.name) : b.read p =
      { add { b with stack := os } (.element o.name ⟨o.start, p.stop + 1⟩ o.reversed.reverse) with
        next := p.next } := by
  have hfirst : (o :: os).findIdx? (fun o' => decide (o'.name = o.name)) = some 0 := by
    rw [List.findIdx?_cons, if_pos (decide_eq_true rfl)]
  unfold read
  rw [hp]
  simp only [hstack, hfirst, closeMany, close]

theorem names_read (hp : ∀ name, p.kind = .closing name → b.names.head? = some name) :
    (b.read p).names = namesBehind b.names p.kind := by
  cases hkind : p.kind with
  | text data =>
      unfold read
      rw [hkind]
      exact names_add _
  | opening name =>
      unfold read
      rw [hkind]
      rfl
  | empty name =>
      unfold read
      rw [hkind]
      exact names_add _
  | aside =>
      unfold read
      rw [hkind]
      rfl
  | closing name =>
      have hhead := hp name hkind
      unfold names at hhead ⊢
      cases hstack : b.stack with
      | nil =>
          rw [hstack] at hhead
          cases hhead
      | cons o os =>
          rw [hstack] at hhead
          rw [← Option.some.inj hhead] at hkind
          rw [read_closing hstack hkind]
          exact names_add _

theorem names_dataPiece (reversed : Text) (i : ℕ) :
    ((dataPiece reversed i).foldl read b).names = b.names := by
  unfold dataPiece
  split
  · rfl
  · exact names_add _

end Builder

/-- **Open elements.**  In well-formed content the elements that are open at a place are those that are
closed behind it. -/
theorem Outside.closed {i n : ℕ} {t : Text} (h : Outside i t n) {b : Builder}
    (hb : Closed b.names i t) (reversed : Text) :
    Closed ((piecesFrom reversed i (t.take n)).1.foldl Builder.read b).names (i + n) (t.drop n) := by
  induction h generalizing b reversed with
  | here i t =>
      rw [List.take_zero, piecesFrom, Builder.names_dataPiece]
      exact hb
  | @unit i n c r hc _ ih =>
      rw [List.take_succ_cons, piecesFrom_unit hc, List.drop_succ_cons, ← Nat.add_assoc,
        Nat.add_right_comm]
      exact ih (hb.unit hc) _
  | @markup i n r kind last length hpiece h ih =>
      have hle := h.le_length
      have hlength := (construct_complete hpiece).length_le
      rw [List.length_drop] at hle
      have hsame := (construct_complete hpiece).of_isPrefix (r.take (length + n))
        (List.take_prefix _ _) (by rw [List.length_take]; omega)
      obtain ⟨hnames, hclosed⟩ := hb.piece hpiece
      rw [← Builder.names_dataPiece reversed i] at hnames hclosed
      have hread : (((dataPiece reversed i).foldl Builder.read b).read
          ⟨kind, i + 1 + last, i + 2 + last⟩).names =
          namesBehind ((dataPiece reversed i).foldl Builder.read b).names kind :=
        Builder.names_read hclosed
      rw [← hread] at hnames
      have hplace : i + (length + n + 1) = i + 1 + length + n := by omega
      rw [List.take_succ_cons, piecesFrom_piece hsame, List.foldl_append, List.foldl_cons,
        List.drop_take, Nat.add_sub_cancel_left, List.drop_succ_cons, hplace, ← List.drop_drop]
      exact ih hnames []

/-- The elements that are open at a place, with what stands behind it in each of them. -/
structure Behind (t : Text) (n : ℕ) (ls : List Level) : Prop where
  names : ls.map Level.name = (opens (t.take n)).map Open.name
  levels : Levels ls n (t.drop n)

theorem exists_behind {t : Text} {n : ℕ} (ht : WellFormed t) (h : Outside 0 t n) :
    ∃ ls, Behind t n ls := by
  obtain ⟨ss, j, hreads⟩ := ht
  obtain ⟨ls, hnames, hlevels⟩ := h.closed (b := .start) ⟨[], rfl, .outside hreads⟩ []
  rw [Nat.zero_add] at hlevels
  exact ⟨ls, hnames, hlevels⟩

/-! ### The nodes of content -/

/-- The character data of content without markup. -/
def dataOf? : List Source → Option Text
  | [] => some []
  | .unit c :: ss => (dataOf? ss).map (c :: ·)
  | _ => none

/-- What is told of an element by the way that it is written: its name, and its character data when no
markup is in it. -/
def Source.element? : Source → Option (Text × Option Text)
  | .markup (.empty name) _ => some (name, some [])
  | .element name _ inner _ => some (name, (dataOf? inner).map Reference.readStrict)
  | _ => none

/-- The elements among nodes are those that are written. -/
def AreNodes (ss : List Source) (ns : List Node) : Prop :=
  List.Forall₂ (fun s e => s.1 = e.name ∧ ∀ d ∈ s.2, e.textContent = d)
    (ss.filterMap Source.element?) (elementsOf ns)

theorem AreNodes.append {ss ss' : List Source} {ns ns' : List Node} (h : AreNodes ss ns)
    (h' : AreNodes ss' ns') : AreNodes (ss ++ ss') (ns ++ ns') := by
  unfold AreNodes elementsOf at *
  rw [List.filterMap_append, List.filterMap_append]
  exact List.rel_append h h'

theorem AreNodes.data {ss : List Source} {ms ns : List Node} (hms : elementsOf ms = [])
    (h : AreNodes ss ns) : AreNodes ss (ms ++ ns) := by
  unfold AreNodes elementsOf at *
  rw [List.filterMap_append, hms]
  exact h

/-- Nodes have been added to the innermost open element. -/
def Builder.Adds (b b' : Builder) (ns : List Node) : Prop :=
  ∃ next, b' = { ns.foldl Builder.add b with next := next }

namespace Builder

variable {b b' b'' : Builder} {ns ms : List Node}

theorem add_next (n : Node) (k : ℕ) : add { b with next := k } n = { b.add n with next := k } := by
  unfold add
  cases b.stack <;> rfl

theorem foldl_add_next (k : ℕ) :
    ns.foldl add { b with next := k } = { ns.foldl add b with next := k } := by
  induction ns generalizing b with
  | nil => rfl
  | cons n ns ih => rw [List.foldl_cons, add_next, ih, List.foldl_cons]

theorem Adds.refl (b : Builder) : b.Adds b [] := ⟨b.next, rfl⟩

theorem Adds.trans (h : b.Adds b' ns) (h' : b'.Adds b'' ms) : b.Adds b'' (ns ++ ms) := by
  obtain ⟨k, rfl⟩ := h
  obtain ⟨k', rfl⟩ := h'
  refine ⟨k', ?_⟩
  rw [foldl_add_next, List.foldl_append]

theorem foldl_add {o : Open} {os : List Open} (hstack : b.stack = o :: os) : ns.foldl add b =
    { b with stack := { o with reversed := ns.reverse ++ o.reversed } :: os } := by
  induction ns generalizing b o with
  | nil => rw [List.foldl_nil, List.reverse_nil, List.nil_append, ← hstack]
  | cons n ns ih =>
      have hadd : b.add n = { b with stack := { o with reversed := n :: o.reversed } :: os } := by
        unfold add
        rw [hstack]
      rw [List.foldl_cons, ih (congrArg stack hadd), hadd, List.reverse_cons, List.append_assoc]
      rfl

theorem length_stack_foldl_add : (ns.foldl add b).stack.length = b.stack.length := by
  induction ns generalizing b with
  | nil => rfl
  | cons n ns ih => rw [List.foldl_cons, ih, length_stack_add]

theorem Adds.exists_reversed {o : Open} {os : List Open} (h : b.Adds b' ns)
    (hstack : b'.stack = o :: os) : ∃ reversed,
      b.stack = { o with reversed := reversed } :: os ∧ o.reversed = ns.reverse ++ reversed := by
  obtain ⟨k, rfl⟩ := h
  cases hb : b.stack with
  | nil =>
      have hlength : (ns.foldl add b).stack.length = b.stack.length := length_stack_foldl_add
      rw [hb, hstack] at hlength
      cases hlength
  | cons o' os' =>
      rw [foldl_add hb] at hstack
      obtain ⟨rfl, rfl⟩ := List.cons.inj hstack
      exact ⟨o'.reversed, rfl, rfl⟩

theorem adds_dataPiece (reversed : Text) (i : ℕ) (b : Builder) :
    ∃ ns, b.Adds ((dataPiece reversed i).foldl read b) ns ∧ elementsOf ns = [] ∧
      contentOf ns = Reference.readStrict reversed.reverse := by
  cases reversed with
  | nil => exact ⟨[], .refl b, rfl, rfl⟩
  | cons c r => exact ⟨[.data _], ⟨_, rfl⟩, rfl, List.append_nil _⟩

/-- A piece that stands by itself adds its node. -/
theorem adds_read {p : Piece} (hp : p.kind.isWhole = true) (units : Text) (b : Builder) :
    ∃ ns, b.Adds (b.read p) ns ∧ AreNodes [.markup p.kind units] ns := by
  unfold read
  cases hkind : p.kind with
  | text data => exact ⟨[.data data], ⟨_, rfl⟩, .nil⟩
  | empty name => exact ⟨[_], ⟨_, rfl⟩, .cons ⟨rfl, fun d hd => Option.some.inj hd⟩ .nil⟩
  | aside => exact ⟨[], ⟨_, rfl⟩, .nil⟩
  | opening name =>
      rw [hkind] at hp
      cases hp
  | closing name =>
      rw [hkind] at hp
      cases hp

/-- The tag that closes the innermost element adds it to what is open around it. -/
theorem adds_closing {outer : Builder} {o : Open} {p : Piece}
    (hstack : b.stack = o :: outer.stack) (houtside : b.outside = outer.outside)
    (h : b.Adds b' ns) (hp : p.kind = .closing o.name) :
    outer.Adds (b'.read p) [.element o.name ⟨o.start, p.stop + 1⟩ (o.reversed.reverse ++ ns)] := by
  obtain ⟨k, rfl⟩ := h
  let o' : Open := { o with reversed := ns.reverse ++ o.reversed }
  have houter : ({ stack := outer.stack, outside := b.outside, next := k } : Builder) =
      { outer with next := k } := by rw [houtside]
  refine ⟨p.next, ?_⟩
  rw [foldl_add hstack, read_closing (o := o') rfl hp, houter, add_next, List.reverse_append,
    List.reverse_reverse]
  rfl

end Builder

/-- **Well-formed content** adds its nodes. -/
theorem Reads.exists_nodes {i j : ℕ} {t rest : Text} {ss : List Source} (h : Reads i t ss j rest)
    (reversed : Text) :
    ∃ ps data, (piecesFrom reversed i t).1 = ps ++ (piecesFrom data j rest).1 ∧
      (∀ u, dataOf? ss = some u → ps = [] ∧ data = u.reverse ++ reversed) ∧
      ∀ b : Builder, ∃ ns, b.Adds (ps.foldl Builder.read b) ns ∧ AreNodes ss ns ∧
        (ps = [] → ns = []) := by
  induction h generalizing reversed with
  | done i t =>
      refine ⟨[], reversed, rfl, ?_, fun b => ⟨[], .refl b, .nil, fun _ => rfl⟩⟩
      rintro u hu
      obtain rfl := Option.some.inj hu
      exact ⟨rfl, rfl⟩
  | @unit i j c r rest ss hc _ ih =>
      obtain ⟨ps, data, hpieces, hdata, hnodes⟩ := ih (c :: reversed)
      refine ⟨ps, data, by rw [piecesFrom_unit hc, hpieces], ?_, hnodes⟩
      rintro u hu
      obtain ⟨u', hu', rfl⟩ := Option.map_eq_some_iff.mp hu
      obtain ⟨rfl, rfl⟩ := hdata u' hu'
      exact ⟨rfl, by rw [List.reverse_cons, List.append_assoc, List.singleton_append]⟩
  | @markup i j last length r rest kind ss hpiece hkind _ ih =>
      obtain ⟨ps, data, hpieces, -, hnodes⟩ := ih []
      refine ⟨dataPiece reversed i ++ ⟨kind, i + 1 + last, i + 2 + last⟩ :: ps, data, ?_, nofun, ?_⟩
      · rw [piecesFrom_piece hpiece, hpieces, List.append_assoc, List.cons_append]
      · intro b
        obtain ⟨ms, hms, helements, -⟩ := Builder.adds_dataPiece reversed i b
        obtain ⟨ns, hns, hare⟩ := Builder.adds_read (p := ⟨kind, i + 1 + last, i + 2 + last⟩) hkind
          (r.take length) ((dataPiece reversed i).foldl Builder.read b)
        obtain ⟨ns', hns', hare', -⟩ := hnodes
          (((dataPiece reversed i).foldl Builder.read b).read ⟨kind, i + 1 + last, i + 2 + last⟩)
        rw [List.foldl_append, List.foldl_cons]
        exact ⟨_, (hms.trans hns).trans hns', (AreNodes.data helements hare).append hare',
          fun hnil => absurd hnil (List.append_ne_nil_of_right_ne_nil _ (List.cons_ne_nil _ _))⟩
  | @element i j k last length last' length' r r' rest name inner ss hopen _ hclose _ ihinner ih =>
      obtain ⟨ps, data, hpieces, hdata, hnodes⟩ := ihinner []
      obtain ⟨ps', data', hpieces', -, hnodes'⟩ := ih []
      let first : Piece := ⟨.opening name, i + 1 + last, i + 2 + last⟩
      let final : Piece := ⟨.closing name, k + 1 + last', k + 2 + last'⟩
      refine ⟨dataPiece reversed i ++ first :: (ps ++ (dataPiece data k ++ final :: ps')), data', ?_,
        nofun, ?_⟩
      · rw [piecesFrom_piece hopen, hpieces, piecesFrom_piece hclose, hpieces']
        simp only [List.append_assoc, List.cons_append, first, final]
      · intro b
        obtain ⟨ms, hms, helements, -⟩ := Builder.adds_dataPiece reversed i b
        let b₁ := (dataPiece reversed i).foldl Builder.read b
        let b₂ := ps.foldl Builder.read (b₁.read first)
        obtain ⟨ns, hns, -, hnil⟩ := hnodes (b₁.read first)
        obtain ⟨ds, hds, hempty, hcontent⟩ := Builder.adds_dataPiece data k b₂
        have hstack : (b₁.read first).stack = ⟨name, b₁.next, []⟩ :: b₁.stack := rfl
        have helement := Builder.adds_closing hstack rfl (hns.trans hds) (p := final) rfl
        obtain ⟨ns', hns', hare', -⟩ := hnodes' (((dataPiece data k).foldl Builder.read b₂).read final)
        rw [List.foldl_append, List.foldl_cons, List.foldl_append, List.foldl_append,
          List.foldl_cons]
        have hare (span : Span) :
            AreNodes [.element name (r.take length) inner (r'.take length')]
              [.element name span (ns ++ ds)] := by
          refine .cons ⟨rfl, fun d hd => ?_⟩ .nil
          obtain ⟨u, hu, rfl⟩ := Option.map_eq_some_iff.mp hd
          obtain ⟨rfl, rfl⟩ := hdata u hu
          obtain rfl := hnil rfl
          show contentOf ds = _
          rw [hcontent, List.append_nil, List.reverse_reverse]
        exact ⟨_, (hms.trans helement).trans hns', (AreNodes.data helements (hare _)).append hare',
          fun h => absurd h (List.append_ne_nil_of_right_ne_nil _ (List.cons_ne_nil _ _))⟩

/-- An element that has been added encloses all that stands inside of it. -/
theorem Builder.Adds.encloses {outer b : Builder} {o : Open} {stop : ℤ} {inner document : List Node}
    (h : outer.Adds b [.element o.name ⟨o.start, stop⟩ inner]) (hgrows : b.Grows document) :
    Encloses outer.outside (o :: outer.stack) inner document := by
  obtain ⟨k, rfl⟩ := h
  have hadd : (outer.add (.element o.name ⟨o.start, stop⟩ inner)).Grows document := hgrows
  obtain ⟨more, hencloses⟩ := Builder.grows_add_iff.mp hadd
  exact ⟨stop, more, hencloses⟩

/-- What stands behind a place in the innermost open element is read up to its closing tag. -/
theorem Levels.exists_element {i : ℕ} {t : Text} {l : Level} {ls : List Level}
    (h : Levels (l :: ls) i t) (reversed : Text) {b : Builder} (outer : Builder) {o : Open}
    (hstack : b.stack = o :: outer.stack) (houtside : b.outside = outer.outside)
    (hname : l.name = o.name) : ∃ ps j u ns stop,
      (piecesFrom reversed i t).1 = ps ++ (piecesFrom [] j u).1 ∧ Levels ls j u ∧
      AreNodes l.inner ns ∧
      outer.Adds (ps.foldl Builder.read b)
        [.element o.name ⟨o.start, stop⟩ (o.reversed.reverse ++ ns)] := by
  cases h with
  | @inside _ k last length _ r name inner _ hinner hclose hrest =>
      obtain rfl : name = o.name := hname
      obtain ⟨ps, data, hpieces, -, hnodes⟩ := hinner.exists_nodes reversed
      let final : Piece := ⟨.closing o.name, k + 1 + last, k + 2 + last⟩
      obtain ⟨ns, hns, hare, -⟩ := hnodes b
      obtain ⟨ds, hds, hempty, -⟩ := Builder.adds_dataPiece data k (ps.foldl Builder.read b)
      have helement := Builder.adds_closing hstack houtside (hns.trans hds) (p := final) rfl
      refine ⟨ps ++ (dataPiece data k ++ [final]), _, _, ns ++ ds, final.stop + 1, ?_, hrest, ?_, ?_⟩
      · rw [hpieces, piecesFrom_piece hclose]
        simp only [List.append_assoc, List.cons_append, List.nil_append, final]
      · have hnone : AreNodes [] ds := by
          rw [AreNodes, hempty]
          exact .nil
        have hall := hare.append hnone
        rwa [List.append_nil] at hall
      · rw [List.foldl_append, List.foldl_append]
        exact helement

end Markup
end Scopewright
