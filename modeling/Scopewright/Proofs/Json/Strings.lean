import Mathlib.Tactic.SplitIfs
import Scopewright.Json.Tree
import Scopewright.Proofs.Document.Plist
import Scopewright.Proofs.Json.Quoted
import Scopewright.Proofs.Json.Trace

/-! # Where the strings of a document are written

The strings in a tree are those of its tokens: the opening quote of a string stands where its node
begins, and the string is what its body stands for (`writtenAt_of_mem_places`).  A token is the lexeme
of the text that it stands in front of (`isLexeme_of_mem_tokensFrom`), and this is kept on the way from
the tokens (`written_of_mem_tokensFrom`) over the events (`written_events`) to the tree, whose nodes come
from the open collections and from the events (`allWritten_nodeOf`).

Tokens take escapes by number as wholes and end with the line.  Still a string is read up to the quote
that closes it (`Scanned`, `scanned_stringBody`), so that the token that begins with a literal is the
literal (`length_stringBody_of_prefix`), and the one that begins with a part of it, at the end of the
text, is that part (`length_stringBody_of_part`). -/

namespace Scopewright
namespace Json

open Document (Key Node Scalar placesOfMembers placesOfItems)

variable {t : Text}

/-- A string is written at an offset: its opening quote stands there, and its body behind it. -/
def WrittenAt (t : Text) (start : ℕ) (value : Text) : Prop :=
  ∃ body, t.drop start = CodeUnit.ofBasic '"' :: body ∧ value = (stringBody body).value

/-! ### Tokens -/

theorem kind_wordLexeme (c : CodeUnit) (r : Text) : (wordLexeme c r).kind ≠ .string := by
  unfold wordLexeme wordKind
  dsimp only
  split_ifs <;> exact nofun

theorem kind_slashLexeme (r : Text) : (slashLexeme r).kind ≠ .string := by
  cases r with
  | nil => exact nofun
  | cons d r =>
      unfold slashLexeme Lexeme.single
      dsimp only
      split_ifs <;> exact nofun

theorem kind_minusLexeme (c : CodeUnit) (r : Text) : (minusLexeme c r).kind ≠ .string := by
  unfold minusLexeme Lexeme.single
  split_ifs <;> exact nofun

theorem kind_ite {p : Prop} [Decidable p] {a b : Lexeme} {k : Kind}
    (h : (if p then a else b).kind = k) : a.kind = k ∨ b.kind = k := by
  split at h
  · exact .inl h
  · exact .inr h

/-- A token is a string only behind a quote. -/
theorem lexeme_string {c : CodeUnit} {r : Text} (h : (lexeme c r).kind = .string) :
    c = CodeUnit.ofBasic '"' ∧ (lexeme c r).value = (stringBody r).value := by
  by_cases hc : c = CodeUnit.ofBasic '"'
  · subst hc
    exact ⟨rfl, rfl⟩
  · unfold lexeme at h
    rw [if_neg hc] at h
    -- the blanks and the signs of one unit
    iterate 9
      rcases kind_ite h with h | h
      · cases h
    rcases kind_ite h with h | h
    · exact absurd h (kind_slashLexeme r)
    rcases kind_ite h with h | h
    · exact absurd h (kind_minusLexeme c r)
    rcases kind_ite h with h | h
    · cases h
    · exact absurd h (kind_wordLexeme c r)

/-- A token is the lexeme of what stands from its start on. -/
def Token.IsLexeme (t : Text) (tok : Token) : Prop :=
  ∃ c r, t.drop tok.start = c :: r ∧ tok.kind = (lexeme c r).kind ∧
    tok.length = (lexeme c r).extra + 1 ∧ tok.value = (lexeme c r).value

/-- All tokens but the end mark are lexemes of the text. -/
theorem isLexeme_of_mem_tokensFrom {size start : ℕ} {s : Text} (hs : t.drop start = s) :
    ∀ tok ∈ tokensFrom size start s, tok.kind ≠ .done → tok.IsLexeme t := by
  fun_induction tokensFrom size start s with
  | case1 start => exact List.forall_mem_singleton.mpr fun hdone => absurd rfl hdone
  | case2 start c r l ih =>
      have hrest : t.drop (start + l.extra + 1) = r.drop l.extra := by
        have hextra : start + l.extra + 1 = start + (l.extra + 1) := by omega
        rw [hextra, ← List.drop_drop, hs, List.drop_succ_cons]
      exact List.forall_mem_cons.mpr ⟨fun _ => ⟨c, r, hs, rfl, rfl, rfl⟩, ih hrest⟩

/-- A token that is a string stands where it is written. -/
def Token.Written (t : Text) (tok : Token) : Prop :=
  tok.kind = .string → WrittenAt t tok.start tok.value

theorem written_of_mem_tokensFrom {size start : ℕ} {s : Text} (hs : t.drop start = s) :
    ∀ tok ∈ tokensFrom size start s, tok.Written t := by
  intro tok htok hkind
  have hdone : tok.kind ≠ .done := by
    rw [hkind]
    exact nofun
  obtain ⟨c, r, hdrop, hlexeme, -, hread⟩ := isLexeme_of_mem_tokensFrom hs tok htok hdone
  obtain ⟨rfl, hvalue⟩ := lexeme_string (hlexeme.symm.trans hkind)
  exact ⟨r, hdrop, hread.trans hvalue⟩

/-! ### Events -/

/-- An event that is a string stands where it is written. -/
def Event.Written (t : Text) (e : Event) : Prop :=
  ∀ value, e.kind = .literal (.string value) → WrittenAt t e.start value

/-- The string that a token is as a value is the string that is written there. -/
theorem Token.Written.literal {tok : Token} {v : Scalar} (h : tok.Written t)
    (hv : tok.scalar? = some v) : (tok.event (.literal v)).Written t := by
  intro value hvalue
  obtain rfl : v = .string value := EventKind.literal.inj hvalue
  unfold Token.scalar? at hv
  split at hv
  · rename_i hkind
    obtain rfl := Scalar.string.inj (Option.some.inj hv)
    exact h hkind
  all_goals cases hv

theorem written_events (trailing : Bool) (t : Text) : ∀ e ∈ events trailing t, e.Written t := by
  obtain ⟨toks, hsub, htrace⟩ := trace_events trailing t
  intro e he value hvalue
  rcases htrace.exists_token e he with hfault | ⟨tok, htok, heq, hfits⟩
  · rw [hvalue] at hfault
    cases hfault
  · rw [hvalue] at heq hfits
    have hwritten := written_of_mem_tokensFrom t.drop_zero tok (hsub.subset htok)
    rw [heq]
    exact hwritten.literal hfits value rfl

/-! ### The tree -/

/-- The strings at and below a node stand where they are written. -/
def AllWritten (t : Text) (n : Node) : Prop :=
  ∀ p ∈ n.places, ∀ value, p.2.text? = some value → WrittenAt t p.2.span.start.toNat value

theorem allWritten_unknown (s : Span) : AllWritten t (.unknown s) := by
  intro p hp value hvalue
  rw [List.mem_singleton.mp hp] at hvalue
  cases hvalue

theorem Event.Written.allWritten {e : Event} (h : e.Written t) {v : Scalar}
    (hv : e.kind = .literal v) : AllWritten t (.scalar e.span v) := by
  intro p hp value hvalue
  rw [List.mem_singleton.mp hp] at hvalue ⊢
  cases v with
  | string s =>
      obtain rfl : s = value := Option.some.inj hvalue
      exact h s hv
  | number x => cases hvalue
  | bool b => cases hvalue
  | null => cases hvalue

theorem exists_of_mem_placesOfMembers {ms : List (Key × Node)} {p : Cursor.Path × Node}
    (hp : p ∈ placesOfMembers ms) : ∃ m ∈ ms, ∃ q ∈ m.2.places, q.2 = p.2 := by
  induction ms with
  | nil => cases hp
  | cons m ms ih =>
      rw [placesOfMembers, List.mem_append] at hp
      rcases hp with hp | hp
      · obtain ⟨q, hq, rfl⟩ := List.mem_map.mp hp
        exact ⟨m, List.mem_cons_self, q, hq, rfl⟩
      · obtain ⟨m', hm', hq⟩ := ih hp
        exact ⟨m', List.mem_cons_of_mem m hm', hq⟩

theorem exists_of_mem_placesOfItems {ns : List Node} {i : ℕ} {p : Cursor.Path × Node}
    (hp : p ∈ placesOfItems i ns) : ∃ n ∈ ns, ∃ q ∈ n.places, q.2 = p.2 := by
  induction ns generalizing i with
  | nil => cases hp
  | cons n ns ih =>
      rw [placesOfItems, List.mem_append] at hp
      rcases hp with hp | hp
      · obtain ⟨q, hq, rfl⟩ := List.mem_map.mp hp
        exact ⟨n, List.mem_cons_self, q, hq, rfl⟩
      · obtain ⟨n', hn', hq⟩ := ih hp
        exact ⟨n', List.mem_cons_of_mem n hn', hq⟩

theorem allWritten_object {s : Span} {ms : List (Key × Node)}
    (h : ∀ m ∈ ms, AllWritten t m.2) : AllWritten t (.object s ms) := by
  intro p hp value hvalue
  rcases List.mem_cons.mp hp with rfl | hp
  · cases hvalue
  · obtain ⟨m, hm, q, hq, heq⟩ := exists_of_mem_placesOfMembers hp
    rw [← heq] at hvalue ⊢
    exact h m hm q hq value hvalue

theorem allWritten_array {s : Span} {ns : List Node} (h : ∀ n ∈ ns, AllWritten t n) :
    AllWritten t (.array s ns) := by
  intro p hp value hvalue
  rcases List.mem_cons.mp hp with rfl | hp
  · cases hvalue
  · obtain ⟨n, hn, q, hq, heq⟩ := exists_of_mem_placesOfItems hp
    rw [← heq] at hvalue ⊢
    exact h n hn q hq value hvalue

/-- The nodes that an open collection has so far. -/
def Open.nodes : Open → List Node
  | .object _ members _ => members.map (·.2)
  | .array _ items => items

/-- The strings in an open collection stand where they are written. -/
def Open.Written (t : Text) (o : Open) : Prop := ∀ n ∈ o.nodes, AllWritten t n

namespace Open.Written

variable {o : Open}

theorem add (h : o.Written t) {n : Node} (hn : AllWritten t n) : (o.add n).Written t := by
  have hmore : ∀ m ∈ o.nodes ++ [n], AllWritten t m :=
    List.forall_mem_append.mpr ⟨h, List.forall_mem_singleton.mpr hn⟩
  cases o with
  | object start members pending =>
      cases pending with
      | none => exact h
      | some k =>
          intro m hm
          rw [Open.add, Open.nodes, List.map_append] at hm
          exact hmore m hm
  | array start items => exact hmore

theorem settle (h : o.Written t) : o.settle.Written t := by
  cases o with
  | object start members pending =>
      cases pending with
      | none => exact h
      | some k =>
          intro m hm
          rw [Open.settle, Open.nodes, List.map_append, List.mem_append] at hm
          rcases hm with hm | hm
          · exact h m hm
          · rw [List.mem_singleton.mp hm]
            exact allWritten_unknown _
  | array start items => exact h

theorem expect (h : o.Written t) (k : Key) : (o.expect k).Written t := by
  have hsettled := h.settle
  unfold Open.expect
  split
  · rename_i heq
    rw [heq] at hsettled
    exact hsettled
  · exact hsettled

theorem close (h : o.Written t) (stop : ℕ) : AllWritten t (o.close stop) := by
  have hsettled := h.settle
  unfold Open.close
  split
  · rename_i heq
    rw [heq] at hsettled
    exact allWritten_object fun m hm => hsettled m.2 (List.mem_map_of_mem hm)
  · rename_i heq
    rw [heq] at hsettled
    exact allWritten_array hsettled

end Open.Written

/-- The strings of the node that events build stand where they are written. -/
theorem allWritten_nodeOf {stack : List Open} {es : List Event} {n : Node}
    (hes : ∀ e ∈ es, e.Written t) (hstack : ∀ o ∈ stack, o.Written t)
    (h : nodeOf stack es = some n) : AllWritten t n := by
  have hbegun {o : Open} {os : List Open} (ho : o.Written t) (hos : ∀ x ∈ os, x.Written t) :
      ∀ x ∈ o :: os, x.Written t := List.forall_mem_cons.mpr ⟨ho, hos⟩
  have hset {o o' : Open} {os : List Open} (hos : ∀ x ∈ o :: os, x.Written t)
      (ho : o.Written t → o'.Written t) : ∀ x ∈ o' :: os, x.Written t :=
    have ⟨hfirst, hrest⟩ := List.forall_mem_cons.mp hos
    List.forall_mem_cons.mpr ⟨ho hfirst, hrest⟩
  fun_induction nodeOf stack es with
  | case1 stack => cases h
  | case2 stack e es hkind ih =>
      exact ih (List.forall_mem_cons.mp hes).2 (hbegun (List.forall_mem_nil _) hstack) h
  | case3 stack e es hkind ih =>
      exact ih (List.forall_mem_cons.mp hes).2 (hbegun (List.forall_mem_nil _) hstack) h
  | case4 e es v hkind => exact Option.some.inj h ▸ (hes e List.mem_cons_self).allWritten hkind
  | case5 e es v o os hkind ih =>
      obtain ⟨he, hes⟩ := List.forall_mem_cons.mp hes
      exact ih hes (hset hstack fun ho => ho.add (he.allWritten hkind)) h
  | case6 e es name o os hkind ih =>
      exact ih (List.forall_mem_cons.mp hes).2 (hset hstack fun ho => ho.expect _) h
  | case7 e es o os hkind ih =>
      exact ih (List.forall_mem_cons.mp hes).2 (hset hstack fun ho => ho.settle) h
  | case8 e es o hkind => exact Option.some.inj h ▸ (hstack o List.mem_cons_self).close _
  | case9 e es o hkind => exact Option.some.inj h ▸ (hstack o List.mem_cons_self).close _
  | case10 e es o p os hkind ih =>
      obtain ⟨ho, hos⟩ := List.forall_mem_cons.mp hstack
      exact ih (List.forall_mem_cons.mp hes).2 (hset hos fun hp => hp.add (ho.close _)) h
  | case11 e es o p os hkind ih =>
      obtain ⟨ho, hos⟩ := List.forall_mem_cons.mp hstack
      exact ih (List.forall_mem_cons.mp hes).2 (hset hos fun hp => hp.add (ho.close _)) h
  | case12 =>
      rename_i ih
      exact ih (List.forall_mem_cons.mp hes).2 hstack h

/-- Each string in a tree stands where it is written. -/
theorem writtenAt_of_mem_places {root : Node} (hroot : (tree t).root = some root)
    {p : Cursor.Path × Node} (hp : p ∈ root.places) {value : Text}
    (hvalue : p.2.text? = some value) : WrittenAt t p.2.span.start.toNat value :=
  allWritten_nodeOf (written_events true t) (List.forall_mem_nil _) hroot p hp value hvalue

/-! ### Bodies -/

/-- A body stands for no more units than it has in front of its first quote. -/
theorem length_stringBody_le {s : Text}
    (hs : ∀ c ∈ s, c ≠ CodeUnit.ofBasic '"' ∧ c ≠ CodeUnit.ofBasic '\\') (r : Text) :
    (stringBody (s ++ CodeUnit.ofBasic '"' :: r)).value.length ≤ s.length := by
  induction s with
  | nil =>
      rw [List.nil_append]
      unfold stringBody
      exact Nat.le_refl 0
  | cons c s ih =>
      obtain ⟨⟨hquote, hbackslash⟩, hs⟩ := List.forall_mem_cons.mp hs
      have hlength := ih hs
      rw [List.cons_append, List.length_cons]
      unfold stringBody
      dsimp only
      rw [if_neg hquote, if_neg hbackslash]
      split_ifs
      · exact Nat.zero_le _
      · simp only [Body.before, List.length_append, List.length_singleton]
        omega
      · simp only [Body.before, List.length_append, List.length_singleton]
        omega

/-! ### Lines -/

theorem isBreak_of_class {p : CodeUnit → Bool} {c : CodeUnit} (h : p c = true)
    (hfeed : p (CodeUnit.ofBasic '\n') = false) (hreturn : p (CodeUnit.ofBasic '\r') = false) :
    isBreak c = false := by
  rw [isBreak, decide_eq_false (CodeUnit.ne_of_class h hfeed),
    decide_eq_false (CodeUnit.ne_of_class h hreturn), Bool.or_false]

namespace Quoted

theorem isBreak_byNumber (c : CodeUnit) : ∀ d ∈ byNumber c, isBreak d = false := by
  have hlt : c.toNat < 65536 := c.code.toNat_lt
  have hdigit {n : ℕ} (h : n < 16) : isBreak (hexDigit n) = false :=
    isBreak_of_class (isWord_hexDigit h) (by decide) (by decide)
  unfold byNumber
  simp only [List.forall_mem_cons]
  exact ⟨by decide, by decide, hdigit (by omega), hdigit (by omega), hdigit (by omega),
    hdigit (by omega), List.forall_mem_nil _⟩

theorem isBreak_escapeUnit (c : CodeUnit) : ∀ d ∈ escapeUnit c, isBreak d = false := by
  unfold escapeUnit
  split_ifs with hquote hback hfeed hreturn
  -- the escapes by letter
  iterate 7 exact by decide
  · exact isBreak_byNumber c
  · refine List.forall_mem_singleton.mpr ?_
    rw [isBreak, decide_eq_false hfeed, decide_eq_false hreturn, Bool.or_false]

/-- An escaped text stands on one line. -/
theorem isBreak_escape (t : Text) : ∀ c ∈ escape t, isBreak c = false := by
  fun_induction escape t with
  | case1 => exact List.forall_mem_nil _
  | case2 c => exact isBreak_escapeUnit c
  | case3 c d r h ih =>
      obtain ⟨hc, hd⟩ := Bool.and_eq_true_iff.mp h
      have hlead : isBreak c = false := isBreak_of_class hc (by decide) (by decide)
      have htrail : isBreak d = false := isBreak_of_class hd (by decide) (by decide)
      exact List.forall_mem_cons.mpr ⟨hlead, List.forall_mem_cons.mpr ⟨htrail, ih⟩⟩
  | case4 c d r _ ih => exact List.forall_mem_append.mpr ⟨isBreak_escapeUnit c, ih⟩

end Quoted

/-! ### The token of a string -/

open Quoted (backslash closes closes_backslash closes_unit quote)

/-- So many units of a text are read as what is left of a string: it is not closed before they end, and
it ends with them because it is closed, or because the line or the text ends. -/
structure Scanned (n : ℕ) (s : Text) : Prop where
  le_length : n ≤ s.length
  unclosed : ∀ k < n, closes (s.take k) = false
  ends : closes (s.take n) = true ∨ ∀ c ∈ (s.drop n).head?, isBreak c = true

namespace Scanned

variable {n : ℕ} {b s w : Text} {c : CodeUnit}

theorem unit (h : Scanned n s) (hquote : c ≠ quote) (hback : c ≠ backslash) :
    Scanned (1 + n) (c :: s) where
  le_length := by
    rw [List.length_cons, Nat.add_comm]
    exact Nat.succ_le_succ h.le_length
  unclosed k hk := by
    cases k with
    | zero => rfl
    | succ k =>
        rw [List.take_succ_cons, closes_unit hquote hback]
        exact h.unclosed k (by omega)
  ends := by
    rw [Nat.add_comm, List.take_succ_cons, closes_unit hquote hback]
    exact h.ends

theorem escape (h : Scanned n s) (c : CodeUnit) : Scanned (2 + n) (backslash :: c :: s) where
  le_length := by
    rw [List.length_cons, List.length_cons]
    have := h.le_length
    omega
  unclosed k hk := by
    match k with
    | 0 => rfl
    | 1 => rfl
    | k + 2 =>
        rw [List.take_succ_cons, List.take_succ_cons, closes_backslash]
        exact h.unclosed k (by omega)
  ends := by
    rw [Nat.add_comm, List.take_succ_cons, List.take_succ_cons, closes_backslash]
    exact h.ends

theorem word (h : Scanned n s) (hw : ∀ c ∈ w, c.isWord = true) :
    Scanned (w.length + n) (w ++ s) := by
  induction w with
  | nil =>
      rw [List.length_nil, Nat.zero_add]
      exact h
  | cons c w ih =>
      obtain ⟨hc, hw⟩ := List.forall_mem_cons.mp hw
      have hlength : (c :: w).length + n = 1 + (w.length + n) := by
        rw [List.length_cons]
        omega
      rw [hlength]
      exact (ih hw).unit (CodeUnit.ne_of_isWord hc (by decide)) (CodeUnit.ne_of_isWord hc (by decide))

/-- An escape by number, whole or not: the digits are no quotes. -/
theorem number {m : ℕ} {digits : Text} (h : Scanned n (s.drop digits.length))
    (hdigits : digits = (s.take 4).takeWhile CodeUnit.isHexDigit) (hm : m = 2 + (digits.length + n)) :
    Scanned m (backslash :: CodeUnit.ofBasic 'u' :: s) := by
  have hprefix : digits <+: s := by
    rw [hdigits]
    exact (List.takeWhile_prefix _).trans (List.take_prefix 4 s)
  have hword : ∀ c ∈ digits, c.isWord = true := by
    rw [hdigits]
    exact fun c hc => CodeUnit.isWord_of_isHexDigit (List.mem_takeWhile_imp hc)
  have hsplit : digits ++ s.drop digits.length = s := by
    obtain ⟨r, rfl⟩ := hprefix
    rw [List.drop_left]
  rw [hm, ← hsplit]
  exact (h.word hword).escape _

/-- Within a closed string that stands on one line, reading does not end. -/
theorem min_le (h : Scanned n s) (hs : b <+: s ∨ s <+: b) (hclosed : closes b = true)
    (hline : ∀ c ∈ b, isBreak c = false) : min b.length s.length ≤ n := by
  by_contra hlt
  rw [Nat.not_le, Nat.lt_min] at hlt
  obtain ⟨hb, hlt⟩ := hlt
  have hsame : s.take n = b.take n ∧ s[n]? = b[n]? := by
    rcases hs with ⟨x, rfl⟩ | ⟨x, rfl⟩
    · exact ⟨List.take_append_of_le_length (Nat.le_of_lt hb), List.getElem?_append_left hb⟩
    · exact ⟨(List.take_append_of_le_length (Nat.le_of_lt hlt)).symm,
        (List.getElem?_append_left hlt).symm⟩
  rcases h.ends with hread | hbreak
  · rw [hsame.1] at hread
    have heq := Quoted.eq_of_closes (List.take_prefix n b) hread hclosed
    have hlength := congrArg List.length heq
    rw [List.length_take] at hlength
    omega
  · have hc : b[n] ∈ (s.drop n).head? := by
      rw [List.head?_drop, hsame.2, List.getElem?_eq_getElem hb]
      rfl
    have := hbreak _ hc
    rw [hline _ (List.getElem_mem hb)] at this
    cases this

/-- Where such a string begins, all of it is read, and nothing else. -/
theorem eq_of_begins (h : Scanned n s) (hs : b <+: s) (hclosed : closes b = true)
    (hline : ∀ c ∈ b, isBreak c = false) : n = b.length := by
  have hle := h.min_le (.inl hs) hclosed hline
  rw [Nat.min_eq_left hs.length_le] at hle
  refine Nat.le_antisymm (Nat.not_lt.mp fun hlt => ?_) hle
  have hopen := h.unclosed _ hlt
  rw [← List.prefix_iff_eq_take.mp hs, hclosed] at hopen
  cases hopen

/-- Of a part of such a string all is read. -/
theorem eq_of_part (h : Scanned n s) (hs : s <+: b) (hclosed : closes b = true)
    (hline : ∀ c ∈ b, isBreak c = false) : n = s.length := by
  have hle := h.min_le (.inr hs) hclosed hline
  rw [Nat.min_eq_right hs.length_le] at hle
  exact Nat.le_antisymm h.le_length hle

end Scanned

/-- The loop over the units of a token reads what is left of a string. -/
theorem scanned_stringBody (s : Text) : Scanned (stringBody s).length s := by
  have hzero {s : Text} (h : ∀ c ∈ s.head?, isBreak c = true) : Scanned 0 s :=
    ⟨Nat.zero_le _, fun k hk => absurd hk (Nat.not_lt_zero k), .inr h⟩
  have hone {c : CodeUnit} {r : Text} (h : c = quote ∨ r = []) : Scanned 1 (c :: r) := by
    refine ⟨Nat.succ_le_succ (Nat.zero_le _), fun k hk => ?_, ?_⟩
    · rw [Nat.lt_one_iff.mp hk]
      rfl
    · rcases h with rfl | rfl
      · exact .inl rfl
      · exact .inr (by simp)
  fun_induction stringBody s with
  | case1 => exact hzero (by simp)
  | case2 r => exact hone (.inl rfl)
  | case3 => exact hone (.inr rfl)
  | case4 r digits rest hlength _ ih =>
      refine ih.number rfl ?_
      show 6 + (stringBody (r.drop digits.length)).length = _
      omega
  | case5 r digits rest hlength _ ih =>
      refine ih.number rfl ?_
      show 2 + digits.length + (stringBody (r.drop digits.length)).length = _
      omega
  | case6 d r _ e _ _ ih => exact ih.escape d
  | case7 d r _ _ _ ih => exact ih.escape d
  | case8 c r _ _ hbreak => exact hzero (by simpa using hbreak)
  | case9 c r hquote hback _ _ ih => exact ih.unit hquote hback
  | case10 c r hquote hback _ _ ih => exact ih.unit hquote hback

section literals

variable {v s : Text}

theorem closes_body (v : Text) : closes (Quoted.escape v ++ [quote]) = true :=
  Quoted.isClosed_encode v

theorem isBreak_body (v : Text) : ∀ c ∈ Quoted.escape v ++ [quote], isBreak c = false :=
  List.forall_mem_append.mpr ⟨Quoted.isBreak_escape v, List.forall_mem_singleton.mpr (by decide)⟩

/-- The token that begins with a literal is the literal. -/
theorem length_stringBody_of_prefix (h : Quoted.encode v <+: quote :: s) :
    (stringBody s).length + 1 = (Quoted.encode v).length :=
  congrArg (· + 1) ((scanned_stringBody s).eq_of_begins (List.cons_prefix_cons.mp h).2
    (closes_body v) (isBreak_body v))

/-- The token that begins with a part of a literal, at the end of the text, is that part. -/
theorem length_stringBody_of_part (h : quote :: s <+: Quoted.encode v) :
    (stringBody s).length = s.length :=
  (scanned_stringBody s).eq_of_part (List.cons_prefix_cons.mp h).2 (closes_body v) (isBreak_body v)

end literals

end Json
end Scopewright
