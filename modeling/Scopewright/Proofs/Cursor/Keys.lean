import Mathlib
import Scopewright.Cursor.Json
import Scopewright.Proofs.Json.Walk

/-! # Strings and keys under the cursor

The cursor stands in a string when the string is a key or a value and has not been closed in front of it
(`OpenAt`, `openAt_iff`).  Where a document has a literal, or a part of it at its end, that is from the
opening quote up to the closing one (`openAt_literal_iff`, `open_until_closed`).

The object around a cursor in a key is looked for by its path, and found where each name on the path is
that of the first entry with it (`FirstWay`, `nodeAt?_eq_some_iff`).  No two keys of a tree are written
in one place, so that the cursor touches its own key alone (`touches_keyPlaces`), and the keys beside
it are all others of the object that is found (`siblingKeys_object`). -/

namespace Scopewright
namespace Cursor
namespace Json

open Scopewright.Json (EntryAt Event Faultless Quoted.encode Quoted.isClosed Quoted.isClosed_append
  Quoted.isClosed_encode Quoted.isClosed_of_isPrefix Quoted.quote Stops Writes WritesMembers WrittenAt
  entryAt_iff events exists_entry exists_writes exists_writes_of_mem exists_writes_of_mem_items
  faultless_iff keySpans_value length_entry length_stringBody_of_part length_stringBody_of_prefix locate
  nodeOf_writes previous_locate root_writes stops_value stringBody tokens written_of_mem_tokensFrom)
open Document (Key Node keySpans mem_keyPlaces mem_placesOfItems mem_placesOfMembers self_mem_places
  spans_sublist)

/-! ### The first way -/

/-- A path leads to a node by the first of the entries with each name. -/
inductive FirstWay : Node → Path → Node → Prop
  | here (n : Node) : FirstWay n [] n
  | key {span : Span} {front behind : List (Key × Node)} {k : Key} {v n : Node} {p : Path}
      (hfront : ∀ m ∈ front, m.1.name ≠ k.name) (h : FirstWay v p n) :
      FirstWay (.object span (front ++ (k, v) :: behind)) (.key k.name :: p) n
  | item {span : Span} {items : List Node} {i : ℕ} {v n : Node} {p : Path}
      (hitem : items[i]? = some v) (h : FirstWay v p n) :
      FirstWay (.array span items) (.index i :: p) n

theorem FirstWay.mem_places {root n : Node} {p : Path} (h : FirstWay root p n) :
    (p, n) ∈ root.places := by
  induction h with
  | here n => exact self_mem_places n
  | key hfront _ ih =>
      rw [Node.places]
      exact List.mem_cons_of_mem _ (mem_placesOfMembers (by simp) ih)
  | @item _ _ i _ _ _ hitem _ ih =>
      rw [Node.places]
      have hmem := mem_placesOfItems (i := 0) hitem ih
      rw [Nat.zero_add] at hmem
      exact List.mem_cons_of_mem _ hmem

/-- Without faults every entry has a value. -/
theorem isBare_eq_false {v : Node} {es : List Event} (h : Writes v es) : nodeAt?.isBare v = false := by
  cases v with
  | unknown span => cases h
  | _ => rfl

/-- The entry that is looked for is the first one with the name. -/
theorem find_member_iff {separated : Bool} {ms : List (Key × Node)} {es : List Event}
    (h : WritesMembers separated ms es) {name : Text} {m : Key × Node} :
    ms.find? (fun m => decide (m.1.name = name) && !nodeAt?.isBare m.2) = some m ↔
      m.1.name = name ∧ ∃ front behind, ms = front ++ m :: behind ∧ ∀ m' ∈ front, m'.1.name ≠ name := by
  have hfind : ms.find? (fun m => decide (m.1.name = name) && !nodeAt?.isBare m.2) =
      ms.find? fun m => decide (m.1.name = name) := by
    refine List.find?_congr fun m hm => ?_
    obtain ⟨es, hm⟩ := exists_writes_of_mem h m hm
    rw [isBare_eq_false hm, Bool.not_false, Bool.and_true]
  rw [hfind, List.find?_eq_some_iff_append]
  simp

theorem nodeAt?_key {span : Span} {ms : List (Key × Node)} {name : Text} {p : Path} :
    nodeAt? (.object span ms) (.key name :: p) =
      (ms.find? fun m => decide (m.1.name = name) && !nodeAt?.isBare m.2).bind
        fun m => nodeAt? m.2 p := by
  rw [nodeAt?]
  cases ms.find? fun m => decide (m.1.name = name) && !nodeAt?.isBare m.2 <;> rfl

theorem nodeAt?_index {span : Span} {items : List Node} {i : ℕ} {p : Path} :
    nodeAt? (.array span items) (.index i :: p) = items[i]?.bind fun v => nodeAt? v p := by
  rw [nodeAt?]
  cases items[i]? <;> rfl

/-- The node at a path is the one that the path leads to by first entries. -/
theorem nodeAt?_eq_some_iff : ∀ (p : Path) {v n : Node} {es : List Event}, Writes v es →
    (nodeAt? v p = some n ↔ FirstWay v p n)
  | [], v, n, es, _ => by
      refine ⟨fun h => Option.some.inj h ▸ .here v, fun h => ?_⟩
      cases h
      rfl
  | .key name :: p, v, n, es, hv => by
      cases v with
      | object span ms =>
          obtain ⟨first, inner, last, -, -, hms, -, -⟩ := hv
          rw [nodeAt?_key, Option.bind_eq_some_iff]
          constructor
          · rintro ⟨m, hm, h⟩
            obtain ⟨rfl, front, behind, rfl, hfront⟩ := (find_member_iff hms).mp hm
            obtain ⟨es, hwrites⟩ := exists_writes_of_mem hms m (by simp)
            exact .key hfront ((nodeAt?_eq_some_iff p hwrites).mp h)
          · intro h
            cases h with
            | @key _ front behind k v _ _ hfront h =>
                obtain ⟨es, hwrites⟩ := exists_writes_of_mem hms (k, v) (by simp)
                exact ⟨(k, v), (find_member_iff hms).mpr ⟨rfl, front, behind, rfl, hfront⟩,
                  (nodeAt?_eq_some_iff p hwrites).mpr h⟩
      | _ => exact ⟨nofun, nofun⟩
  | .index i :: p, v, n, es, hv => by
      cases v with
      | array span items =>
          obtain ⟨first, inner, last, -, -, hitems, -, -⟩ := hv
          rw [nodeAt?_index, Option.bind_eq_some_iff]
          constructor
          · rintro ⟨item, hitem, h⟩
            obtain ⟨es, hwrites⟩ :=
              exists_writes_of_mem_items hitems item (List.mem_of_getElem? hitem)
            exact .item hitem ((nodeAt?_eq_some_iff p hwrites).mp h)
          · intro h
            cases h with
            | @item _ _ _ item _ _ hitem h =>
                obtain ⟨es, hwrites⟩ :=
                  exists_writes_of_mem_items hitems item (List.mem_of_getElem? hitem)
                exact ⟨item, hitem, (nodeAt?_eq_some_iff p hwrites).mpr h⟩
      | _ => exact ⟨nofun, nofun⟩

/-! ### Where keys are written -/

/-- A span ends in front of another one. -/
def InFront (a b : Span) : Prop := a.stop ≤ b.start

/-- One of two spans ends in front of the other. -/
def Apart (a b : Span) : Prop := InFront a b ∨ InFront b a

instance : Std.Symm Apart := ⟨fun _ _ h => h.symm⟩

theorem touches_inside {n : ℕ} {s : Span} (hstart : s.start < n) (hstop : n < s.stop) :
    touches n s = true := by
  unfold touches
  rw [decide_eq_true hstart.le, decide_eq_true hstop.le, Bool.and_true]

/-- A cursor inside of a span touches none that is apart from it. -/
theorem touches_apart {n : ℕ} {a b : Span} (h : Apart a b) (hstart : b.start < n)
    (hstop : n < b.stop) : touches n a = false := by
  unfold touches
  rcases h with h | h <;> unfold InFront at h
  · rw [decide_eq_false (p := n ≤ a.stop) (by omega), Bool.and_false]
  · rw [decide_eq_false (p := a.start ≤ n) (by omega), Bool.false_and]

section places

variable {root obj : Node} {n : ℕ}

theorem pairwise_keySpans {es : List Event} (hwrites : Writes root es)
    (horder : es.Pairwise Event.Before) : (keySpans root.keyPlaces).Pairwise InFront := by
  refine List.Pairwise.sublist (keySpans_value hwrites) (List.pairwise_map.mpr (horder.imp ?_))
  intro a b h
  exact Int.ofNat_le.mpr h.2

/-- A cursor in a key touches no other key of the tree. -/
theorem touches_keyPlaces {a b : Path × Node × Key}
    (hspans : (keySpans root.keyPlaces).Pairwise InFront) (ha : a ∈ root.keyPlaces)
    (hb : b ∈ root.keyPlaces) (hne : a ≠ b) (hstart : b.2.2.span.start < n)
    (hstop : n < b.2.2.span.stop) : touches n a.2.2.span = false := by
  have hpairwise : root.keyPlaces.Pairwise (Function.onFun Apart fun a => a.2.2.span) :=
    (List.pairwise_map.mp hspans).imp .inl
  exact touches_apart (hpairwise.forall ha hb hne) hstart hstop

/-- A cursor in a key touches no other key of the object. -/
theorem touches_members {p : Path} {front behind : List (Key × Node)} {k : Key} {v : Node}
    (hspans : (keySpans root.keyPlaces).Pairwise InFront) (hobj : (p, obj) ∈ root.places)
    (hmembers : obj.members = front ++ (k, v) :: behind) (hstart : k.span.start < n)
    (hstop : n < k.span.stop) : ∀ m ∈ front ++ behind, touches n m.1.span = false := by
  have hpairwise := List.pairwise_map.mp (hspans.sublist (spans_sublist root hobj))
  rw [hmembers, List.pairwise_append, List.pairwise_cons] at hpairwise
  obtain ⟨-, ⟨hbehind, -⟩, hfront⟩ := hpairwise
  rw [List.forall_mem_append]
  exact ⟨fun m hm => touches_apart (.inl (hfront m hm _ List.mem_cons_self)) hstart hstop,
    fun m hm => touches_apart (.inr (hbehind m hm)) hstart hstop⟩

end places

/-! ### The cursor in a string -/

section strings

variable {t v : Text} {start n : ℕ}

/-- The body of a string is typed behind its first unit and up to its end, or, when it is closed, up to
its closing quote. -/
theorem openStringStart?_eq_some_iff {p : Scopewright.Json.Passed} {k : ℕ} :
    openStringStart? t p n = some k ↔ Passed.isString p t = true ∧ k = p.start + 1 ∧ p.start < n ∧
      n ≤ p.start + p.length ∧
      (n = p.start + p.length → Quoted.isClosed (Passed.literal p t) = false) := by
  unfold openStringStart?
  dsimp only
  split
  · rename_i hout
    refine ⟨nofun, fun ⟨hstring, _, hlt, _⟩ => ?_⟩
    rcases hout with hstring' | hle
    · rw [hstring] at hstring'
      cases hstring'
    · exact absurd hlt (Nat.not_lt.mpr hle)
  · rename_i hin
    obtain ⟨hstring, hlt⟩ := not_or.mp hin
    rw [Bool.not_eq_true', Bool.not_eq_false] at hstring
    rw [Nat.not_le] at hlt
    cases hclosed : Quoted.isClosed (Passed.literal p t) with
    | false =>
        rw [if_neg Bool.false_ne_true]
        split
        · rename_i hle
          exact ⟨fun h => ⟨hstring, (Option.some.inj h).symm, hlt, hle, fun _ => rfl⟩,
            fun h => congrArg some h.2.1.symm⟩
        · rename_i hle
          exact ⟨nofun, fun h => absurd h.2.2.2.1 hle⟩
    | true =>
        rw [if_pos rfl]
        split
        · rename_i hstop
          exact ⟨fun h => ⟨hstring, (Option.some.inj h).symm, hlt, hstop.le,
            fun heq => absurd heq hstop.ne⟩, fun h => congrArg some h.2.1.symm⟩
        · rename_i hstop
          refine ⟨nofun, fun ⟨_, _, _, hle, hend⟩ => ?_⟩
          cases hend (Nat.le_antisymm hle (Nat.not_lt.mp hstop))

/-- The cursor stands in the string that begins at `start`: the token is what has been typed behind its
opening quote. -/
def OpenAt (t : Text) (n start : ℕ) : Prop :=
  (resolve t n).token.quote = some .double ∧ (resolve t n).token.start = (start + 1 : ℕ)

/-- The cursor stands in a string just when that is a key or a value that is open there. -/
theorem openAt_iff : OpenAt t n start ↔ ∃ e ∈ events false t, e.kind.isEntry = true ∧
    e.start = start ∧ openStringStart? t e.passed n = some (start + 1) := by
  unfold OpenAt resolve
  dsimp only
  constructor
  · rintro ⟨hquote, hstart⟩
    cases hopen : (locate t n).previous >>= (openStringStart? t · n) with
    | none =>
        rw [hopen] at hquote
        cases hquote
    | some k =>
        rw [hopen] at hstart
        obtain rfl : k = start + 1 := Int.ofNat_inj.mp hstart
        obtain ⟨p, hp, hk⟩ := Option.bind_eq_some_iff.mp hopen
        obtain ⟨e, he, hentry, rfl⟩ := exists_entry hp
        obtain ⟨-, hstart, -⟩ := openStringStart?_eq_some_iff.mp hk
        exact ⟨e, he, hentry, (Nat.succ.inj hstart).symm, hk⟩
  · rintro ⟨e, he, hentry, rfl, hk⟩
    obtain ⟨-, -, hlt, hle, -⟩ := openStringStart?_eq_some_iff.mp hk
    have hopen : (locate t n).previous >>= (openStringStart? t · n) = some (e.start + 1) := by
      rw [previous_locate he hentry hlt hle]
      exact hk
    rw [hopen]
    exact ⟨rfl, rfl⟩

/-- A string that is a key or a value is open up to its end, and there when it is not closed. -/
theorem openAt_iff_of_quote {s : Text} (hs : t.drop start = Quoted.quote :: s) : OpenAt t n start ↔
    EntryAt t start ∧ start < n ∧ n ≤ start + ((stringBody s).length + 1) ∧
      (n = start + ((stringBody s).length + 1) →
        Quoted.isClosed (Quoted.quote :: s.take (stringBody s).length) = false) := by
  have hliteral {e : Event} (hstart : e.start = start) (hlength : e.length = (stringBody s).length + 1) :
      Passed.literal e.passed t = Quoted.quote :: s.take (stringBody s).length := by
    unfold Passed.literal Event.passed
    dsimp only
    rw [hstart, hlength, hs, List.take_succ_cons]
  rw [openAt_iff]
  constructor
  · rintro ⟨e, he, hentry, rfl, hopen⟩
    have hlength := length_entry he hentry hs
    obtain ⟨-, -, hlt, hle, hend⟩ := openStringStart?_eq_some_iff.mp hopen
    rw [hliteral rfl hlength] at hend
    unfold Event.passed at hlt hle hend
    rw [hlength] at hle hend
    exact ⟨⟨e, he, hentry, rfl⟩, hlt, hle, hend⟩
  · rintro ⟨⟨e, he, hentry, rfl⟩, hlt, hle, hend⟩
    have hlength := length_entry he hentry hs
    have hstring : Passed.isString e.passed t = true := by
      unfold Passed.isString Event.passed
      rw [hs]
      rfl
    refine ⟨e, he, hentry, rfl, openStringStart?_eq_some_iff.mpr ⟨hstring, rfl, hlt, ?_, ?_⟩⟩
    · unfold Event.passed
      rw [hlength]
      exact hle
    · rw [hliteral rfl hlength]
      unfold Event.passed
      rw [hlength]
      exact hend

/-- Where nothing is left of the text no string is open. -/
theorem not_openAt_end (h : t.drop start = []) : ¬OpenAt t n start := by
  rw [openAt_iff]
  rintro ⟨e, -, -, rfl, hopen⟩
  have hstring := (openStringStart?_eq_some_iff.mp hopen).1
  unfold Passed.isString Event.passed at hstring
  rw [h] at hstring
  cases hstring

/-- In a literal of the document, whole or cut off by the end of the text, the cursor stands from its
opening quote up to its closing one. -/
theorem openAt_literal_iff (h : Quoted.encode v <+: t.drop start ∨ t.drop start <+: Quoted.encode v) :
    OpenAt t n start ↔ EntryAt t start ∧ start < n ∧ n < start + (Quoted.encode v).length ∧
      n ≤ t.length := by
  have hlength : (t.drop start).length = t.length - start := List.length_drop
  cases hdrop : t.drop start with
  | nil =>
      rw [hdrop] at hlength
      refine iff_of_false (not_openAt_end hdrop) ?_
      rintro ⟨-, hlt, -, hle⟩
      rw [List.length_nil] at hlength
      omega
  | cons c s =>
      have hc : c = Quoted.quote := by
        rw [hdrop] at h
        rcases h with h | h
        · exact (List.cons_prefix_cons.mp h).1.symm
        · exact (List.cons_prefix_cons.mp h).1
      subst hc
      rw [hdrop] at h hlength
      rw [openAt_iff_of_quote hdrop]
      refine and_congr_right fun _ => and_congr_right fun hlt => ?_
      by_cases hwhole : Quoted.encode v <+: Quoted.quote :: s
      · -- the token is the literal
        have htoken := length_stringBody_of_prefix hwhole
        have hclosed : Quoted.isClosed (Quoted.quote :: s.take (stringBody s).length) = true := by
          rw [← List.take_succ_cons, htoken, ← List.prefix_iff_eq_take.mp hwhole]
          exact Quoted.isClosed_encode v
        have hle := hwhole.length_le
        rw [hclosed, htoken]
        constructor
        · rintro ⟨hn, hend⟩
          have hne : n ≠ start + (Quoted.encode v).length := fun heq => Bool.noConfusion (hend heq)
          omega
        · rintro ⟨hn, -⟩
          exact ⟨hn.le, fun heq => absurd heq hn.ne⟩
      · -- the token is what the text has of the literal
        have hpart := h.resolve_left hwhole
        have htoken := length_stringBody_of_part hpart
        have hne : Quoted.quote :: s ≠ Quoted.encode v := fun heq => hwhole (heq ▸ List.prefix_rfl)
        have hopen := Quoted.isClosed_of_isPrefix hpart hne
        have hshort : (Quoted.quote :: s).length < (Quoted.encode v).length :=
          Nat.lt_of_le_of_ne hpart.length_le fun heq => hne (hpart.eq_of_length heq)
        rw [htoken, List.take_length, hopen]
        rw [List.length_cons] at hlength hshort
        constructor
        · rintro ⟨hn, -⟩
          omega
        · rintro ⟨-, hn⟩
          exact ⟨by omega, fun _ => rfl⟩

/-- A literal is closed, and it is neither in part nor with something behind it.  So in a document that has
the literal, or a part of it at its end, the cursor stands in the string exactly from its opening quote
up to its own closing quote, provided that it is a key or a value; and that is every string of a document
without faults. -/
theorem open_until_closed (v : Text) :
    Quoted.isClosed (Quoted.encode v) = true ∧
    (∀ s, s <+: Quoted.encode v → s ≠ Quoted.encode v → Quoted.isClosed s = false) ∧
    (∀ r, r ≠ [] → Quoted.isClosed (Quoted.encode v ++ r) = false) ∧
    (∀ (t : Text) (start : ℕ),
      Quoted.encode v <+: t.drop start ∨ t.drop start <+: Quoted.encode v → ∀ n,
        (OpenAt t n start ↔ EntryAt t start ∧ start < n ∧ n < start + (Quoted.encode v).length ∧
          n ≤ t.length)) ∧
    ∀ t, Faultless t → ∀ tok ∈ tokens t, tok.kind = .string → EntryAt t tok.start :=
  ⟨Quoted.isClosed_encode v, fun _ h hne => Quoted.isClosed_of_isPrefix h hne,
    fun _ h => Quoted.isClosed_append v h, fun _ _ h _ => openAt_literal_iff h,
    fun _ h _ htok hstring => h.entryAt htok hstring⟩

/-- A backslash and a quote: the literal is not closed by the quote that is escaped. -/
theorem open_until_closed_escapes :
    let v := Text.ofString "\\\""
    let whole := Text.ofString "\x7b\"k\":\"\\\\\\\"\",\"l\":true\x7d"
    let cut := Text.ofString "\x7b\"k\":\"\\\\\\\""
    Quoted.isClosed (Quoted.encode v) = true ∧
    ((Quoted.encode v).take 5 <+: Quoted.encode v ∧ (Quoted.encode v).take 5 ≠ Quoted.encode v ∧
      Quoted.isClosed ((Quoted.encode v).take 5) = false) ∧
    Quoted.isClosed (Quoted.encode v ++ [Quoted.quote]) = false ∧
    (Quoted.encode v <+: whole.drop 5 ∧ OpenAt whole 10 5 ∧ ¬OpenAt whole 11 5) ∧
    (cut.drop 5 <+: Quoted.encode v ∧ EntryAt cut 5 ∧ OpenAt cut 10 5) ∧
    Faultless whole ∧ EntryAt whole 5 := by
  intro v whole cut
  obtain ⟨hclosed, hpart, hmore, hopen, hentry⟩ := open_until_closed v
  have hfaultless : Faultless whole := faultless_iff.mpr (by subst whole; cbv)
  have htoken : ((tokens whole)[3]?.map fun tok => (tok.kind, tok.start)) = some (.string, 5) := by
    subst whole
    cbv
  obtain ⟨tok, htok, hkind⟩ := Option.map_eq_some_iff.mp htoken
  have hwhole : EntryAt whole 5 := by
    have h := hentry whole hfaultless tok (List.mem_of_getElem? htok) (congrArg Prod.fst hkind)
    rwa [show tok.start = 5 from congrArg Prod.snd hkind] at h
  have hcut : EntryAt cut 5 := entryAt_iff.mpr (by subst cut; cbv)
  have hbegins : (Quoted.encode v).take 5 <+: Quoted.encode v := List.take_prefix 5 _
  have hproper : (Quoted.encode v).take 5 ≠ Quoted.encode v := by decide
  have hliteral : Quoted.encode v <+: whole.drop 5 := by decide
  have hrest : cut.drop 5 <+: Quoted.encode v := by decide
  have hin := hopen whole 5 (.inl hliteral)
  exact ⟨hclosed, ⟨hbegins, hproper, hpart _ hbegins hproper⟩, hmore _ (List.cons_ne_nil _ _),
    ⟨hliteral, (hin 10).mpr ⟨hwhole, by decide, by decide, by decide⟩,
      fun h => absurd ((hin 11).mp h).2.2.1 (by decide)⟩,
    ⟨hrest, hcut, (hopen cut 5 (.inr hrest) 10).mpr ⟨hcut, by decide, by decide, by decide⟩⟩,
    hfaultless, hwhole⟩

end strings

/-! ### The cursor in a key -/

section resolve

variable {t : Text} {root obj : Node} {n : ℕ}

/-- Inside of a string the string is open. -/
theorem openStringStart?_inside {start length : ℕ} (isProperty : Bool) {value : Text}
    (hwritten : WrittenAt t start value) (hstart : start < n) (hstop : n < start + length) :
    openStringStart? t ⟨start, length, isProperty⟩ n = some (start + 1) := by
  obtain ⟨body, hbody, -⟩ := hwritten
  have hstring : Passed.isString ⟨start, length, isProperty⟩ t = true := by
    unfold Passed.isString
    rw [hbody]
    rfl
  exact openStringStart?_eq_some_iff.mpr
    ⟨hstring, rfl, hstart, hstop.le, fun h => absurd h hstop.ne⟩

/-- In a key the path is that of the key, and the keys beside it are looked for in front of its last
step. -/
theorem resolve_inside {p : Path} {k : Key} (hwrites : Writes root (events false t))
    (horder : (events false t).Pairwise Event.Before)
    (hstems : ∀ e ∈ events false t, ∃ tok ∈ tokens t, e.StemsFrom tok)
    (hk : (p ++ [.key k.name], obj, k) ∈ root.keyPlaces) (hstart : k.span.start < n)
    (hstop : n < k.span.stop) :
    (resolve t n).path = p ++ [.key k.name] ∧ (resolve t n).token.position = .key ∧
      (resolve t n).siblingKeys = siblingKeys t p (touches n) := by
  obtain ⟨e, he, hspan, ⟨name, hkind⟩, hwalk⟩ :=
    stops_value hwrites horder hk hstart hstop .start
  obtain ⟨tok, htok, hstem⟩ := hstems e he
  have hlocate : locate t n =
      ⟨(p ++ [Segment.key k.name]).reverse, some ⟨e.start, e.length, true⟩, true⟩ := by
    have hwalk := hwalk []
    rw [List.append_nil] at hwalk
    rw [locate, hwalk]
    exact congrArg (Scopewright.Json.Location.mk · _ _) (List.append_nil _)
  have hwritten : WrittenAt t e.start tok.value := by
    rw [hstem.start_eq]
    exact written_of_mem_tokensFrom rfl tok htok (hstem.kind_eq name hkind)
  rw [← hspan] at hstart hstop
  have hopen := openStringStart?_inside true hwritten (Int.ofNat_lt.mp hstart)
    (Int.ofNat_lt.mp hstop)
  have hpath : (locate t n).path = p ++ [.key k.name] := by
    rw [hlocate]
    exact List.reverse_reverse _
  unfold resolve
  simp only [hpath, List.dropLast_concat]
  simp only [hlocate, Option.bind_eq_bind, Option.bind_some, hopen, Option.isNone_some,
    Bool.false_eq_true, false_and, if_false, if_true]
  exact ⟨trivial, rfl, trivial⟩

theorem siblingKeys_found {p : Path} {f : Span → Bool} {other : Node}
    (hwrites : Writes root (events false t)) (hother : FirstWay root p other) :
    siblingKeys t p f = (other.members.filter fun m => !f m.1.span).map (·.1.name) := by
  unfold siblingKeys
  rw [nodeOf_writes hwrites, Option.bind_eq_bind, Option.bind_some,
    (nodeAt?_eq_some_iff p hwrites).mpr hother]

theorem siblingKeys_missed {p : Path} {f : Span → Bool} (hwrites : Writes root (events false t))
    (h : ∀ other, ¬FirstWay root p other) : siblingKeys t p f = [] := by
  have hnone : nodeAt? root p = none :=
    Option.eq_none_iff_forall_ne_some.mpr fun other hother =>
      h other ((nodeAt?_eq_some_iff p hwrites).mp hother)
  unfold siblingKeys
  rw [nodeOf_writes hwrites, Option.bind_eq_bind, Option.bind_some, hnone]

/-- In a document without faults, and with the cursor in a key, the keys beside it are those of all
other entries of its object when the first entries with the names on the path lead there.  When they
lead to another node, they are all keys of that one, and when they lead nowhere, there are none. -/
theorem siblingKeys_object (h : Faultless t) : ∃ root, (Scopewright.Json.tree t).root = some root ∧
    ∀ (p : Path) (obj : Node) (front : List (Key × Node)) (k : Key) (v : Node)
      (behind : List (Key × Node)) (n : ℕ), (p, obj) ∈ root.places →
      obj.members = front ++ (k, v) :: behind → k.span.start < n → n < k.span.stop →
      (resolve t n).path = p ++ [.key k.name] ∧ (resolve t n).token.position = .key ∧
      (FirstWay root p obj → (resolve t n).siblingKeys = (front ++ behind).map (·.1.name)) ∧
      (∀ other, FirstWay root p other → other ≠ obj →
        (resolve t n).siblingKeys = other.members.map (·.1.name)) ∧
      ((∀ other, ¬FirstWay root p other) → (resolve t n).siblingKeys = []) := by
  obtain ⟨root, hwrites, horder, hstems⟩ := exists_writes h
  refine ⟨root, root_writes h hwrites, fun p obj front k v behind n hobj hmembers hstart hstop => ?_⟩
  have hspans := pairwise_keySpans hwrites horder
  have hk : (p ++ [.key k.name], obj, k) ∈ root.keyPlaces :=
    mem_keyPlaces root (m := (k, v)) hobj (by rw [hmembers]; simp)
  obtain ⟨hpath, hposition, hkeys⟩ := resolve_inside hwrites horder hstems hk hstart hstop
  refine ⟨hpath, hposition, fun hfirst => ?_, fun other hother hne => ?_, fun hnone => ?_⟩
  · have hbeside := touches_members hspans hobj hmembers hstart hstop
    obtain ⟨hfront, hbehind⟩ := List.forall_mem_append.mp hbeside
    have htouches : (!touches n k.span) = false := by rw [touches_inside hstart hstop]; rfl
    have hself {ms : List (Key × Node)} (h : ∀ m ∈ ms, touches n m.1.span = false) :
        ms.filter (fun m => !touches n m.1.span) = ms :=
      List.filter_eq_self.mpr fun m hm => by rw [h m hm]; rfl
    rw [hkeys, siblingKeys_found hwrites hfirst, hmembers, List.filter_append, hself hfront,
      List.filter_cons_of_neg (by rw [htouches]; exact Bool.false_ne_true), hself hbehind]
  · have huntouched : ∀ m ∈ other.members, (!touches n m.1.span) = true := by
      intro m hm
      have hm := mem_keyPlaces root hother.mem_places hm
      have hdifferent : (p ++ [Segment.key m.1.name], other, m.1) ≠ (p ++ [.key k.name], obj, k) :=
        fun h => hne (congrArg (·.2.1) h)
      rw [touches_keyPlaces hspans hm hk hdifferent hstart hstop]
      rfl
    rw [hkeys, siblingKeys_found hwrites hother, List.filter_eq_self.mpr huntouched]
  · rw [hkeys, siblingKeys_missed hwrites hnone]

/-- In the first of two objects with one key, the other key is beside the cursor. -/
theorem siblingKeys_object_first :
    let t := Text.ofString "\x7b\"o\":\x7b\"a\":true,\"b\":true\x7d,\"o\":\x7b\x7d\x7d"
    let obj : Node := .object ⟨5, 24⟩ [(⟨"a", ⟨6, 9⟩⟩, .scalar ⟨10, 14⟩ (.bool true)),
      (⟨"b", ⟨15, 18⟩⟩, .scalar ⟨19, 23⟩ (.bool true))]
    let root : Node := .object ⟨0, 32⟩ [(⟨"o", ⟨1, 4⟩⟩, obj), (⟨"o", ⟨25, 28⟩⟩, .object ⟨29, 31⟩ [])]
    Faultless t ∧ (Scopewright.Json.tree t).root = some root ∧
      ([.key (Text.ofString "o")], obj) ∈ root.places ∧ FirstWay root [.key (Text.ofString "o")] obj ∧
      (resolve t 16).siblingKeys = [Text.ofString "a"] := by
  intro t obj root
  have h : Faultless t := faultless_iff.mpr (by subst t; cbv)
  have hroot : (Scopewright.Json.tree t).root = some root := by subst root obj t; cbv
  have hfirst : FirstWay root [.key (Text.ofString "o")] obj :=
    .key (List.forall_mem_nil _) (.here obj)
  obtain ⟨root', hroot', hkeys⟩ := siblingKeys_object h
  obtain rfl : root' = root := Option.some.inj (hroot'.symm.trans hroot)
  obtain ⟨-, -, hkeys, -, -⟩ := hkeys _ obj [(⟨"a", ⟨6, 9⟩⟩, .scalar ⟨10, 14⟩ (.bool true))]
    ⟨"b", ⟨15, 18⟩⟩ (.scalar ⟨19, 23⟩ (.bool true)) [] 16 hfirst.mem_places rfl (by decide) (by decide)
  exact ⟨h, hroot, hfirst.mem_places, hfirst, hkeys hfirst⟩

/-- In the second of two objects with one key, the keys of the first one are beside the cursor. -/
theorem siblingKeys_object_second :
    let t := Text.ofString "\x7b\"a\":\x7b\"x\":true\x7d,\"a\":\x7b\"y\":true,\"z\":true\x7d\x7d"
    let value (start stop : ℕ) : Node := .scalar ⟨start, stop⟩ (.bool true)
    Faultless t ∧ (Scopewright.Json.tree t).root = some (.object ⟨0, 40⟩
        [(⟨"a", ⟨1, 4⟩⟩, .object ⟨5, 15⟩ [(⟨"x", ⟨6, 9⟩⟩, value 10 14)]),
          (⟨"a", ⟨16, 19⟩⟩, .object ⟨20, 39⟩
            [(⟨"y", ⟨21, 24⟩⟩, value 25 29), (⟨"z", ⟨30, 33⟩⟩, value 34 38)])]) ∧
      (resolve t 31).siblingKeys = [Text.ofString "x"] := by
  intro t value
  have h : Faultless t := faultless_iff.mpr (by subst t; cbv)
  exact ⟨h, by subst value t; cbv, by subst t; cbv⟩

end resolve

end Json
end Cursor
end Scopewright
