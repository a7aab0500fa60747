import Scopewright.Proofs.Json.Faultless

/-! # The events of a value

The events of a value are told by its node (`Writes`): an object has a property, a colon and the events
of a value for each of its entries, with commas in between.  What a stack of open collections still
takes of the events is written down as `Left`, so that a run without faults has the events of one value
(`exists_writes`), and these events build its node (`nodeOf_writes`), the root of the document's tree
(`root_writes`). -/

namespace Scopewright
namespace Json

open Document (Key Node Scalar)

/-- What stands in front of an entry or item: a comma, unless it is the first one. -/
def IsSeparator (separated : Bool) (es : List Event) : Prop :=
  if separated then ∃ e, es = [e] ∧ e.kind = .comma else es = []

mutual

/-- The events are those of a value. -/
def Writes : Node → List Event → Prop
  | .scalar span v, es => ∃ e, es = [e] ∧ e.kind = .literal v ∧ span = e.span
  | .object span members, es => ∃ first inner last, es = first :: (inner ++ [last]) ∧
      first.kind = .objectBegin ∧ WritesMembers false members inner ∧ last.kind = .objectEnd ∧
      span = ⟨first.start, last.stop⟩
  | .array span items, es => ∃ first inner last, es = first :: (inner ++ [last]) ∧
      first.kind = .arrayBegin ∧ WritesItems false items inner ∧ last.kind = .arrayEnd ∧
      span = ⟨first.start, last.stop⟩
  | .unknown _, _ => False

/-- The events are those of entries; `separated` when others stand in front of them. -/
def WritesMembers (separated : Bool) : List (Key × Node) → List Event → Prop
  | [], es => es = []
  | (k, v) :: ms, es => ∃ commas property colon value rest,
      es = commas ++ property :: colon :: (value ++ rest) ∧ IsSeparator separated commas ∧
      property.kind = .property k.name ∧ k.span = property.span ∧ colon.kind = .colon ∧
      Writes v value ∧ WritesMembers true ms rest

/-- The events are those of items; `separated` when others stand in front of them. -/
def WritesItems (separated : Bool) : List Node → List Event → Prop
  | [], es => es = []
  | v :: vs, es => ∃ commas value rest, es = commas ++ (value ++ rest) ∧
      IsSeparator separated commas ∧ Writes v value ∧ WritesItems true vs rest

end

/-- Each value of an entry has events of its own. -/
theorem exists_writes_of_mem : ∀ {separated : Bool} {ms : List (Key × Node)} {es : List Event},
    WritesMembers separated ms es → ∀ m ∈ ms, ∃ es, Writes m.2 es
  | _, [], _, _, m, hm => by cases hm
  | _, (k, v) :: ms, es, h, m, hm => by
      obtain ⟨commas, property, colon, value, rest, rfl, -, -, -, -, hv, hms⟩ := h
      rcases List.mem_cons.mp hm with rfl | hm
      · exact ⟨value, hv⟩
      · exact exists_writes_of_mem hms m hm

/-- Each item has events of its own. -/
theorem exists_writes_of_mem_items : ∀ {separated : Bool} {vs : List Node} {es : List Event},
    WritesItems separated vs es → ∀ v ∈ vs, ∃ es, Writes v es
  | _, [], _, _, v, hv => by cases hv
  | _, v' :: vs, es, h, v, hmem => by
      obtain ⟨commas, value, rest, rfl, -, hv, hvs⟩ := h
      rcases List.mem_cons.mp hmem with rfl | hmem
      · exact ⟨value, hv⟩
      · exact exists_writes_of_mem_items hvs v hmem

/-! ### What is left of open collections -/

/-- The events are those of entries or items of a collection. -/
def Inside (f : Frame) (separated : Bool) (es : List Event) : Prop :=
  match f with
  | .object => ∃ members, WritesMembers separated members es
  | .array => ∃ items, WritesItems separated items es

/-- What open collections still take of the events, the innermost having its entries or items from now
on. -/
def Left : List Frame → Bool → List Event → Prop
  | [], _, es => es = []
  | f :: fs, separated, es => ∃ inner last rest, es = inner ++ last :: rest ∧
      Inside f separated inner ∧ last.kind = f.ending ∧ Left fs true rest

/-- What open collections still take of the events when a value comes first. -/
def LeftValue (fs : List Frame) (es : List Event) : Prop :=
  ∃ v value rest, es = value ++ rest ∧ Writes v value ∧ Left fs true rest

/-- What open collections still take of the events in each phase of the machine. -/
def LeftAt : List Frame → Phase → List Event → Prop
  | fs, .value, es => LeftValue fs es
  | [], _, es => es = []
  | f :: fs, .next separated, es => Left (f :: fs) separated es
  | .array :: fs, .item, es => LeftValue (.array :: fs) es
  | .object :: fs, .item, es => ∃ property name colon rest, es = property :: colon :: rest ∧
      property.kind = .property name ∧ colon.kind = .colon ∧ LeftValue (.object :: fs) rest
  | f :: fs, .colon, es => ∃ colon rest, es = colon :: rest ∧ colon.kind = .colon ∧
      LeftValue (f :: fs) rest
  | f :: fs, .close, es => ∃ last rest, es = last :: rest ∧ last.kind = f.ending ∧ Left fs true rest
  | _ :: _, .resume, _ => True

theorem leftAt_next (fs : List Frame) (separated : Bool) (es : List Event) :
    LeftAt fs (.next separated) es = Left fs separated es := by
  cases fs <;> rfl

/-- An entry or item stands in front of the others. -/
theorem Left.of_item {f : Frame} {fs : List Frame} {separated : Bool} (commas : List Event)
    {es : List Event} (hcommas : IsSeparator separated commas) (h : LeftAt (f :: fs) .item es) :
    Left (f :: fs) separated (commas ++ es) := by
  cases f with
  | object =>
      obtain ⟨property, name, colon, rest, rfl, hproperty, hcolon, v, value, rest, rfl, hv,
        inner, last, rest, rfl, ⟨ms, hms⟩, hlast, hleft⟩ := h
      refine ⟨commas ++ property :: colon :: (value ++ inner), last, rest, ?_,
        ⟨(⟨name, property.span⟩, v) :: ms, commas, property, colon, value, inner, rfl, hcommas,
          hproperty, rfl, hcolon, hv, hms⟩, hlast, hleft⟩
      simp only [List.append_assoc, List.cons_append]
  | array =>
      obtain ⟨v, value, rest, rfl, hv, inner, last, rest, rfl, ⟨vs, hvs⟩, hlast, hleft⟩ := h
      refine ⟨commas ++ (value ++ inner), last, rest, ?_,
        ⟨v :: vs, commas, value, inner, rfl, hcommas, hv, hvs⟩, hlast, hleft⟩
      simp only [List.append_assoc]

/-- A collection is a value. -/
theorem Left.exists_value {f : Frame} {fs : List Frame} {first : Event} {es : List Event}
    (hfirst : first.kind = f.beginning) (h : Left (f :: fs) false es) :
    LeftValue fs (first :: es) := by
  obtain ⟨inner, last, rest, rfl, hinside, hlast, hleft⟩ := h
  cases f with
  | object =>
      obtain ⟨ms, hms⟩ := hinside
      refine ⟨.object ⟨first.start, last.stop⟩ ms, first :: (inner ++ [last]), rest, ?_,
        ⟨first, inner, last, rfl, hfirst, hms, hlast, rfl⟩, hleft⟩
      simp only [List.cons_append, List.append_assoc, List.nil_append]
  | array =>
      obtain ⟨vs, hvs⟩ := hinside
      refine ⟨.array ⟨first.start, last.stop⟩ vs, first :: (inner ++ [last]), rest, ?_,
        ⟨first, inner, last, rfl, hfirst, hvs, hlast, rfl⟩, hleft⟩
      simp only [List.cons_append, List.append_assoc, List.nil_append]

/-- A run leaves for the open collections what they take. -/
theorem Run.leftAt {fs : List Frame} {phase : Phase} {toks : List Token} {es : List Event}
    (h : Run fs phase toks es) : LeftAt fs phase es := by
  induction h with
  | @finished phase tok hphase htok =>
      cases phase with
      | value => exact absurd rfl hphase
      | _ => rfl
  | scalar htok _ ih =>
      rw [leftAt_next] at ih
      exact ⟨.scalar _ _, [_], _, rfl, ⟨_, rfl, rfl, rfl⟩, ih⟩
  | opening htok _ ih => exact ih.exists_value rfl
  | first _ ih => exact Left.of_item [] rfl ih
  | comma htok _ ih => exact Left.of_item [_] ⟨_, rfl, rfl⟩ ih
  | item _ ih => exact ih
  | key htok _ ih =>
      obtain ⟨colon, rest, rfl, hcolon, hleft⟩ := ih
      exact ⟨_, _, colon, rest, rfl, rfl, hcolon, hleft⟩
  | colon htok _ ih => exact ⟨_, _, rfl, rfl, ih⟩
  | @closing f fs needsComma _ _ _ ih =>
      obtain ⟨last, rest, rfl, hlast, hleft⟩ := ih
      refine ⟨[], last, rest, rfl, ?_, hlast, hleft⟩
      cases f
      · exact ⟨[], rfl⟩
      · exact ⟨[], rfl⟩
  | close htok _ ih =>
      rw [leftAt_next] at ih
      exact ⟨_, _, rfl, rfl, ih⟩

/-- A text without faults has the events of one value, in their order, each from a token. -/
theorem exists_writes {t : Text} (h : Faultless t) : ∃ v, Writes v (events false t) ∧
    (events false t).Pairwise Event.Before ∧
    ∀ e ∈ events false t, ∃ tok ∈ tokens t, e.StemsFrom tok := by
  obtain ⟨toks, hsub, hrun, -⟩ := h.exists_run
  obtain ⟨hpairwise, hstems⟩ := hrun.ordered ((pairwise_tokensFrom t.length 0 t).1.sublist hsub)
  obtain ⟨v, value, rest, hes, hv, hrest⟩ := hrun.leftAt
  obtain rfl : rest = [] := hrest
  rw [List.append_nil] at hes
  refine ⟨v, hes ▸ hv, hpairwise, fun e he => ?_⟩
  obtain ⟨tok, htok, he⟩ := hstems e he
  exact ⟨tok, hsub.subset htok, he⟩

/-! ### The node of the events -/

section steps

variable {e : Event} {es : List Event} {o p : Open} {os : List Open}

theorem nodeOf_literal {v : Scalar} (he : e.kind = .literal v) :
    nodeOf (o :: os) (e :: es) = nodeOf (o.add (.scalar e.span v) :: os) es := by
  rw [nodeOf.eq_def]
  simp only [he]

theorem nodeOf_property {name : Text} (he : e.kind = .property name) :
    nodeOf (o :: os) (e :: es) = nodeOf (o.expect ⟨name, e.span⟩ :: os) es := by
  rw [nodeOf.eq_def]
  simp only [he]

theorem nodeOf_colon (he : e.kind = .colon) : nodeOf (o :: os) (e :: es) = nodeOf (o :: os) es := by
  rw [nodeOf.eq_def]
  simp only [he]

theorem nodeOf_comma (he : e.kind = .comma) :
    nodeOf (o :: os) (e :: es) = nodeOf (o.settle :: os) es := by
  rw [nodeOf.eq_def]
  simp only [he]

theorem nodeOf_objectBegin (he : e.kind = .objectBegin) (stack : List Open) :
    nodeOf stack (e :: es) = nodeOf (.object e.start [] none :: stack) es := by
  rw [nodeOf.eq_def]
  simp only [he]

theorem nodeOf_arrayBegin (he : e.kind = .arrayBegin) (stack : List Open) :
    nodeOf stack (e :: es) = nodeOf (.array e.start [] :: stack) es := by
  rw [nodeOf.eq_def]
  simp only [he]

theorem nodeOf_end (he : e.kind = .objectEnd ∨ e.kind = .arrayEnd) :
    nodeOf (o :: p :: os) (e :: es) = nodeOf (p.add (o.close e.stop) :: os) es := by
  rw [nodeOf.eq_def]
  rcases he with he | he <;> simp only [he]

theorem nodeOf_last (he : e.kind = .objectEnd ∨ e.kind = .arrayEnd) :
    nodeOf [o] (e :: es) = some (o.close e.stop) := by
  rw [nodeOf.eq_def]
  rcases he with he | he <;> simp only [he]

/-- A separator is passed over by a collection that waits for no value. -/
theorem nodeOf_separator {separated : Bool} {commas : List Event} (h : IsSeparator separated commas)
    (ho : o.settle = o) : nodeOf (o :: os) (commas ++ es) = nodeOf (o :: os) es := by
  cases separated with
  | false =>
      obtain rfl : commas = [] := h
      rfl
  | true =>
      obtain ⟨e, rfl, he⟩ := h
      rw [List.singleton_append, nodeOf_comma he, ho]

end steps

mutual

/-- The events of a value add it to the collection around it. -/
theorem nodeOf_value : ∀ {v : Node} {es : List Event}, Writes v es →
    ∀ (o : Open) (os : List Open) (rest : List Event),
      nodeOf (o :: os) (es ++ rest) = nodeOf (o.add v :: os) rest
  | .scalar span v, es, h, o, os, rest => by
      obtain ⟨e, rfl, he, rfl⟩ := h
      exact nodeOf_literal he
  | .object span ms, es, h, o, os, rest => by
      obtain ⟨first, inner, last, rfl, hfirst, hinner, hlast, rfl⟩ := h
      rw [List.cons_append, List.append_assoc, nodeOf_objectBegin hfirst, nodeOf_members hinner,
        List.singleton_append, nodeOf_end (.inl hlast)]
      rfl
  | .array span vs, es, h, o, os, rest => by
      obtain ⟨first, inner, last, rfl, hfirst, hinner, hlast, rfl⟩ := h
      rw [List.cons_append, List.append_assoc, nodeOf_arrayBegin hfirst, nodeOf_items hinner,
        List.singleton_append, nodeOf_end (.inr hlast)]
      rfl
  | .unknown span, es, h, _, _, _ => by cases h

/-- The events of entries add them to their object. -/
theorem nodeOf_members : ∀ {separated : Bool} {ms : List (Key × Node)} {es : List Event},
    WritesMembers separated ms es → ∀ (start : ℕ) (before : List (Key × Node)) (os : List Open)
      (rest : List Event), nodeOf (.object start before none :: os) (es ++ rest) =
        nodeOf (.object start (before ++ ms) none :: os) rest
  | _, [], es, h, start, before, os, rest => by
      obtain rfl : es = [] := h
      rw [List.nil_append, List.append_nil]
  | _, (k, v) :: ms, es, h, start, before, os, rest => by
      obtain ⟨commas, property, colon, value, tail, rfl, hcommas, hproperty, hspan, hcolon, hv,
        hms⟩ := h
      have hk : (⟨k.name, property.span⟩ : Key) = k := by rw [← hspan]
      have hadd : (Open.object start before (some k)).add v = .object start (before ++ [(k, v)]) none :=
        rfl
      rw [List.append_assoc, nodeOf_separator hcommas rfl, List.cons_append, List.cons_append,
        List.append_assoc, nodeOf_property hproperty, nodeOf_colon hcolon, nodeOf_value hv, hk]
      show nodeOf ((Open.object start before (some k)).add v :: os) (tail ++ rest) = _
      rw [hadd, nodeOf_members hms, List.append_assoc, List.singleton_append]

/-- The events of items add them to their array. -/
theorem nodeOf_items : ∀ {separated : Bool} {vs : List Node} {es : List Event},
    WritesItems separated vs es → ∀ (start : ℕ) (before : List Node) (os : List Open)
      (rest : List Event), nodeOf (.array start before :: os) (es ++ rest) =
        nodeOf (.array start (before ++ vs) :: os) rest
  | _, [], es, h, start, before, os, rest => by
      obtain rfl : es = [] := h
      rw [List.nil_append, List.append_nil]
  | _, v :: vs, es, h, start, before, os, rest => by
      obtain ⟨commas, value, tail, rfl, hcommas, hv, hvs⟩ := h
      rw [List.append_assoc, nodeOf_separator hcommas rfl, List.append_assoc, nodeOf_value hv]
      show nodeOf (.array start (before ++ [v]) :: os) (tail ++ rest) = _
      rw [nodeOf_items hvs, List.append_assoc, List.singleton_append]

end

/-- The events of a value build it. -/
theorem nodeOf_writes {v : Node} {es : List Event} (h : Writes v es) : nodeOf [] es = some v := by
  cases v with
  | scalar span v =>
      obtain ⟨e, rfl, he, rfl⟩ := h
      rw [nodeOf.eq_def]
      simp only [he]
  | object span ms =>
      obtain ⟨first, inner, last, rfl, hfirst, hinner, hlast, rfl⟩ := h
      rw [nodeOf_objectBegin hfirst, nodeOf_members hinner, nodeOf_last (.inl hlast)]
      rfl
  | array span vs =>
      obtain ⟨first, inner, last, rfl, hfirst, hinner, hlast, rfl⟩ := h
      rw [nodeOf_arrayBegin hfirst, nodeOf_items hinner, nodeOf_last (.inr hlast)]
      rfl
  | unknown span => cases h

/-- The tree of a text without faults is the value of its events. -/
theorem root_writes {t : Text} {v : Node} (h : Faultless t) (hv : Writes v (events false t)) :
    (tree t).root = some v := by
  obtain ⟨-, -, -, htrailing⟩ := h.exists_run
  show nodeOf [] (events true t) = some v
  rw [htrailing, nodeOf_writes hv]

end Json
end Scopewright
