import Scopewright.Json.Location
import Scopewright.Proofs.Document.Keys
import Scopewright.Proofs.Json.Grammar

/-! # The walk to an offset

The walk to an offset passes the values that end in front of it and comes back to the path that it had
(`exists_passes_value`).  In a key it stops at that key, and the path is the one that leads to the key
in the tree (`stops_value`).

In any document, be it faulty or not, the token that the walk has passed last is that of a key or value
(`exists_entry`), and inside of a key or value it is its own (`previous_locate`). -/

namespace Scopewright
namespace Json

open Cursor (Segment)
open Document (Key Node Scalar keyPlacesOfMembers keyPlacesOfItems keySpans keySpans_members
  keySpans_items)
open Location (walk)

/-! ### Keys and events -/

mutual

/-- The keys of a value are written where its events are, in their order. -/
theorem keySpans_value : ∀ {v : Node} {es : List Event}, Writes v es →
    (keySpans v.keyPlaces).Sublist (es.map Event.span)
  | .scalar span v, es, _ => List.nil_sublist _
  | .object span ms, es, h => by
      obtain ⟨first, inner, last, rfl, -, hinner, -, -⟩ := h
      rw [Node.keyPlaces, List.map_cons, List.map_append]
      exact ((keySpans_ofMembers hinner).trans (List.sublist_append_left _ _)).cons _
  | .array span vs, es, h => by
      obtain ⟨first, inner, last, rfl, -, hinner, -, -⟩ := h
      rw [Node.keyPlaces, List.map_cons, List.map_append]
      exact ((keySpans_ofItems hinner).trans (List.sublist_append_left _ _)).cons _
  | .unknown span, es, h => by cases h

theorem keySpans_ofMembers {owner : Node} : ∀ {separated : Bool} {ms : List (Key × Node)}
    {es : List Event}, WritesMembers separated ms es →
    (keySpans (keyPlacesOfMembers owner ms)).Sublist (es.map Event.span)
  | _, [], es, _ => List.nil_sublist _
  | _, (k, v) :: ms, es, h => by
      obtain ⟨commas, property, colon, value, rest, rfl, -, -, hspan, -, hv, hms⟩ := h
      rw [keySpans_members, hspan, List.map_append, List.map_cons, List.map_cons, List.map_append]
      exact ((((keySpans_value hv).append (keySpans_ofMembers hms)).cons _).cons_cons _).trans
        (List.sublist_append_right _ _)

theorem keySpans_ofItems : ∀ {separated : Bool} {vs : List Node} {i : ℕ} {es : List Event},
    WritesItems separated vs es →
    (keySpans (keyPlacesOfItems i vs)).Sublist (es.map Event.span)
  | _, [], i, es, _ => List.nil_sublist _
  | _, v :: vs, i, es, h => by
      obtain ⟨commas, value, rest, rfl, -, hv, hvs⟩ := h
      rw [keySpans_items, List.map_append, List.map_append]
      exact ((keySpans_value hv).append (keySpans_ofItems hvs)).trans (List.sublist_append_right _ _)

end

/-! ### Values in front of the offset -/

/-- All events end in front of an offset. -/
def EndBefore (n : ℕ) (es : List Event) : Prop := ∀ e ∈ es, e.stop < n

section steps

variable {n : ℕ} {l : Location} {e : Event} {es : List Event}

theorem EndBefore.append {es es' : List Event} (h : EndBefore n (es ++ es')) :
    EndBefore n es ∧ EndBefore n es' :=
  ⟨fun e he => h e (List.mem_append_left _ he), fun e he => h e (List.mem_append_right _ he)⟩

theorem EndBefore.cons {es : List Event} (h : EndBefore n (e :: es)) :
    e.stop < n ∧ EndBefore n es := List.forall_mem_cons.mp h

theorem start_lt (h : e.stop < n) : e.start < n := Nat.lt_of_le_of_lt (Nat.le_add_right _ _) h

theorem walk_literal {v : Scalar} (he : e.kind = .literal v) (h : e.stop < n) :
    walk n l (e :: es) = walk n { l with previous := some ⟨e.start, e.length, false⟩ } es := by
  have hstart := start_lt h
  simp only [walk, Location.step, he, if_neg (Nat.lt_asymm hstart), decide_eq_true h, if_true]

theorem walk_property {name : Text} (he : e.kind = .property name) (h : e.stop < n) :
    walk n l (e :: es) = walk n { l.setLast (.key name) with
      previous := some ⟨e.start, e.length, true⟩ } es := by
  have hstart := start_lt h
  simp only [walk, Location.step, he, if_neg (Nat.lt_asymm hstart), decide_eq_true h, if_true]

/-- In a key the walk stops. -/
theorem walk_inside {name : Text} (he : e.kind = .property name) (hstart : e.start < n)
    (hstop : n < e.stop) : walk n l (e :: es) =
      { l.setLast (.key name) with previous := some ⟨e.start, e.length, true⟩ } := by
  simp only [walk, Location.step, he, if_neg (Nat.lt_asymm hstart),
    decide_eq_false (Nat.lt_asymm hstop), Bool.false_eq_true, if_false]

theorem walk_colon (he : e.kind = .colon) (h : e.stop < n) :
    walk n l (e :: es) = walk n l.pastColon es := by
  simp only [walk, Location.step, he, if_neg (Nat.not_le.mpr (start_lt h)), if_true]

theorem walk_comma (he : e.kind = .comma) (h : e.stop < n) :
    walk n l (e :: es) = walk n l.pastComma es := by
  simp only [walk, Location.step, he, if_neg (Nat.not_le.mpr (start_lt h)), if_true]

theorem walk_objectBegin (he : e.kind = .objectBegin) (h : e.stop < n) :
    walk n l (e :: es) = walk n ⟨.key [] :: l.reversed, none, true⟩ es := by
  simp only [walk, Location.step, he, if_neg (Nat.not_le.mpr (start_lt h)), if_true]

theorem walk_arrayBegin (he : e.kind = .arrayBegin) (h : e.stop < n) :
    walk n l (e :: es) = walk n { l with reversed := .index 0 :: l.reversed, previous := none } es := by
  simp only [walk, Location.step, he, if_neg (Nat.not_le.mpr (start_lt h)), if_true]

theorem walk_end (he : e.kind = .objectEnd ∨ e.kind = .arrayEnd) (h : e.stop < n) :
    walk n l (e :: es) =
      walk n { l with reversed := l.reversed.drop 1, previous := none } es := by
  rcases he with he | he <;>
    simp only [walk, Location.step, he, if_neg (Nat.not_le.mpr (start_lt h)), if_true]

theorem reversed_pastColon : l.pastColon.reversed = l.reversed := by
  unfold Location.pastColon
  split <;> rfl

end steps

/-- The walk passes events that end in front of the offset and goes on at another place. -/
def Passes (n : ℕ) (l : Location) (es : List Event) (l' : Location) : Prop :=
  EndBefore n es → ∀ rest, walk n l (es ++ rest) = walk n l' rest

section passes

variable {n : ℕ} {l l' l'' : Location} {es es' : List Event} {R : List Segment}

theorem Passes.append (h : Passes n l es l') (h' : Passes n l' es' l'') :
    Passes n l (es ++ es') l'' := by
  intro hend rest
  obtain ⟨hes, hes'⟩ := hend.append
  rw [List.append_assoc, h hes, h' hes']

theorem Passes.cons {e : Event} (h : e.stop < n → ∀ rest, walk n l (e :: rest) = walk n l' rest)
    (h' : Passes n l' es l'') : Passes n l (e :: es) l'' := by
  intro hend rest
  obtain ⟨he, hes⟩ := hend.cons
  rw [List.cons_append, h he, h' hes]

/-- In front of an entry of an object the place is that of a key. -/
theorem exists_passes_commas {separated : Bool} {commas : List Event} {x : Text}
    (h : IsSeparator separated commas) (hl : l.reversed = .key x :: R)
    (hkey : separated = false → l.atKey = true) :
    ∃ l' y, Passes n l commas l' ∧ l'.reversed = .key y :: R ∧ l'.atKey = true := by
  cases separated with
  | false =>
      obtain rfl : commas = [] := h
      exact ⟨l, x, fun _ _ => rfl, hl, hkey rfl⟩
  | true =>
      obtain ⟨e, rfl, he⟩ := h
      have hcomma : l.pastComma = { l.setLast (.key []) with previous := none, atKey := true } := by
        rw [Location.pastComma, hl]
      refine ⟨l.pastComma, [], fun hend rest => walk_comma he (hend e List.mem_cons_self), ?_, ?_⟩
      · rw [hcomma]
        show Segment.key [] :: l.reversed.drop 1 = _
        rw [hl]
        rfl
      · rw [hcomma]

/-- In front of an item of an array the place is that of the item. -/
theorem exists_passes_commas_item {separated : Bool} {commas : List Event} {i : ℕ}
    (h : IsSeparator separated commas) (hl : l.reversed = .index i :: R) :
    ∃ l', Passes n l commas l' ∧ l'.reversed = .index (if separated then i + 1 else i) :: R := by
  cases separated with
  | false =>
      obtain rfl : commas = [] := h
      exact ⟨l, fun _ _ => rfl, hl⟩
  | true =>
      obtain ⟨e, rfl, he⟩ := h
      refine ⟨l.pastComma, fun hend rest => walk_comma he (hend e List.mem_cons_self), ?_⟩
      rw [Location.pastComma, hl]
      show Segment.index (i + 1) :: l.reversed.drop 1 = _
      rw [hl]
      rfl

/-- Behind a key and its colon the place is that of the value. -/
theorem exists_passes_key {property colon : Event} {name x : Text}
    (hproperty : property.kind = .property name) (hcolon : colon.kind = .colon)
    (hl : l.reversed = .key x :: R) :
    ∃ l', Passes n l [property, colon] l' ∧ l'.reversed = .key name :: R := by
  let behind : Location := { l.setLast (.key name) with
    previous := some ⟨property.start, property.length, true⟩ }
  refine ⟨behind.pastColon, ?_, ?_⟩
  · exact .cons (fun h rest => walk_property hproperty h)
      (.cons (fun h rest => walk_colon hcolon h) fun _ _ => rfl)
  · rw [reversed_pastColon]
    show Segment.key name :: l.reversed.drop 1 = _
    rw [hl]
    rfl

end passes

mutual

/-- Behind a value in front of the offset the path is that of the value. -/
theorem exists_passes_value {n : ℕ} : ∀ {v : Node} {es : List Event}, Writes v es →
    ∀ l : Location, ∃ l', Passes n l es l' ∧ l'.reversed = l.reversed
  | .scalar span v, es, h, l => by
      obtain ⟨e, rfl, he, rfl⟩ := h
      exact ⟨_, .cons (fun h rest => walk_literal he h) fun _ _ => rfl, rfl⟩
  | .object span ms, es, h, l => by
      obtain ⟨first, inner, last, rfl, hfirst, hinner, hlast, rfl⟩ := h
      obtain ⟨l', x, hpasses, hreversed⟩ :=
        exists_passes_members hinner (l := ⟨.key [] :: l.reversed, none, true⟩) rfl fun _ => rfl
      refine ⟨_, .cons (fun h rest => walk_objectBegin hfirst h)
        (hpasses.append (.cons (fun h rest => walk_end (.inl hlast) h) fun _ _ => rfl)), ?_⟩
      show l'.reversed.drop 1 = _
      rw [hreversed]
      rfl
  | .array span vs, es, h, l => by
      obtain ⟨first, inner, last, rfl, hfirst, hinner, hlast, rfl⟩ := h
      obtain ⟨l', i, hpasses, hreversed⟩ := exists_passes_items hinner
        (l := { l with reversed := .index 0 :: l.reversed, previous := none }) rfl
      refine ⟨_, .cons (fun h rest => walk_arrayBegin hfirst h)
        (hpasses.append (.cons (fun h rest => walk_end (.inr hlast) h) fun _ _ => rfl)), ?_⟩
      show l'.reversed.drop 1 = _
      rw [hreversed]
      rfl
  | .unknown span, es, h, l => by cases h

/-- Behind entries in front of the offset the place is in their object. -/
theorem exists_passes_members {n : ℕ} : ∀ {separated : Bool} {ms : List (Key × Node)}
    {es : List Event}, WritesMembers separated ms es → ∀ {l : Location} {x : Text}
    {R : List Segment}, l.reversed = .key x :: R → (separated = false → l.atKey = true) →
    ∃ l' y, Passes n l es l' ∧ l'.reversed = .key y :: R
  | _, [], es, h, l, x, R, hl, _ => by
      obtain rfl : es = [] := h
      exact ⟨l, x, fun _ _ => rfl, hl⟩
  | _, (k, v) :: ms, es, h, l, x, R, hl, hkey => by
      obtain ⟨commas, property, colon, value, rest, rfl, hcommas, hproperty, -, hcolon, hv, hms⟩ := h
      obtain ⟨l₁, y, hpasses₁, hl₁, -⟩ := exists_passes_commas hcommas hl hkey
      obtain ⟨l₂, hpasses₂, hl₂⟩ := exists_passes_key hproperty hcolon hl₁
      obtain ⟨l₃, hpasses₃, hl₃⟩ := exists_passes_value hv l₂
      obtain ⟨l₄, z, hpasses₄, hl₄⟩ := exists_passes_members hms (hl₃.trans hl₂) nofun
      exact ⟨l₄, z, hpasses₁.append (hpasses₂.append (hpasses₃.append hpasses₄)), hl₄⟩

/-- Behind items in front of the offset the place is in their array. -/
theorem exists_passes_items {n : ℕ} : ∀ {separated : Bool} {vs : List Node} {es : List Event},
    WritesItems separated vs es → ∀ {l : Location} {i : ℕ} {R : List Segment},
    l.reversed = .index i :: R → ∃ l' j, Passes n l es l' ∧ l'.reversed = .index j :: R
  | _, [], es, h, l, i, R, hl => by
      obtain rfl : es = [] := h
      exact ⟨l, i, fun _ _ => rfl, hl⟩
  | _, v :: vs, es, h, l, i, R, hl => by
      obtain ⟨commas, value, rest, rfl, hcommas, hv, hvs⟩ := h
      obtain ⟨l₁, hpasses₁, hl₁⟩ := exists_passes_commas_item hcommas hl
      obtain ⟨l₂, hpasses₂, hl₂⟩ := exists_passes_value hv l₁
      obtain ⟨l₃, j, hpasses₃, hl₃⟩ := exists_passes_items hvs (hl₂.trans hl₁)
      exact ⟨l₃, j, hpasses₁.append (hpasses₂.append hpasses₃), hl₃⟩

end

/-! ### The offset in a key -/

/-- The walk stops in the key, with the path from the innermost step on. -/
def Stops (n : ℕ) (l : Location) (es : List Event) (k : Key) (reversed : List Segment) : Prop :=
  ∃ e ∈ es, e.span = k.span ∧ (∃ name, e.kind = .property name) ∧
    ∀ rest, walk n l (es ++ rest) = ⟨reversed, some ⟨e.start, e.length, true⟩, true⟩

section stops

variable {n : ℕ} {l l' : Location} {es es' : List Event} {k : Key} {reversed : List Segment}

theorem Stops.append (h : Stops n l es k reversed) (es' : List Event) :
    Stops n l (es ++ es') k reversed := by
  obtain ⟨e, he, hspan, hkind, hwalk⟩ := h
  exact ⟨e, List.mem_append_left _ he, hspan, hkind, fun rest => by rw [List.append_assoc, hwalk]⟩

theorem Passes.stops (h : Passes n l es l') (hend : EndBefore n es)
    (h' : Stops n l' es' k reversed) : Stops n l (es ++ es') k reversed := by
  obtain ⟨e, he, hspan, hkind, hwalk⟩ := h'
  exact ⟨e, List.mem_append_right _ he, hspan, hkind,
    fun rest => by rw [List.append_assoc, h hend, hwalk]⟩

/-- What stands in front of a key with the offset inside ends in front of the offset. -/
theorem endBefore_of_mem (h : (es ++ es').Pairwise Event.Before) {span : Span}
    (hspan : span ∈ es'.map Event.span) (hn : span.start < n) : EndBefore n es := by
  obtain ⟨e', he', rfl⟩ := List.mem_map.mp hspan
  intro e he
  have hbefore := ((List.pairwise_append.mp h).2.2 e he e' he').2
  exact Nat.lt_of_le_of_lt hbefore (Int.ofNat_lt.mp hn)

theorem stops_inside {e : Event} {x : Text} {R : List Segment} (he : e.kind = .property k.name)
    (hspan : k.span = e.span) (hstart : k.span.start < n) (hstop : n < k.span.stop)
    (hl : l.reversed = .key x :: R) (hkey : l.atKey = true) :
    Stops n l [e] k (.key k.name :: R) := by
  rw [hspan] at hstart hstop
  refine ⟨e, List.mem_singleton_self e, hspan.symm, ⟨_, he⟩, fun rest => ?_⟩
  have hreversed : l.reversed.drop 1 = R := by
    rw [hl]
    rfl
  rw [List.singleton_append, walk_inside he (Int.ofNat_lt.mp hstart) (Int.ofNat_lt.mp hstop),
    Location.setLast, hreversed, hkey]

end stops

theorem span_mem {p : Cursor.Path × Node × Key} {ps : List (Cursor.Path × Node × Key)}
    {es : List Event} (h : (keySpans ps).Sublist (es.map Event.span)) (hp : p ∈ ps) :
    p.2.2.span ∈ es.map Event.span :=
  h.subset (List.mem_map.mpr ⟨p, hp, rfl⟩)

mutual

/-- With the offset in a key of a value the walk stops there, and the path leads to the key. -/
theorem stops_value {n : ℕ} : ∀ {v : Node} {es : List Event}, Writes v es →
    es.Pairwise Event.Before → ∀ {p : Cursor.Path × Node × Key}, p ∈ v.keyPlaces →
    p.2.2.span.start < n → n < p.2.2.span.stop →
    ∀ l : Location, Stops n l es p.2.2 (p.1.reverse ++ l.reversed)
  | .scalar span v, es, h, _, p, hp, _, _, l => by cases hp
  | .object span ms, es, h, horder, p, hp, hstart, hstop, l => by
      obtain ⟨first, inner, last, rfl, hfirst, hinner, hlast, rfl⟩ := h
      rw [Node.keyPlaces] at hp
      have hspan := span_mem (keySpans_ofMembers hinner) hp
      have hpasses : Passes n l [first] ⟨.key [] :: l.reversed, none, true⟩ :=
        .cons (fun h rest => walk_objectBegin hfirst h) fun _ _ => rfl
      have horder' : ([first] ++ inner ++ [last]).Pairwise Event.Before := horder
      have horder := (List.pairwise_append.mp horder').1
      refine Stops.append (hpasses.stops (endBefore_of_mem horder hspan hstart) ?_) [last]
      exact stops_members hinner (List.pairwise_append.mp horder).2.1 hp hstart hstop rfl fun _ => rfl
  | .array span vs, es, h, horder, p, hp, hstart, hstop, l => by
      obtain ⟨first, inner, last, rfl, hfirst, hinner, hlast, rfl⟩ := h
      rw [Node.keyPlaces] at hp
      have hspan := span_mem (keySpans_ofItems hinner) hp
      have hpasses : Passes n l [first]
          { l with reversed := .index 0 :: l.reversed, previous := none } :=
        .cons (fun h rest => walk_arrayBegin hfirst h) fun _ _ => rfl
      have horder' : ([first] ++ inner ++ [last]).Pairwise Event.Before := horder
      have horder := (List.pairwise_append.mp horder').1
      refine Stops.append (hpasses.stops (endBefore_of_mem horder hspan hstart) ?_) [last]
      exact stops_items false hinner (List.pairwise_append.mp horder).2.1 hp hstart hstop rfl
  | .unknown span, es, h, _, p, _, _, _, l => by cases h

theorem stops_members {n : ℕ} {owner : Node} : ∀ {separated : Bool} {ms : List (Key × Node)}
    {es : List Event}, WritesMembers separated ms es → es.Pairwise Event.Before →
    ∀ {p : Cursor.Path × Node × Key}, p ∈ keyPlacesOfMembers owner ms →
    p.2.2.span.start < n → n < p.2.2.span.stop →
    ∀ {l : Location} {x : Text} {R : List Segment}, l.reversed = .key x :: R →
    (separated = false → l.atKey = true) → Stops n l es p.2.2 (p.1.reverse ++ R)
  | _, [], es, h, _, p, hp, _, _, l, x, R, _, _ => by cases hp
  | _, (k, v) :: ms, es, h, horder, p, hp, hstart, hstop, l, x, R, hl, hkey => by
      obtain ⟨commas, property, colon, value, rest, rfl, hcommas, hproperty, hspan, hcolon, hv,
        hms⟩ := h
      obtain ⟨l₁, y, hpasses₁, hl₁, hkey₁⟩ := exists_passes_commas hcommas hl hkey
      obtain ⟨l₂, hpasses₂, hl₂⟩ := exists_passes_key hproperty hcolon hl₁
      have hsplit : commas ++ property :: colon :: (value ++ rest) =
          commas ++ [property, colon] ++ (value ++ rest) := by
        rw [List.append_assoc]
        rfl
      rw [keyPlacesOfMembers] at hp
      rcases List.mem_cons.mp hp with rfl | hp
      · have hmem : k.span ∈ (property :: colon :: (value ++ rest)).map Event.span := by
          rw [hspan]
          exact List.mem_cons_self
        refine hpasses₁.stops (endBefore_of_mem horder hmem hstart) ?_
        exact (stops_inside hproperty hspan hstart hstop hl₁ hkey₁).append _
      · rw [hsplit] at horder ⊢
        have horder' := (List.pairwise_append.mp horder).2.1
        have hpasses := hpasses₁.append hpasses₂
        rcases List.mem_append.mp hp with hp | hp
        · obtain ⟨p', hp', rfl⟩ := List.mem_map.mp hp
          have hmem : p'.2.2.span ∈ (value ++ rest).map Event.span := by
            rw [List.map_append]
            exact List.mem_append_left _ (span_mem (keySpans_value hv) hp')
          refine hpasses.stops (endBefore_of_mem horder hmem hstart) ?_
          have hstops := stops_value hv (List.pairwise_append.mp horder').1 hp' hstart hstop l₂
          rw [hl₂] at hstops
          rw [List.reverse_cons, List.append_assoc]
          exact hstops.append rest
        · obtain ⟨l₃, hpasses₃, hl₃⟩ := exists_passes_value hv l₂
          have hmem := span_mem (keySpans_ofMembers hms) hp
          rw [← List.append_assoc] at horder ⊢
          refine (hpasses.append hpasses₃).stops (endBefore_of_mem horder hmem hstart) ?_
          exact stops_members hms (List.pairwise_append.mp horder').2.1 hp hstart hstop
            (hl₃.trans hl₂) nofun

theorem stops_items {n : ℕ} : ∀ (separated : Bool) {vs : List Node} {es : List Event},
    WritesItems separated vs es → es.Pairwise Event.Before →
    ∀ {i : ℕ} {p : Cursor.Path × Node × Key},
    p ∈ keyPlacesOfItems (if separated then i + 1 else i) vs →
    p.2.2.span.start < n → n < p.2.2.span.stop →
    ∀ {l : Location} {R : List Segment}, l.reversed = .index i :: R →
    Stops n l es p.2.2 (p.1.reverse ++ R)
  | _, [], es, h, _, i, p, hp, _, _, l, R, _ => by cases hp
  | separated, v :: vs, es, h, horder, i, p, hp, hstart, hstop, l, R, hl => by
      obtain ⟨commas, value, rest, rfl, hcommas, hv, hvs⟩ := h
      obtain ⟨l₁, hpasses₁, hl₁⟩ := exists_passes_commas_item hcommas hl
      have horder' := (List.pairwise_append.mp horder).2.1
      rw [keyPlacesOfItems] at hp
      rcases List.mem_append.mp hp with hp | hp
      · obtain ⟨p', hp', rfl⟩ := List.mem_map.mp hp
        have hmem : p'.2.2.span ∈ (value ++ rest).map Event.span := by
          rw [List.map_append]
          exact List.mem_append_left _ (span_mem (keySpans_value hv) hp')
        refine hpasses₁.stops (endBefore_of_mem horder hmem hstart) ?_
        have hstops := stops_value hv (List.pairwise_append.mp horder').1 hp' hstart hstop l₁
        rw [hl₁] at hstops
        rw [List.reverse_cons, List.append_assoc]
        exact hstops.append rest
      · obtain ⟨l₂, hpasses₂, hl₂⟩ := exists_passes_value hv l₁
        have hmem := span_mem (keySpans_ofItems hvs) hp
        rw [← List.append_assoc] at horder ⊢
        refine (hpasses₁.append hpasses₂).stops (endBefore_of_mem horder hmem hstart) ?_
        exact stops_items true hvs (List.pairwise_append.mp horder').2.1 hp hstart hstop
          (hl₂.trans hl₁)

end

/-! ### Keys and values of any document -/

/-- What the walk keeps of a key or value that it has passed. -/
def Event.passed (e : Event) : Passed := ⟨e.start, e.length, e.kind.isProperty⟩

section any

variable {t : Text} {n : ℕ} {l : Location} {e : Event} {es : List Event}

/-- An event does not end the walk when it begins in front of the offset and, if it is a key or a value,
also ends there. -/
theorem step_goesOn (h : e.kind.isFault = true ∨
    e.start < n ∧ (e.kind.isEntry = true → e.stop < n)) (l : Location) :
    (Location.step n l e).2 = true := by
  unfold Location.step
  rcases h with hfault | ⟨hstart, hstop⟩
  · cases hkind : e.kind with
    | fault cause => rfl
    | _ =>
        rw [hkind] at hfault
        cases hfault
  · have hlt : ¬n < e.start := Nat.lt_asymm hstart
    have hle : ¬n ≤ e.start := Nat.not_le.mpr hstart
    cases hkind : e.kind with
    | property name =>
        rw [hkind] at hstop
        simp only [if_neg hlt, decide_eq_true (hstop rfl)]
    | literal v =>
        rw [hkind] at hstop
        simp only [if_neg hlt, decide_eq_true (hstop rfl)]
    | _ => simp only [if_neg hle]

/-- A key or value in front of the offset is the token passed last. -/
theorem step_entry (hentry : e.kind.isEntry = true) (hstart : e.start ≤ n) (l : Location) :
    (Location.step n l e).1.previous = some e.passed ∧
      (Location.step n l e).2 = decide (e.stop < n) := by
  have hlt : ¬n < e.start := Nat.not_lt.mpr hstart
  unfold Location.step Event.passed
  cases hkind : e.kind with
  | property name =>
      simp only [if_neg hlt, and_true]
      rfl
  | literal v =>
      simp only [if_neg hlt, and_true]
      rfl
  | _ =>
      rw [hkind] at hentry
      cases hentry

theorem previous_pastComma (l : Location) : l.pastComma.previous = none := by
  unfold Location.pastComma
  split <;> rfl

theorem previous_pastColon (l : Location) :
    l.pastColon.previous = l.previous ∨ l.pastColon.previous = none := by
  unfold Location.pastColon
  split
  · exact .inr rfl
  · exact .inl rfl

/-- A token is passed as the one of a key or value. -/
theorem previous_step (n : ℕ) (l : Location) (e : Event) :
    (Location.step n l e).1.previous = l.previous ∨ (Location.step n l e).1.previous = none ∨
      e.kind.isEntry = true ∧ (Location.step n l e).1.previous = some e.passed := by
  unfold Location.step Event.passed
  cases hkind : e.kind with
  | fault cause => exact .inl rfl
  | property name =>
      dsimp only
      split
      · exact .inl rfl
      · exact .inr (.inr ⟨rfl, rfl⟩)
  | literal v =>
      dsimp only
      split
      · exact .inl rfl
      · exact .inr (.inr ⟨rfl, rfl⟩)
  | colon =>
      dsimp only
      split
      · exact .inl rfl
      · exact (previous_pastColon l).imp_right .inl
  | comma =>
      dsimp only
      split
      · exact .inl rfl
      · exact .inr (.inl (previous_pastComma l))
  | _ =>
      dsimp only
      split
      · exact .inl rfl
      · exact .inr (.inl rfl)

/-- The token passed last is that of a key or value. -/
theorem exists_entry_of_walk {p : Passed} (h : (walk n l es).previous = some p) :
    l.previous = some p ∨ ∃ e ∈ es, e.kind.isEntry = true ∧ p = e.passed := by
  induction es generalizing l with
  | nil => exact .inl h
  | cons e es ih =>
      have hstep (hp : (Location.step n l e).1.previous = some p) :
          l.previous = some p ∨ ∃ e' ∈ e :: es, e'.kind.isEntry = true ∧ p = e'.passed := by
        rcases previous_step n l e with heq | heq | ⟨hentry, heq⟩
        · exact .inl (heq.symm.trans hp)
        · cases heq.symm.trans hp
        · exact .inr ⟨e, List.mem_cons_self, hentry, (Option.some.inj (heq.symm.trans hp)).symm⟩
      unfold walk at h
      dsimp only at h
      split at h
      · rcases ih h with hp | ⟨e', he', hentry⟩
        · exact hstep hp
        · exact .inr ⟨e', List.mem_cons_of_mem e he', hentry⟩
      · exact hstep h

/-- The token passed last in front of a cursor is that of a key or value of the document. -/
theorem exists_entry {p : Passed} (h : (locate t n).previous = some p) :
    ∃ e ∈ events false t, e.kind.isEntry = true ∧ p = e.passed :=
  (exists_entry_of_walk h).resolve_left nofun

/-- Behind the first unit of a key or value, and up to its end, it is the token passed last. -/
theorem previous_walk (horder : es.Pairwise Event.Precedes) (he : e ∈ es)
    (hentry : e.kind.isEntry = true) (hstart : e.start < n) (hstop : n ≤ e.stop) :
    (walk n l es).previous = some e.passed := by
  induction es generalizing l with
  | nil => cases he
  | cons a es ih =>
      obtain ⟨hbefore, horder⟩ := List.pairwise_cons.mp horder
      unfold walk
      dsimp only
      rcases List.mem_cons.mp he with rfl | he
      · obtain ⟨hprevious, hstops⟩ := step_entry hentry hstart.le l
        rw [hstops, decide_eq_false (Nat.not_lt.mpr hstop)]
        exact hprevious
      · have hgoesOn := step_goesOn (n := n) ((hbefore e he hentry).imp_right fun ⟨hle, hend⟩ =>
          ⟨Nat.lt_of_le_of_lt hle hstart, fun ha => Nat.lt_of_le_of_lt (hend ha) hstart⟩) l
        rw [if_pos hgoesOn]
        exact ih horder he

theorem ordered_events (trailing : Bool) (t : Text) :
    (events trailing t).Pairwise Event.Precedes := by
  obtain ⟨toks, hsub, htrace⟩ := trace_events trailing t
  exact htrace.ordered ((pairwise_tokensFrom t.length 0 t).1.sublist hsub)

theorem previous_locate (he : e ∈ events false t) (hentry : e.kind.isEntry = true)
    (hstart : e.start < n) (hstop : n ≤ e.stop) : (locate t n).previous = some e.passed :=
  previous_walk (ordered_events false t) he hentry hstart hstop

/-- A key or a value of the document begins there. -/
def EntryAt (t : Text) (start : ℕ) : Prop :=
  ∃ e ∈ events false t, e.kind.isEntry = true ∧ e.start = start

theorem entryAt_iff {start : ℕ} : EntryAt t start ↔
    (events false t).any (fun e => e.kind.isEntry && decide (e.start = start)) = true := by
  rw [List.any_eq_true]
  refine exists_congr fun e => and_congr_right fun _ => ?_
  rw [Bool.and_eq_true, decide_eq_true_eq]

instance (t : Text) (start : ℕ) : Decidable (EntryAt t start) := decidable_of_iff' _ entryAt_iff

/-- In a document without faults each string is a key or a value. -/
theorem Faultless.entryAt (h : Faultless t) {tok : Token} (htok : tok ∈ tokens t)
    (hstring : tok.kind = .string) : EntryAt t tok.start :=
  h.run_steps.1.exists_entry (mem_steps [] htok hstring) hstring

/-- A key or value that begins with a quote is as long as the string that is read there. -/
theorem length_entry (he : e ∈ events false t) (hentry : e.kind.isEntry = true) {s : Text}
    (hs : t.drop e.start = Quoted.quote :: s) : e.length = (stringBody s).length + 1 := by
  obtain ⟨toks, hsub, htrace⟩ := trace_events false t
  obtain ⟨tok, htok, heq, hfits⟩ := htrace.exists_token_of_entry he hentry
  obtain ⟨c, r, hdrop, -, hlength, -⟩ := isLexeme_of_mem_tokensFrom t.drop_zero tok
    (hsub.subset htok) (hfits.ne_done hentry)
  rw [heq] at hs ⊢
  obtain ⟨rfl, rfl⟩ := List.cons.inj (hdrop.symm.trans hs)
  exact hlength

end any

end Json
end Scopewright
