import Scopewright.Proofs.Cursor.Frames
import Scopewright.Proofs.Document.Plist

/-! # The way to a value of a property list

In a dictionary the key that waits is the one that the tree has for the next value, and in an array
the place is that of the next item (`exists_entry`, `exists_item`).  So the steps of the open elements
lead from the root of the tree to the values that are open (`Placed`, `exists_place`), and to no other
(`exists_steps_iff`).  They are the path of a cursor in the character data of a scalar
(`resolve_path_iff`), unless that data is taken as it stands and has what would be a reference to a
number that is too large (`resolve_path_section`). -/

namespace Scopewright
namespace Cursor
namespace Markup

open Document (isValue areEntries areItems plistNode plistMembers plistItems isPropertyList listValue?
  placesOfMembers placesOfItems)
open Scopewright.Markup (Node Element Open Builder opens elementsOf contentOf nodes levelOf Encloses
  InData construct dataPiece exists_pieces_take grows_nodes Reference.read
  Reference.readStrict)

/-! ### Frames and entries -/

section frames

variable {f : Frame} {n : Node} {e : Element}

theorem contentOf_eq_dataAmong {ns : List Node} (h : elementsOf ns = []) :
    contentOf ns = dataAmong ns := by
  induction ns with
  | nil => rfl
  | cons n ns ih =>
      cases n with
      | data t => rw [contentOf, dataAmong, ih h]; rfl
      | element name span children => cases h

theorem segmentIn_plist {name : Text} (hf : f.name = "plist") :
    segmentIn true (some f) name = none := by
  have hdict : f.name ≠ Text.ofString "dict" := ne_of_eq_of_ne hf (by decide)
  have harray : f.name ≠ Text.ofString "array" := ne_of_eq_of_ne hf (by decide)
  simp [segmentIn, hdict, harray]

theorem segmentIn_dict {name : Text} (hf : f.name = "dict") (hname : name ≠ "key") :
    segmentIn true (some f) name = some (.key (f.pending.getD [])) := by
  simp [segmentIn, hf, hname]

theorem segmentIn_array (name : Text) (hf : f.name = "array") :
    segmentIn true (some f) name = some (.index f.index) := by
  have hdict : f.name ≠ Text.ofString "dict" := ne_of_eq_of_ne hf (by decide)
  simp only [segmentIn, hdict, false_and, Bool.not_true, Bool.false_eq_true, if_false, if_pos hf]

theorem meet_data (hf : f.name ≠ "key") (hn : n.element? = none) : f.meet n = f := by
  cases n with
  | data t => exact if_neg hf
  | element name span children => cases hn

theorem meet_key (hf : f.name = "dict") (hn : n.element? = some e) (hkey : e.name = "key")
    (hdata : e.elements = []) : (f.meet n).pending = some e.textContent.trim := by
  rw [Document.eq_ofElement hn, Document.ofElement, Frame.meet, Frame.closeInner,
    if_pos hf, if_pos hkey, Element.textContent, contentOf_eq_dataAmong hdata]

theorem meet_value (hf : f.name = "dict") (hn : n.element? = some e) (hkey : e.name ≠ "key") :
    (f.meet n).pending = none := by
  rw [Document.eq_ofElement hn, Document.ofElement, Frame.meet, Frame.closeInner,
    if_pos hf, if_neg hkey]

theorem meet_item (hf : f.name = "array") (hn : n.element? = some e) :
    (f.meet n).index = f.index + 1 := by
  have hdict : f.name ≠ Text.ofString "dict" := ne_of_eq_of_ne hf (by decide)
  rw [Document.eq_ofElement hn, Document.ofElement, Frame.meet, Frame.closeInner,
    if_neg hdict, if_pos hf]

/-- The frame of a dictionary has the key of the value that follows. -/
theorem exists_entry {pre post : List Node} (hf : f.name = "dict") {pending : Option Document.Key}
    (hpending : f.pending = pending.map (·.name))
    (h : areEntries pending.isSome (pre ++ n :: post) = true) (hn : n.element? = some e)
    (hkey : e.name ≠ "key") :
    ∃ k v, (pre.foldl Frame.meet f).pending = some k.name ∧ isValue n = true ∧
      plistNode n = some v ∧ (k, v) ∈ plistMembers pending (pre ++ n :: post) := by
  induction pre generalizing f pending with
  | nil =>
      cases pending with
      | none => exact absurd ((Document.areEntries_key hn).mp h).1 hkey
      | some k =>
          obtain ⟨hvalue, -⟩ := (Document.areEntries_value hn).mp h
          obtain ⟨e', v, -, -, hv⟩ := Document.exists_of_isValue hvalue
          refine ⟨k, v, hpending, hvalue, hv, ?_⟩
          rw [List.nil_append, Document.plistMembers_value hn hkey hv]
          exact List.mem_cons_self
  | cons m pre ih =>
      have hmeet : (f.meet m).name = Text.ofString "dict" := (name_meet m).trans hf
      rw [List.cons_append] at h ⊢
      cases hm : m.element? with
      | none =>
          rw [Document.areEntries_data hm] at h
          rw [Document.plistMembers_data hm, List.foldl_cons,
            meet_data (by rw [hf]; decide) hm]
          exact ih hf hpending h
      | some d =>
          cases pending with
          | none =>
              obtain ⟨hd, hdata, h⟩ := (Document.areEntries_key hm).mp h
              rw [Document.plistMembers_key hm hd]
              exact ih hmeet (meet_key hf hm hd hdata) h
          | some k =>
              obtain ⟨hvalue, h⟩ := (Document.areEntries_value hm).mp h
              obtain ⟨d', w, hm', hd, hw⟩ := Document.exists_of_isValue hvalue
              have hnone : (f.meet m).pending = (none : Option Document.Key).map (·.name) :=
                meet_value hf hm' hd
              obtain ⟨k', v, hk, hv, hnode, hmem⟩ := ih hmeet hnone h
              rw [Document.plistMembers_value hm' hd hw]
              exact ⟨k', v, hk, hv, hnode, List.mem_cons_of_mem _ hmem⟩

/-- The frame of an array has the place of the item that follows. -/
theorem exists_item {pre post : List Node} (hf : f.name = "array")
    (h : areItems (pre ++ n :: post) = true) (hn : n.element? = some e) :
    ∃ j v, (pre.foldl Frame.meet f).index = f.index + j ∧ isValue n = true ∧
      plistNode n = some v ∧ (plistItems (pre ++ n :: post))[j]? = some v := by
  induction pre generalizing f with
  | nil =>
      rw [List.nil_append, areItems, hn] at h
      have hvalue : isValue n = true := (Bool.and_eq_true_iff.mp h).1
      obtain ⟨e', v, -, -, hv⟩ := Document.exists_of_isValue hvalue
      refine ⟨0, v, rfl, hvalue, hv, ?_⟩
      rw [List.nil_append, plistItems, hv]
      rfl
  | cons m pre ih =>
      have hmeet : (f.meet m).name = Text.ofString "array" := (name_meet m).trans hf
      rw [List.cons_append, areItems, Bool.and_eq_true] at h
      obtain ⟨j, v, hj, hvalue, hv, hitem⟩ := ih hmeet h.2
      rw [List.foldl_cons, hj, List.cons_append, plistItems]
      cases hm : m.element? with
      | none =>
          have hnone : plistNode m = none := by
            cases m with
            | data t => rfl
            | element name span children => cases hm
          rw [meet_data (by rw [hf]; decide) hm, hnone]
          exact ⟨j, v, rfl, hvalue, hv, hitem⟩
      | some d =>
          rw [hm] at h
          obtain ⟨d', w, -, -, hw⟩ := Document.exists_of_isValue h.1
          rw [meet_item hf hm, hw]
          exact ⟨j + 1, v, by omega, hvalue, hv, hitem⟩

end frames

/-! ### Open elements and nodes -/

/-- The steps that open elements add to the path, the outermost first. -/
def stepsOf (os : List Open) : Path := (framesOf os).reverse.filterMap (·.segment)

theorem stepsOf_cons (o : Open) (os : List Open) :
    stepsOf (o :: os) = stepsOf os ++ (segmentIn true (framesOf os).head? o.name).toList := by
  rw [stepsOf, framesOf, List.reverse_cons, List.filterMap_append, ← segment_frameOf _ o]
  cases hsegment : (frameOf (framesOf os).head? o).segment with
  | none => rw [List.filterMap_cons_none hsegment]; rfl
  | some s => rw [List.filterMap_cons_some hsegment]; rfl

/-- Where the innermost of some open elements is in a property list whose value has the node `root`,
when `inner` stands inside of it in the end: in front of the value, in a key, or it is a value itself
and has the node to which its steps lead. -/
inductive Placed (root : Document.Node) : List Open → List Node → Prop
  | document {document : List Node} {e : Element} (hlist : listValue? document = some e)
      (hvalue : isValue (Document.ofElement e) = true)
      (hroot : plistNode (Document.ofElement e) = some root) : Placed root [] document
  | list {o : Open} {inner : List Node} {e : Element} (hname : o.name = "plist")
      (helements : elementsOf inner = [e]) (hvalue : isValue (Document.ofElement e) = true)
      (hroot : plistNode (Document.ofElement e) = some root) : Placed root [o] inner
  | key {o : Open} {os : List Open} {inner : List Node} (hname : o.name = "key")
      (helements : elementsOf inner = []) : Placed root (o :: os) inner
  | value {o : Open} {os : List Open} {inner : List Node} {stop : ℤ} {v : Document.Node}
      (hvalue : isValue (.element o.name ⟨o.start, stop⟩ inner) = true)
      (hnode : plistNode (.element o.name ⟨o.start, stop⟩ inner) = some v)
      (hplace : (stepsOf (o :: os), v) ∈ root.places) : Placed root (o :: os) inner

section placed

variable {root : Document.Node} {outside pre more inner : List Node} {o : Open} {os : List Open}
  {stop : ℤ}

/-- The only element among nodes. -/
theorem elementsOf_eq_singleton {e : Element}
    (h : elementsOf (pre ++ .element o.name ⟨o.start, stop⟩ inner :: more) = [e]) :
    e = ⟨o.name, ⟨o.start, stop⟩, inner⟩ := by
  have hmem : (⟨o.name, ⟨o.start, stop⟩, inner⟩ : Element) ∈
      elementsOf (pre ++ .element o.name ⟨o.start, stop⟩ inner :: more) :=
    List.mem_filterMap.mpr ⟨_, List.mem_append_right _ List.mem_cons_self, rfl⟩
  rw [h] at hmem
  exact (List.mem_singleton.mp hmem).symm

theorem elementsOf_ne_nil :
    elementsOf (pre ++ .element o.name ⟨o.start, stop⟩ inner :: more) ≠ [] :=
  List.ne_nil_of_mem (List.mem_filterMap.mpr ⟨_, List.mem_append_right _ List.mem_cons_self, rfl⟩)

/-- The steps lead on from the innermost of open elements as its frame has them. -/
theorem stepsOf_inside {o' : Open} {os' : List Open} {s : Segment}
    (hsegment : segmentIn true (some (frameOf (framesOf os').head? o')) o.name = some s) :
    stepsOf (o :: o' :: os') = stepsOf (o' :: os') ++ [s] := by
  rw [stepsOf_cons, framesOf, List.head?_cons, hsegment]
  rfl

/-- An element inside the innermost of open elements is placed where its steps lead. -/
theorem Placed.cons
    (h : Placed root os (levelOf outside os ++ .element o.name ⟨o.start, stop⟩ inner :: more)) :
    Placed root (o :: os) inner := by
  cases h with
  | @document _ e hlist hvalue hroot =>
      have hsteps : stepsOf [o] = [] := stepsOf_cons o []
      rcases Document.listValue_cases hlist with ⟨helements, -⟩ | ⟨top, helements, hname, helement⟩
      · rw [elementsOf_eq_singleton helements] at hvalue hroot
        exact .value hvalue hroot (hsteps ▸ Document.self_mem_places root)
      · rw [elementsOf_eq_singleton helements] at hname helement
        exact .list hname helement hvalue hroot
  | @list o' _ e hname helements hvalue hroot =>
      rw [elementsOf_eq_singleton helements] at hvalue hroot
      have hsteps : stepsOf [o, o'] = [] := by
        rw [stepsOf_cons, framesOf, List.head?_cons,
          segmentIn_plist ((name_frameOf _ _).trans hname)]
        exact congrArg (· ++ []) (stepsOf_cons o' [])
      exact .value hvalue hroot (hsteps ▸ Document.self_mem_places root)
  | key hname helements => exact absurd helements elementsOf_ne_nil
  | @value o' os' _ stop' v hvalue hnode hplace =>
      let frame := frameOf (framesOf os').head? o'
      let begun : Frame := ⟨o'.name, segmentIn true (framesOf os').head? o'.name, [], none, 0, []⟩
      have hframe : frame.name = o'.name := name_frameOf _ _
      rcases Document.isValue_element hvalue with ⟨hname, h⟩ | ⟨hname, h⟩ | ⟨-, h⟩
      · by_cases hkey : o.name = Text.ofString "key"
        · exact .key hkey (Document.elements_key h rfl hkey)
        · have hbegun : begun.name = Text.ofString "dict" := hname
          have hnone : begun.pending = (none : Option Document.Key).map (·.name) := rfl
          obtain ⟨k, w, hk, hvalue, hw, hmem⟩ := exists_entry hbegun hnone h rfl hkey
          have hpending : frame.pending = some k.name := hk
          have hsteps := stepsOf_inside (segmentIn_dict (hframe.trans hname) hkey)
          rw [hpending] at hsteps
          rw [Document.plistNode_dict hname] at hnode
          rw [← Option.some.inj hnode] at hplace
          exact .value hvalue hw (hsteps ▸ Document.places_trans root hplace
            (List.mem_cons_of_mem _
              (Document.mem_placesOfMembers hmem (Document.self_mem_places w))))
      · have hbegun : begun.name = Text.ofString "array" := hname
        obtain ⟨j, w, hj, hvalue, hw, hitem⟩ := exists_item hbegun h rfl
        have hindex : frame.index = 0 + j := hj
        have hsteps := stepsOf_inside (segmentIn_array o.name (hframe.trans hname))
        rw [hindex] at hsteps
        rw [Document.plistNode_array hname] at hnode
        rw [← Option.some.inj hnode] at hplace
        exact .value hvalue hw (hsteps ▸ Document.places_trans root hplace
          (List.mem_cons_of_mem _
            (Document.mem_placesOfItems hitem (Document.self_mem_places w))))
      · exact absurd h elementsOf_ne_nil

/-- In a property list every open element is placed. -/
theorem Placed.of_encloses {document : List Node} (hdocument : Placed root [] document)
    (h : Encloses outside os inner document) : Placed root os inner := by
  induction os generalizing inner with
  | nil => exact h.symm ▸ hdocument
  | cons o os ih =>
      obtain ⟨stop, more, h⟩ := h
      exact (ih h).cons

end placed

/-! ### The cursor in a scalar -/

/-- The innermost element that is open at a place: its name, and where it begins. -/
def innermost? (t : Text) (n : ℕ) : Option (Text × ℕ) :=
  (opens (t.take n)).head?.map fun o => (o.name, o.start)

/-- The place `n` of a text is in the character data of a scalar, whose element begins at `start`. -/
structure InScalar (t : Text) (n start : ℕ) : Prop where
  inData : InData 0 t n
  innermost : ∃ name ∈ valueNames, innermost? t n = some (name, start)

section scalar

variable {t : Text} {n : ℕ} {o : Open} {os : List Open}

theorem InScalar.exists_open {start : ℕ} (h : InScalar t n start) :
    ∃ o os, opens (t.take n) = o :: os ∧ o.name ∈ valueNames ∧ o.start = start := by
  obtain ⟨name, hname, hinnermost⟩ := h.innermost
  obtain ⟨o, hhead, ho⟩ := Option.map_eq_some_iff.mp hinnermost
  obtain ⟨os, hopens⟩ := List.head?_eq_some_iff.mp hhead
  obtain ⟨rfl, rfl⟩ := Prod.mk.inj ho
  exact ⟨o, os, hopens, hname, rfl⟩

/-- Character data that is cut off stands inside the innermost element. -/
theorem stack_dataPiece {b : Builder} {data : Text} {j : ℕ}
    (h : ((dataPiece data j).foldl Builder.read b).stack = o :: os) :
    ∃ reversed, b.stack = { o with reversed := reversed } :: os := by
  unfold dataPiece at h
  split at h
  · exact ⟨o.reversed, h⟩
  · have hadd : (b.add (.data (Reference.readStrict data.reverse))).stack = o :: os := h
    unfold Builder.add at hadd
    cases hstack : b.stack with
    | nil => simp [hstack] at hadd
    | cons o' os' =>
        simp only [hstack, List.cons.injEq] at hadd
        rw [← hadd.1, ← hadd.2]
        exact ⟨o'.reversed, rfl⟩

/-- A scalar that is open at the cursor has a node, to which the steps of the open elements lead. -/
theorem exists_place {root : Document.Node} (hdocument : Placed root [] (nodes t))
    (hdata : InData 0 t n) (hopens : opens (t.take n) = o :: os) (hname : o.name ∈ valueNames) :
    ∃ stop value, (stepsOf (o :: os), .scalar ⟨o.start, stop⟩ value) ∈ root.places := by
  obtain ⟨ps, data, j, qs, hfront, hwhole⟩ := exists_pieces_take hdata []
  have hcut : ((dataPiece data j).foldl Builder.read (ps.foldl Builder.read .start)).stack =
      o :: os := by
    rw [← List.foldl_append, ← hfront]
    exact hopens
  obtain ⟨reversed, hstack⟩ := stack_dataPiece hcut
  obtain ⟨more, hgrows⟩ := grows_nodes hwhole
  rw [hstack] at hgrows
  have hsteps : stepsOf ({ o with reversed := reversed } :: os) = stepsOf (o :: os) :=
    (stepsOf_cons _ os).trans (stepsOf_cons o os).symm
  cases hdocument.of_encloses hgrows with
  | list hlist =>
      have hlist : o.name = Text.ofString "plist" := hlist
      rw [hlist] at hname
      exact absurd hname (by decide)
  | key hkey =>
      have hkey : o.name = Text.ofString "key" := hkey
      rw [hkey] at hname
      exact absurd hname (by decide)
  | @value _ _ _ stop v hvalue hnode hplace =>
      obtain ⟨value, hscalar⟩ := Document.plistNode_scalar hname
      have hv : _ = some v := hnode
      rw [hscalar] at hv
      rw [← Option.some.inj hv, hsteps] at hplace
      exact ⟨stop, value, hplace⟩

/-- In a property list the node of a scalar that is open at the cursor, which is the one that begins
where the open element does, is found by the steps of the open elements and by no others. -/
theorem exists_steps_iff {start : ℕ} (h : isPropertyList t = true) (hcursor : InScalar t n start) :
    ∃ root, (Document.plistTree t).root = some root ∧ ∀ p,
      (∃ span value, (p, .scalar span value) ∈ root.places ∧ span.start = (start : ℤ)) ↔
        p = stepsOf (opens (t.take n)) := by
  obtain ⟨o, os, hopens, hname, rfl⟩ := hcursor.exists_open
  obtain ⟨e, hlist, hvalue⟩ := (Option.any_eq_true _ _).mp h
  obtain ⟨-, root, -, -, hroot⟩ := Document.exists_of_isValue hvalue
  have hdocument : Placed root [] (nodes t) := .document hlist hvalue hroot
  obtain ⟨stop, value, hplace⟩ := exists_place hdocument hcursor.inData hopens hname
  refine ⟨root, (Document.root_plistTree hlist).trans hroot, fun p => ?_⟩
  rw [hopens]
  constructor
  · rintro ⟨span, value', hp, hstart⟩
    have hnodup := Document.places_start_nodup hlist hvalue hroot
    exact congrArg Prod.fst (List.inj_on_of_nodup_map hnodup hp hplace hstart)
  · rintro rfl
    exact ⟨_, value, hplace, rfl⟩

/-- The path of a cursor in a scalar has the steps of the open elements. -/
theorem path_resolve {start : ℕ} (hcursor : InScalar t n start)
    (hread : (Before.of (t.take n)).inTag = true ∨
      ∃ v, Reference.read (Before.of (t.take n)).data = .ok v) :
    (resolve true t n).path = stepsOf (opens (t.take n)) := by
  obtain ⟨o, os, hopens, hname, rfl⟩ := hcursor.exists_open
  have hkey : (frameOf (framesOf os).head? o).name ≠ "key" := by
    rw [name_frameOf]
    rintro hkey
    rw [hkey] at hname
    exact absurd hname (by decide)
  have hvalue : valueNames.contains (frameOf (framesOf os).head? o).name = true := by
    rw [name_frameOf, List.contains_iff_mem]
    exact hname
  unfold resolve resolve?
  rw [openAt_eq_framesOf, hopens]
  simp only [framesOf]
  by_cases htag : (Before.of (t.take n)).inTag = true
  · rw [if_pos htag]
    rfl
  · obtain ⟨v, hv⟩ := hread.resolve_left htag
    rw [if_neg htag, if_pos trivial, resolvePlist, if_neg hkey, if_pos hvalue, hv]
    rfl

/-- **Scalars.**  In a property list the path of a cursor in a scalar is the way to its node, which is
the one that begins where the open element does, unless the data in front of the cursor cannot be
read. -/
theorem resolve_path_iff {start : ℕ} (h : isPropertyList t = true) (hcursor : InScalar t n start)
    (hread : (Before.of (t.take n)).inTag = true ∨
      ∃ v, Reference.read (Before.of (t.take n)).data = .ok v) :
    ∃ root, (Document.plistTree t).root = some root ∧ ∀ p,
      (∃ span value, (p, .scalar span value) ∈ root.places ∧ span.start = (start : ℤ)) ↔
        p = (resolve true t n).path := by
  rw [path_resolve hcursor hread]
  exact exists_steps_iff h hcursor

/-- The way to the second item of the array under a key. -/
theorem resolve_path_iff_item :
    let t := Text.ofString "<dict><key>a</key><array><true/><string>x</string></array></dict>"
    isPropertyList t = true ∧ InScalar t 41 32 ∧ (resolve true t 41).path = [.key "a", .index 1] ∧
      ∃ root, (Document.plistTree t).root = some root ∧ ∀ p,
        (∃ span value, (p, .scalar span value) ∈ root.places ∧ span.start = 32) ↔
          p = (resolve true t 41).path := by
  intro t
  have hlist : isPropertyList t = true := by decide +kernel
  have hdict : construct 1 (t.drop 1) = .piece (.opening "dict") 4 5 := rfl
  have hkey : construct 7 (t.drop 7) = .piece (.opening "key") 3 4 := rfl
  have hkeyEnd : construct 13 (t.drop 13) = .piece (.closing "key") 4 5 := rfl
  have harray : construct 19 (t.drop 19) = .piece (.opening "array") 5 6 := rfl
  have htrue : construct 26 (t.drop 26) = .piece (.empty "true") 5 6 := rfl
  have hstring : construct 33 (t.drop 33) = .piece (.opening "string") 6 7 := rfl
  have hdata : InData 0 t 41 :=
    .markup hdict (.markup hkey (.unit (by decide) (.markup hkeyEnd (.markup harray
      (.markup htrue (.markup hstring (.unit (by decide) (.here _ _))))))))
  have hcursor : InScalar t 41 32 := ⟨hdata, "string", by decide, by decide +kernel⟩
  have hread : ∃ v, Reference.read (Before.of (t.take 41)).data = .ok v := ⟨"x", rfl⟩
  exact ⟨hlist, hcursor, by decide +kernel, resolve_path_iff hlist hcursor (.inr hread)⟩

/-- In a section that is taken as it stands `&#1114112;` is no reference, but the data in front of the
cursor is read as if it were one, and the path to the item is lost. -/
theorem resolve_path_section :
    let t := Text.ofString "<array><string><![CDATA[>&#1114112;]]></string></array>"
    isPropertyList t = true ∧ InScalar t 35 7 ∧ (resolve true t 35).path = [] ∧
      ∃ root, (Document.plistTree t).root = some root ∧
        ∃ span value, ([.index 0], .scalar span value) ∈ root.places ∧
          span.start = 7 := by
  intro t
  have hlist : isPropertyList t = true := by decide +kernel
  have harray : construct 1 (t.drop 1) = .piece (.opening "array") 5 6 := rfl
  have hstring : construct 8 (t.drop 8) = .piece (.opening "string") 6 7 := rfl
  have hsection : construct 16 (t.drop 16) = .piece (.text ">&#1114112;") 21 22 := rfl
  have hdata : InData 0 t 35 :=
    .markup harray (.markup hstring (.within (n := 19) hsection (by decide) (by decide)))
  have hcursor : InScalar t 35 7 := ⟨hdata, "string", by decide, by decide +kernel⟩
  obtain ⟨root, hroot, hsteps⟩ := exists_steps_iff hlist hcursor
  have hitem : [.index 0] = stepsOf (opens (t.take 35)) := by decide +kernel
  exact ⟨hlist, hcursor, by decide +kernel, root, hroot, (hsteps _).mpr hitem⟩

end scalar

end Markup
end Cursor
end Scopewright
