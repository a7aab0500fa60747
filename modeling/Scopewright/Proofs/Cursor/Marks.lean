import Mathlib.Data.List.Find
import Scopewright.Cursor.Markup
import Scopewright.Proofs.Markup.Content

/-! # Keys behind a cursor

The keys behind a cursor are found by the tags of collections and keys alone, wherever in the text they
stand, so markup that is something else must not look like one of them (`silent`), and these tags must
look like what they are (`IsMark`).  Where that is so (`Told`), the keys that are found in well-formed
content are those of its key elements (`followingKeys_reads`). -/

namespace Scopewright
namespace Cursor
namespace Markup

open Scopewright.Markup (Node Element elementsOf AreNodes Source Reads Level Levels PieceKind Ends
  construct construct_ends construct_complete dataOf? Reference.read Reference.readStrict
  Reference.OutOfRange)

section mark

variable {t u rest : Text} {m : Mark}

theorem isPrefix_append_iff {name : Text} {c : CodeUnit} (hu : c ∈ u) (hname : c ∉ name) :
    name <+: u ++ rest ↔ name <+: u := by
  refine ⟨fun h => ?_, fun h => h.trans (List.prefix_append u rest)⟩
  rcases List.prefix_or_prefix_of_prefix h (List.prefix_append u rest) with h | h
  · exact h
  · exact absurd (h.subset hu) hname

theorem notMem_of_markNames : ∀ name ∈ markNames, CodeUnit.ofBasic '>' ∉ name := by decide

/-- The name of a tag stands in front of its `>`. -/
theorem find_markNames_append (hu : CodeUnit.ofBasic '>' ∈ u) (rest : Text) :
    markNames.find? (fun name => name.isPrefixOf (u ++ rest)) =
      markNames.find? fun name => name.isPrefixOf u := by
  refine List.find?_congr fun name hname => ?_
  rw [Bool.eq_iff_iff, List.isPrefixOf_iff_prefix, List.isPrefixOf_iff_prefix]
  exact isPrefix_append_iff hu (notMem_of_markNames name hname)

/-- The tag whose name stands in front of a text, `lead` units behind the `<`. -/
def named? (isClosing : Bool) (lead : ℕ) (body : Text) : Option Mark :=
  match markNames.find? fun name => name.isPrefixOf body with
  | none => none
  | some name =>
    let rest := body.drop name.length
    if rest.head?.any CodeUnit.isWord then none
    else match rest.findIdx? (· = CodeUnit.ofBasic '>') with
      | none => none
      | some k =>
        some ⟨isClosing, decide (name = "key"),
          (rest.take k).getLast? = some (CodeUnit.ofBasic '/'), lead + name.length + k + 1⟩

theorem mark?_eq (t : Text) : mark? t =
    if t.head? = some (CodeUnit.ofBasic '/') then named? true 1 (t.drop 1) else named? false 0 t := by
  unfold mark?
  split
  · rename_i h
    simp only [h, decide_true, if_true]
    rfl
  · rename_i h
    simp only [h, decide_false, if_false]
    rfl

theorem named?_append (hu : CodeUnit.ofBasic '>' ∈ u) (rest : Text) (isClosing : Bool) (lead : ℕ) :
    named? isClosing lead (u ++ rest) = named? isClosing lead u := by
  unfold named?
  rw [find_markNames_append hu]
  cases hfind : markNames.find? fun name => name.isPrefixOf u with
  | none => rfl
  | some name =>
      have hname := List.find?_some hfind
      obtain ⟨w, rfl⟩ := List.isPrefixOf_iff_prefix.mp hname
      have hw : CodeUnit.ofBasic '>' ∈ w := (List.mem_append.mp hu).resolve_left
        (notMem_of_markNames name (List.mem_of_find?_eq_some hfind))
      simp only [List.append_assoc, List.drop_left]
      have hhead : (w ++ rest).head? = w.head? := List.head?_append_of_ne_nil _ (List.ne_nil_of_mem hw)
      obtain ⟨k, hk⟩ : ∃ k, w.findIdx? (· = CodeUnit.ofBasic '>') = some k := by
        rw [← Option.isSome_iff_exists, List.findIdx?_isSome, List.any_eq_true]
        exact ⟨_, hw, decide_eq_true rfl⟩
      have hlt := Text.findIdx_lt hk
      rw [hhead, List.findIdx?_append, hk, Option.some_or]
      simp only [List.take_append_of_le_length (Nat.le_of_lt hlt)]

/-- A tag is told by what stands up to its `>`. -/
theorem mark?_append (hu : CodeUnit.ofBasic '>' ∈ u) (rest : Text) : mark? (u ++ rest) = mark? u := by
  rw [mark?_eq, mark?_eq, List.head?_append_of_ne_nil _ (List.ne_nil_of_mem hu)]
  split
  · rename_i hhead
    obtain ⟨v, rfl⟩ := List.head?_eq_some_iff.mp hhead
    exact named?_append ((List.mem_cons.mp hu).resolve_left (by decide)) rest true 1
  · exact named?_append hu rest false 0

theorem length_named?_le {isClosing : Bool} {lead : ℕ} (h : named? isClosing lead t = some m) :
    m.length ≤ lead + t.length := by
  unfold named? at h
  cases hfind : markNames.find? fun name => name.isPrefixOf t with
  | none => simp [hfind] at h
  | some name =>
      simp only [hfind] at h
      split at h
      · cases h
      · split at h
        · cases h
        · rename_i k hk
          have hlt := Text.findIdx_lt hk
          rw [List.length_drop] at hlt
          rw [← Option.some.inj h]
          show lead + name.length + k + 1 ≤ _
          omega

theorem length_mark?_le (h : mark? t = some m) : m.length ≤ t.length := by
  rw [mark?_eq] at h
  split at h
  · rename_i hhead
    obtain ⟨v, rfl⟩ := List.head?_eq_some_iff.mp hhead
    have hle := length_named?_le h
    rw [List.length_cons, Nat.add_comm]
    exact hle
  · have hle := length_named?_le h
    rwa [Nat.zero_add] at hle

/-! ### The scan -/

/-- No tag of a collection or a key begins in the text, but for empty ones. -/
def silent : Text → Bool
  | [] => true
  | c :: r => (decide (c ≠ '<') || (mark? r).all (·.isEmpty)) && silent r

/-- The units behind a `<` are a tag of a collection or a key, up to the `>` at their end. -/
def IsMark (isClosing isKey : Bool) (units : Text) : Prop :=
  mark? units = some ⟨isClosing, isKey, false, units.length⟩

theorem silent_drop (h : silent t = true) (k : ℕ) : silent (t.drop k) = true := by
  induction t generalizing k with
  | nil => rw [List.drop_nil, silent]
  | cons c r ih =>
      cases k with
      | zero => exact h
      | succ k =>
          rw [silent, Bool.and_eq_true] at h
          exact ih h.2 k

variable {depth : ℕ} {r : Text}

theorem followingKeys_unit {c : CodeUnit} (hc : c ≠ CodeUnit.ofBasic '<') :
    followingKeys depth (c :: r) = followingKeys depth r := by
  rw [followingKeys, if_neg hc]

/-- Silent text is passed over. -/
theorem followingKeys_silent (hsilent : silent (t ++ [CodeUnit.ofBasic '>']) = true) (rest : Text) :
    followingKeys depth (t ++ CodeUnit.ofBasic '>' :: rest) = followingKeys depth rest := by
  induction hlength : t.length using Nat.strong_induction_on generalizing t with
  | _ k ih =>
  cases t with
  | nil => exact followingKeys_unit (by decide)
  | cons c t =>
      rw [List.cons_append, silent, Bool.and_eq_true, Bool.or_eq_true, decide_eq_true_eq] at hsilent
      obtain ⟨hmark, hsilent⟩ := hsilent
      have hrest : followingKeys depth (t ++ CodeUnit.ofBasic '>' :: rest) = followingKeys depth rest :=
        ih t.length (by rw [← hlength, List.length_cons]; omega) hsilent rfl
      by_cases hc : c = CodeUnit.ofBasic '<'
      · have hsame : mark? (t ++ CodeUnit.ofBasic '>' :: rest) =
            mark? (t ++ [CodeUnit.ofBasic '>']) := by
          rw [← mark?_append (List.mem_append_right t (List.mem_singleton_self _)) rest,
            List.append_assoc, List.singleton_append]
        rw [List.cons_append, followingKeys, if_pos hc, hsame]
        cases hm : mark? (t ++ [CodeUnit.ofBasic '>']) with
        | none => exact hrest
        | some m =>
            have hempty : m.isEmpty = true := by
              rw [hm] at hmark
              exact hmark.resolve_left (absurd hc)
            have hle := length_mark?_le hm
            rw [List.length_append, List.length_singleton] at hle
            simp only [hempty, if_true]
            rcases Nat.lt_or_ge t.length m.length with hlt | hle'
            · rw [List.drop_append, List.drop_eq_nil_of_le (Nat.le_of_lt hlt), List.nil_append,
                show m.length - t.length = 1 by omega]
              rfl
            · rw [List.drop_append_of_le_length hle']
              refine ih (t.drop m.length).length ?_ ?_ rfl
              · rw [← hlength, List.length_drop, List.length_cons]
                omega
              · rw [← List.drop_append_of_le_length hle']
                exact silent_drop hsilent _
      · rw [List.cons_append, followingKeys_unit hc, hrest]

/-- A silent tag is passed over. -/
theorem followingKeys_tag {length : ℕ} (hends : Ends r length)
    (hsilent : silent (CodeUnit.ofBasic '<' :: r.take length) = true) :
    followingKeys depth (CodeUnit.ofBasic '<' :: r) = followingKeys depth (r.drop length) := by
  obtain ⟨front, hfront⟩ := hends.take
  have hwhole : CodeUnit.ofBasic '<' :: r =
      (CodeUnit.ofBasic '<' :: front) ++ CodeUnit.ofBasic '>' :: r.drop length := by
    rw [List.cons_append, List.append_cons, ← hfront, List.take_append_drop]
  rw [hwhole]
  refine followingKeys_silent ?_ _
  rw [List.cons_append, ← hfront]
  exact hsilent

/-- A tag of a collection or a key is told by its units. -/
theorem mark?_of_isMark {isClosing isKey : Bool} {length : ℕ} (hends : Ends r length)
    (hlength : length ≤ r.length) (h : IsMark isClosing isKey (r.take length)) :
    mark? r = some ⟨isClosing, isKey, false, length⟩ := by
  have hmem : CodeUnit.ofBasic '>' ∈ r.take length := by
    obtain ⟨front, hfront⟩ := hends.take
    rw [hfront]
    exact List.mem_append_right _ (List.mem_singleton_self _)
  have hmark : mark? r = mark? (r.take length) := by
    rw [← mark?_append hmem (r.drop length), List.take_append_drop]
  rw [hmark, h, List.length_take_of_le hlength]

end mark

/-! ### Well-formed content -/

/-- The key that an element is by the way that it is written. -/
def writtenKey? (e : Text × Option Text) : Option Text :=
  if e.1 = Text.ofString "key" then some (Text.trim (e.2.getD [])) else none

/-- The key that a part of content is. -/
def key? (s : Source) : Option Text := s.element?.bind writtenKey?

/-- The keys that content has, none when it stands inside of another collection. -/
def keysOf (depth : ℕ) (ss : List Source) : List Text :=
  if depth = 0 then ss.filterMap key? else []

mutual

/-- A part of content that stands `depth` collections deep is told by the tags of collections and keys
in it.  A key of the current dictionary ends with the tag that is looked for, and has only character
data, which reads as it does in the document. -/
def Told (depth : ℕ) : Source → Prop
  | .unit _ => True
  | .markup kind units =>
    silent (CodeUnit.ofBasic '<' :: units) = true ∧ (depth = 0 → kind ≠ .empty "key")
  | .element name opening inner closing =>
    if name = "key" then
      IsMark false true opening ∧ AreTold depth inner ∧ IsMark true true closing ∧
        (depth = 0 → CodeUnit.ofBasic '<' :: closing = keyEnd ∧ ∃ u v, dataOf? inner = some u ∧
          Reference.read u = .ok v ∧ Text.trim v = Text.trim (Reference.readStrict u))
    else if name = "dict" ∨ name = "array" then
      IsMark false false opening ∧ AreTold (depth + 1) inner ∧ IsMark true false closing
    else
      silent (CodeUnit.ofBasic '<' :: opening) = true ∧ AreTold depth inner ∧
        inner.filterMap Source.element? = [] ∧ silent (CodeUnit.ofBasic '<' :: closing) = true

/-- All parts of content are told. -/
def AreTold (depth : ℕ) : List Source → Prop
  | [] => True
  | s :: ss => Told depth s ∧ AreTold depth ss

end

section content

variable {depth i j : ℕ} {t rest : Text} {ss : List Source}

theorem keysOf_nil (depth : ℕ) : keysOf depth [] = [] := ite_self _

theorem keysOf_cons_of_none {s : Source} (h : depth = 0 → key? s = none) :
    keysOf depth (s :: ss) = keysOf depth ss := by
  unfold keysOf
  split
  · rename_i hdepth
    exact List.filterMap_cons_none (h hdepth)
  · rfl

theorem keysOf_eq_nil (h : ss.filterMap Source.element? = []) : keysOf depth ss = [] := by
  unfold keysOf
  split
  · rw [List.filterMap_eq_nil_iff] at h ⊢
    intro s hs
    rw [key?, h s hs, Option.bind_none]
  · rfl

/-- Content without markup is its character data. -/
theorem eq_append_of_dataOf (h : Reads i t ss j rest) {u : Text} (hu : dataOf? ss = some u) :
    t = u ++ rest ∧ CodeUnit.ofBasic '<' ∉ u := by
  induction h generalizing u with
  | done =>
      obtain rfl := Option.some.inj hu
      exact ⟨rfl, nofun⟩
  | unit hc _ ih =>
      obtain ⟨u', hu', rfl⟩ := Option.map_eq_some_iff.mp hu
      obtain ⟨rfl, hmem⟩ := ih hu'
      exact ⟨rfl, by rw [List.mem_cons, not_or]; exact ⟨hc.symm, hmem⟩⟩
  | markup => cases hu
  | element => cases hu

/-- The end of a key is found where its character data ends. -/
theorem find_keyEnd {u : Text} (hu : CodeUnit.ofBasic '<' ∉ u) (rest : Text) :
    Text.find? keyEnd (u ++ (keyEnd ++ rest)) = some u.length := by
  have hstands : keyEnd <+: (u ++ (keyEnd ++ rest)).drop u.length := by
    rw [List.drop_left]
    exact List.prefix_append _ _
  obtain ⟨k, hk, hfind⟩ := Text.exists_find hstands
  have hunit : (u ++ (keyEnd ++ rest))[k]? = some (CodeUnit.ofBasic '<') :=
    Scopewright.Markup.getElem_of_find (j := 0) hfind rfl
  rw [hfind]
  refine congrArg some (Nat.le_antisymm hk ?_)
  by_contra hlt
  rw [List.getElem?_append_left (Nat.lt_of_not_le hlt)] at hunit
  exact hu (List.mem_of_getElem? hunit)

section tags

variable {r : Text} {length : ℕ}

theorem followingKeys_opening (h : mark? r = some ⟨false, false, false, length⟩) :
    followingKeys depth (CodeUnit.ofBasic '<' :: r) = followingKeys (depth + 1) (r.drop length) := by
  rw [followingKeys, if_pos rfl, h]
  rfl

theorem followingKeys_closing (h : mark? r = some ⟨true, false, false, length⟩) :
    followingKeys (depth + 1) (CodeUnit.ofBasic '<' :: r) = followingKeys depth (r.drop length) := by
  rw [followingKeys, if_pos rfl, h]
  rfl

/-- The tag that closes the current dictionary ends the search. -/
theorem followingKeys_end (h : mark? r = some ⟨true, false, false, length⟩) :
    followingKeys 0 (CodeUnit.ofBasic '<' :: r) = .ok [] := by
  rw [followingKeys, if_pos rfl, h]
  rfl

/-- Only the opening tags of keys of the current dictionary matter. -/
theorem followingKeys_keyTag {isClosing : Bool} (h : mark? r = some ⟨isClosing, true, false, length⟩)
    (hpassed : isClosing = true ∨ depth ≠ 0) :
    followingKeys depth (CodeUnit.ofBasic '<' :: r) = followingKeys depth (r.drop length) := by
  rw [followingKeys, if_pos rfl, h]
  exact if_pos hpassed

/-- A key of the current dictionary is read up to its end. -/
theorem followingKeys_key (h : mark? r = some ⟨false, true, false, length⟩) {u v : Text}
    (hdata : r.drop length = u ++ (keyEnd ++ rest)) (hu : CodeUnit.ofBasic '<' ∉ u)
    (hv : Reference.read u = .ok v) : followingKeys 0 (CodeUnit.ofBasic '<' :: r) =
      (followingKeys 0 (keyEnd ++ rest)).map ([Text.trim v] ++ ·) := by
  rw [followingKeys, if_pos rfl, h]
  simp only [Bool.false_eq_true, if_false, if_true, ne_eq, not_true_eq_false, or_self, hdata,
    find_keyEnd hu, List.take_left, List.drop_left, hv]
  cases followingKeys 0 (keyEnd ++ rest) <;> rfl

end tags

/-- The keys in front of others that are found. -/
theorem map_append_map {ε : Type} (ks ls : List Text) (x : Except ε (List Text)) :
    (x.map (ls ++ ·)).map (ks ++ ·) = x.map ((ks ++ ls) ++ ·) := by
  cases x with
  | error e => rfl
  | ok v => exact congrArg Except.ok (List.append_assoc _ _ _).symm

theorem map_nil_append {ε : Type} (x : Except ε (List Text)) : x.map ([] ++ ·) = x := by
  cases x <;> rfl

/-- **Following keys.**  In well-formed content that is told the keys of the current dictionary are
found, and what follows. -/
theorem followingKeys_reads (h : Reads i t ss j rest) (htold : AreTold depth ss) :
    followingKeys depth t = (followingKeys depth rest).map (keysOf depth ss ++ ·) := by
  induction h generalizing depth with
  | done i t => rw [keysOf_nil, map_nil_append]
  | unit hc _ ih =>
      rw [followingKeys_unit hc, ih htold.2, keysOf_cons_of_none fun _ => rfl]
  | @markup i j last length r rest kind ss hpiece _ _ ih =>
      obtain ⟨⟨hsilent, hkind⟩, htold⟩ := htold
      have hnone (hdepth : depth = 0) : key? (.markup kind (r.take length)) = none := by
        cases kind with
        | empty name => exact if_neg fun hname => hkind hdepth (congrArg PieceKind.empty hname)
        | _ => rfl
      rw [followingKeys_tag (construct_ends hpiece) hsilent, ih htold, keysOf_cons_of_none hnone]
  | @element i j k last length last' length' r r' rest name inner ss hopen hinner hclose _ ihinner ih =>
      obtain ⟨helement, htold⟩ := htold
      have hlength := (construct_complete hopen).length_le
      have hlength' := (construct_complete hclose).length_le
      by_cases hkey : name = Text.ofString "key"
      · rw [Told, if_pos hkey] at helement
        obtain ⟨hopening, hinnerTold, hclosing, hread⟩ := helement
        have hopening := mark?_of_isMark (construct_ends hopen) hlength hopening
        have hclosing := mark?_of_isMark (construct_ends hclose) hlength' hclosing
        by_cases hdepth : depth = 0
        · subst hdepth
          obtain ⟨hend, u, v, hu, hv, htrim⟩ := hread rfl
          obtain ⟨hdata, hmem⟩ := eq_append_of_dataOf hinner hu
          have hrest : CodeUnit.ofBasic '<' :: r' = keyEnd ++ r'.drop length' := by
            rw [← hend, List.cons_append, List.take_append_drop]
          rw [hrest] at hdata
          have hcons : keysOf 0 (.element name (r.take length) inner (r'.take length') :: ss) =
              [Text.trim v] ++ keysOf 0 ss := by
            rw [htrim]
            refine List.filterMap_cons_some ?_
            rw [key?, Source.element?, hu]
            exact if_pos hkey
          rw [followingKeys_key hopening hdata hmem hv, ← hrest,
            followingKeys_keyTag hclosing (.inl rfl), ih htold, map_append_map, hcons]
        · rw [followingKeys_keyTag hopening (.inr hdepth), ihinner hinnerTold,
            followingKeys_keyTag hclosing (.inl rfl), ih htold, map_append_map]
          simp only [keysOf, if_neg hdepth, List.append_nil]
      · have hcons : keysOf depth (.element name (r.take length) inner (r'.take length') :: ss) =
            keysOf depth ss := keysOf_cons_of_none fun _ => if_neg hkey
        rw [Told, if_neg hkey] at helement
        rw [hcons]
        split at helement
        · obtain ⟨hopening, hinnerTold, hclosing⟩ := helement
          have hopening := mark?_of_isMark (construct_ends hopen) hlength hopening
          have hclosing := mark?_of_isMark (construct_ends hclose) hlength' hclosing
          have hnone : keysOf (depth + 1) inner = [] := if_neg (Nat.succ_ne_zero depth)
          rw [followingKeys_opening hopening, ihinner hinnerTold, hnone, map_nil_append,
            followingKeys_closing hclosing, ih htold]
        · obtain ⟨hopening, hinnerTold, hnone, hclosing⟩ := helement
          rw [followingKeys_tag (construct_ends hopen) hopening, ihinner hinnerTold,
            keysOf_eq_nil hnone, map_nil_append,
            followingKeys_tag (construct_ends hclose) hclosing, ih htold]

/-- What is left of some open elements is told, up to the end of the innermost dictionary. -/
def AreToldLevels : List Level → Prop
  | [] => False
  | l :: ls =>
    AreTold 0 l.inner ∧
      if l.name = "dict" then IsMark true false l.closing
      else IsMark true true l.closing ∧ AreToldLevels ls

/-- The keys behind a place, up to the end of the innermost dictionary. -/
def keysOfLevels : List Level → List Text
  | [] => []
  | l :: ls => keysOf 0 l.inner ++ if l.name = "dict" then [] else keysOfLevels ls

/-- The keys behind a place are found when what is left of the current dictionary is told. -/
theorem followingKeys_levels {ls : List Level} (h : Levels ls i t) (htold : AreToldLevels ls) :
    followingKeys 0 t = .ok (keysOfLevels ls) := by
  induction h with
  | outside => cases htold
  | @inside i k last length t r name inner ls hinner hclose _ ih =>
      obtain ⟨hinnerTold, htold⟩ := htold
      have hlength := (construct_complete hclose).length_le
      rw [followingKeys_reads hinner hinnerTold]
      by_cases hname : name = Text.ofString "dict"
      · rw [if_pos hname] at htold
        rw [followingKeys_end (mark?_of_isMark (construct_ends hclose) hlength htold), keysOfLevels,
          if_pos hname]
        rfl
      · rw [if_neg hname] at htold
        rw [followingKeys_keyTag (mark?_of_isMark (construct_ends hclose) hlength htold.1) (.inl rfl),
          ih htold.2, keysOfLevels, if_neg hname]
        rfl

end content

/-! ### Keys among nodes -/

/-- The key that an element is. -/
def elementKey? (e : Element) : Option Text :=
  if e.name = Text.ofString "key" then some (Text.trim e.textContent) else none

/-- The keys that are among nodes. -/
def keysAmong (ns : List Node) : List Text := (elementsOf ns).filterMap elementKey?

theorem keysAmong_data {n : Node} (hn : n.element? = none) (ns : List Node) :
    keysAmong (n :: ns) = keysAmong ns :=
  congrArg (List.filterMap elementKey?) (List.filterMap_cons_none hn)

theorem keysAmong_element {n : Node} {e : Element} (hn : n.element? = some e) (ns : List Node) :
    keysAmong (n :: ns) = (elementKey? e).toList ++ keysAmong ns := by
  have helements : elementsOf (n :: ns) = e :: elementsOf ns := List.filterMap_cons_some hn
  rw [keysAmong, helements, List.filterMap_cons]
  cases elementKey? e <;> rfl

theorem keysAmong_append (ns ms : List Node) :
    keysAmong (ns ++ ms) = keysAmong ns ++ keysAmong ms := by
  rw [keysAmong, elementsOf, List.filterMap_append, List.filterMap_append]
  rfl

theorem keysAmong_eq_nil {ns : List Node} (h : elementsOf ns = []) : keysAmong ns = [] := by
  rw [keysAmong, h, List.filterMap_nil]

theorem exists_data_of_told {ss : List Source} (h : AreTold 0 ss) {e : Text × Option Text}
    (he : e ∈ ss.filterMap Source.element?) (hkey : e.1 = Text.ofString "key") :
    ∃ d, e.2 = some d := by
  obtain ⟨s, hs, helement⟩ := List.mem_filterMap.mp he
  induction ss with
  | nil => cases hs
  | cons s' ss ih =>
      rcases List.mem_cons.mp hs with rfl | hs
      · cases s with
        | unit => cases helement
        | markup kind units =>
            cases kind with
            | empty name => exact ⟨[], by rw [← Option.some.inj helement]⟩
            | _ => cases helement
        | element name opening inner closing =>
            rw [← Option.some.inj helement] at hkey ⊢
            have htold := h.1
            rw [Told, if_pos hkey] at htold
            obtain ⟨-, -, -, hread⟩ := htold
            obtain ⟨-, u, -, hu, -⟩ := hread rfl
            exact ⟨_, by rw [hu]; rfl⟩
      · exact ih h.2 (List.mem_filterMap.mpr ⟨s, hs, helement⟩) hs

/-- The keys of told content are those among its nodes. -/
theorem keysAmong_of_areNodes {ss : List Source} {ns : List Node} (h : AreNodes ss ns)
    (htold : AreTold 0 ss) : keysAmong ns = keysOf 0 ss := by
  have hdata : ∀ e ∈ ss.filterMap Source.element?, e.1 = Text.ofString "key" → ∃ d, e.2 = some d :=
    fun e he hkey => exists_data_of_told htold he hkey
  have hwritten : keysOf 0 ss = (ss.filterMap Source.element?).filterMap writtenKey? :=
    List.filterMap_filterMap.symm
  rw [hwritten, keysAmong]
  unfold AreNodes at h
  generalize ss.filterMap Source.element? = es at h hdata
  generalize elementsOf ns = ds at h
  induction h with
  | nil => rfl
  | @cons e d es ds hsame _ ih =>
      have hkey : elementKey? d = writtenKey? e := by
        unfold elementKey? writtenKey?
        rw [hsame.1]
        split
        · rename_i hname
          obtain ⟨text, htext⟩ := hdata e List.mem_cons_self (hsame.1.trans hname)
          rw [hsame.2 text htext, htext]
          rfl
        · rfl
      rw [List.filterMap_cons, List.filterMap_cons, hkey,
        ih fun e he => hdata e (List.mem_cons_of_mem _ he)]

end Markup
end Cursor
end Scopewright
