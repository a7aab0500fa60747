import Scopewright.Proofs.Cursor.Marks
import Scopewright.Proofs.Cursor.Plist
import Scopewright.Proofs.Cursor.Typed

/-! # The other keys of a dictionary

A cursor among the entries of a dictionary (`AmongEntries`) is told the keys in front of it from the
elements that have been read, and those behind it by their tags alone (`siblingKeys_resolve`). -/

namespace Scopewright
namespace Cursor
namespace Markup

open Document (isValue areEntries isPropertyList plistNode plistMembers plistTree)
open Scopewright.Markup (AreNodes Behind Builder Element Encloses Level Levels Node Open Outside
  Reads Source WellFormed construct elementsOf exists_behind grows_nodes nodes opens pieces piecesFrom
  Reference.read)

/-! ### Keys of entries -/

section entries

variable {ns : List Node} {n : Node} {e : Element} {pending : Option Document.Key}

theorem keysAmong_key (hn : n.element? = some e) (hkey : e.name = "key") :
    keysAmong (n :: ns) = e.textContent.trim :: keysAmong ns := by
  rw [keysAmong_element hn, elementKey?, if_pos hkey]
  rfl

theorem keysAmong_value (hn : n.element? = some e) (hkey : e.name ≠ "key") :
    keysAmong (n :: ns) = keysAmong ns := by
  rw [keysAmong_element hn, elementKey?, if_neg hkey]
  rfl

/-- The keys of a dictionary are those among the nodes inside of it. -/
theorem names_plistMembers (pending : Option Document.Key)
    (h : areEntries pending.isSome ns = true) :
    (plistMembers pending ns).map (·.1.name) = (pending.map (·.name)).toList ++ keysAmong ns := by
  induction ns generalizing pending with
  | nil =>
      cases pending with
      | none => rfl
      | some k => cases h
  | cons n ns ih =>
      cases hn : n.element? with
      | none =>
          rw [Document.areEntries_data hn] at h
          rw [Document.plistMembers_data hn, ih _ h, keysAmong_data hn]
      | some e =>
          cases pending with
          | none =>
              obtain ⟨hkey, -, h⟩ := (Document.areEntries_key hn).mp h
              rw [Document.plistMembers_key hn hkey, ih (some _) h, keysAmong_key hn hkey]
              rfl
          | some k =>
              obtain ⟨hvalue, h⟩ := (Document.areEntries_value hn).mp h
              obtain ⟨e, v, hn, hkey, hv⟩ := Document.exists_of_isValue hvalue
              rw [Document.plistMembers_value hn hkey hv, List.map_cons, ih none h,
                keysAmong_value hn hkey]
              rfl

/-- A key that waits is that of the next entry. -/
theorem exists_first {k : Document.Key} (h : areEntries true ns = true) : ∃ v behind,
    plistMembers (some k) ns = (k, v) :: behind ∧ behind.map (·.1.name) = keysAmong ns := by
  induction ns with
  | nil => cases h
  | cons n ns ih =>
      cases hn : n.element? with
      | none =>
          rw [Document.areEntries_data hn] at h
          rw [Document.plistMembers_data hn, keysAmong_data hn]
          exact ih h
      | some e =>
          obtain ⟨hvalue, h⟩ := (Document.areEntries_value hn).mp h
          obtain ⟨e, v, hn, hkey, hv⟩ := Document.exists_of_isValue hvalue
          rw [Document.plistMembers_value hn hkey hv, keysAmong_value hn hkey]
          exact ⟨v, _, rfl, names_plistMembers none h⟩

/-- A key of a dictionary stands between the keys in front of it and those behind it. -/
theorem exists_split (pending : Option Document.Key) {pre post : List Node}
    (h : areEntries pending.isSome (pre ++ n :: post) = true) (hn : n.element? = some e)
    (hkey : e.name = "key") : ∃ front v behind,
      plistMembers pending (pre ++ n :: post) =
        front ++ (⟨e.textContent.trim, e.span⟩, v) :: behind ∧
      front.map (·.1.name) = (pending.map (·.name)).toList ++ keysAmong pre ∧
      behind.map (·.1.name) = keysAmong post := by
  induction pre generalizing pending with
  | nil =>
      cases pending with
      | none =>
          obtain ⟨-, -, h⟩ := (Document.areEntries_key hn).mp h
          obtain ⟨v, behind, hmembers, hbehind⟩ := exists_first h
          rw [List.nil_append, Document.plistMembers_key hn hkey]
          exact ⟨[], v, behind, hmembers, rfl, hbehind⟩
      | some k =>
          obtain ⟨hvalue, -⟩ := (Document.areEntries_value hn).mp h
          obtain ⟨e', v, hn', hname, -⟩ := Document.exists_of_isValue hvalue
          rw [hn] at hn'
          rw [← Option.some.inj hn'] at hname
          exact absurd hkey hname
  | cons m pre ih =>
      rw [List.cons_append] at h ⊢
      cases hm : m.element? with
      | none =>
          rw [Document.areEntries_data hm] at h
          rw [Document.plistMembers_data hm, keysAmong_data hm]
          exact ih pending h
      | some d =>
          cases pending with
          | none =>
              obtain ⟨hd, -, h⟩ := (Document.areEntries_key hm).mp h
              rw [Document.plistMembers_key hm hd, keysAmong_key hm hd]
              exact ih (some _) h
          | some k =>
              obtain ⟨hvalue, h⟩ := (Document.areEntries_value hm).mp h
              obtain ⟨d, w, hm, hd, hw⟩ := Document.exists_of_isValue hvalue
              obtain ⟨front, v, behind, hmembers, hfront, hbehind⟩ := ih none h
              rw [Document.plistMembers_value hm hd hw, keysAmong_value hm hd, hmembers]
              exact ⟨(k, w) :: front, v, behind, rfl, congrArg (k.name :: ·) hfront, hbehind⟩

end entries

section frames

variable {f : Frame} {ns : List Node}

/-- The frame of a dictionary learns the keys that have been read. -/
theorem keys_foldl_meet (hf : f.name = "dict")
    (h : ∀ n ∈ ns, ∀ e, n.element? = some e → e.name = "key" → e.elements = []) :
    (ns.foldl Frame.meet f).keys = f.keys ++ keysAmong ns := by
  induction ns generalizing f with
  | nil => exact (List.append_nil _).symm
  | cons n ns ih =>
      have hmeet : (f.meet n).name = Text.ofString "dict" := (name_meet n).trans hf
      rw [List.foldl_cons, ih hmeet fun m hm => h m (List.mem_cons_of_mem _ hm)]
      cases hn : n.element? with
      | none => rw [meet_data (by rw [hf]; decide) hn, keysAmong_data hn]
      | some e =>
          have hnode : n = Document.ofElement e := Document.eq_ofElement hn
          by_cases hkey : e.name = Text.ofString "key"
          · have hdata := h n List.mem_cons_self e hn hkey
            have hkeys : (f.meet n).keys = f.keys ++ [e.textContent.trim] := by
              rw [hnode, Document.ofElement, Frame.meet, Frame.closeInner, if_pos hf, if_pos hkey,
                Element.textContent, contentOf_eq_dataAmong hdata]
            rw [hkeys, keysAmong_key hn hkey, List.append_assoc]
            rfl
          · have hkeys : (f.meet n).keys = f.keys := by
              rw [hnode, Document.ofElement, Frame.meet, Frame.closeInner, if_pos hf, if_neg hkey]
            rw [hkeys, keysAmong_value hn hkey]

theorem keys_frameOf (parent : Option Frame) {o : Open} (ho : o.name = "dict")
    (ds : List Node) {reversed post : List Node} (hreversed : o.reversed = ds.reverse ++ reversed)
    (hds : elementsOf ds = []) (h : areEntries false (reversed.reverse ++ post) = true) :
    (frameOf parent o).keys = keysAmong reversed.reverse := by
  have hnodes : o.reversed.reverse = reversed.reverse ++ ds := by
    rw [hreversed, List.reverse_append, List.reverse_reverse]
  have hkeys : keysAmong o.reversed.reverse = keysAmong reversed.reverse := by
    rw [hnodes, keysAmong_append, keysAmong_eq_nil hds, List.append_nil]
  rw [← hkeys]
  refine (keys_foldl_meet ho fun n hn e he hkey => ?_).trans (List.nil_append _)
  rw [hnodes] at hn
  rcases List.mem_append.mp hn with hn | hn
  · obtain ⟨front, behind, hsplit⟩ := List.append_of_mem hn
    rw [hsplit, List.append_assoc] at h
    exact Document.elements_key h he hkey
  · rw [List.filterMap_eq_nil_iff.mp hds n hn] at he
    cases he

end frames

/-! ### The cursor among entries -/

/-- The place `n` of a text is among the entries of the dictionary that begins at `start`: directly
inside of it, or inside the key of it that begins at `key?`. -/
inductive AmongEntries (t : Text) (n : ℕ) : ℕ → Option ℕ → Prop
  | between {o : Open} {os : List Open} (hopens : opens (t.take n) = o :: os)
      (hname : o.name = "dict") : AmongEntries t n o.start none
  | inKey {k o : Open} {os : List Open} (hopens : opens (t.take n) = k :: o :: os)
      (hkey : k.name = "key") (hname : o.name = "dict") : AmongEntries t n o.start (some k.start)

/-- The keys that have been read in front of a cursor among entries. -/
def keysInFront (t : Text) (n : ℕ) : List Text :=
  match openAt true (t.take n) with
  | [] => []
  | f :: fs => if f.name = "key" then (fs.head?.map (·.keys)).getD [] else f.keys

section among

variable {t : Text} {n start : ℕ} {key? : Option ℕ}

/-- A cursor among entries is told the keys in front of it and those that are found behind it. -/
theorem siblingKeys_resolve (hn : Outside 0 t n) (hat : AmongEntries t n start key?)
    (hread : key?.isSome → ∃ v, Reference.read (Before.of (t.take n)).data = .ok v) :
    (resolve true t n).siblingKeys =
      match followingKeys 0 (t.drop n) with
      | .ok ks => keysInFront t n ++ ks
      | .error _ => [] := by
  have htag := inTag_of_outside hn
  cases hat with
  | @between o os hopens hname =>
      have hopen : openAt true (t.take n) = framesOf (o :: os) := by rw [openAt_eq_framesOf, hopens]
      have hf : (frameOf (framesOf os).head? o).name = Text.ofString "dict" :=
        (name_frameOf _ o).trans hname
      have hkey : (frameOf (framesOf os).head? o).name ≠ Text.ofString "key" :=
        ne_of_eq_of_ne hf (by decide)
      have hvalue : ¬valueNames.contains (frameOf (framesOf os).head? o).name = true := by
        rw [hf]
        decide
      rw [resolve, resolve?_of_openAt hopen htag, keysInFront, hopen]
      simp only [framesOf, if_true, resolvePlist, if_neg hkey, if_neg hvalue, if_pos hf]
      cases followingKeys 0 (t.drop n) <;> rfl
  | @inKey k o os hopens hkey hname =>
      obtain ⟨v, hv⟩ := hread rfl
      have hopen : openAt true (t.take n) = framesOf (k :: o :: os) := by
        rw [openAt_eq_framesOf, hopens]
      have hf : (frameOf (framesOf (o :: os)).head? k).name = Text.ofString "key" :=
        (name_frameOf _ k).trans hkey
      rw [resolve, resolve?_of_openAt hopen htag, keysInFront, hopen]
      simp only [framesOf, List.head?_cons] at hf
      simp only [framesOf, List.head?_cons, if_true, resolvePlist, if_pos hf, hv, Option.map_some,
        Option.getD_some]
      cases followingKeys 0 (t.drop n) <;> rfl

/-- The dictionary among whose entries the cursor is, when its node is in the tree. -/
theorem exists_dictionary {root : Document.Node} {o : Open} {os : List Open} {inner : List Node}
    (h : Placed root (o :: os) inner) (hname : o.name = "dict") :
    areEntries false inner = true ∧ ∃ p stop,
      (p, .object ⟨o.start, stop⟩ (plistMembers none inner)) ∈ root.places := by
  cases h with
  | list hlist => exact absurd (hname.symm.trans hlist) (by decide)
  | key hkey => exact absurd (hname.symm.trans hkey) (by decide)
  | @value _ _ _ stop v hvalue hnode hplace =>
      rw [Document.plistNode_dict hname] at hnode
      rw [← Option.some.inj hnode] at hplace
      rw [isValue, if_pos hname] at hvalue
      exact ⟨hvalue, _, stop, hplace⟩

/-- The reading of a text comes to a place where elements are open, with what stands behind it in
each of them. -/
def Reached (t : Text) (os : List Open) (ls : List Level) : Prop :=
  ∃ ps data i u, (pieces t).1 = ps ++ (piecesFrom data i u).1 ∧
    (ps.foldl Builder.read .start).stack = os ∧ Levels ls i u

/-- When an element is open at a place, it has been read but for the data that is cut off there. -/
theorem exists_reached {ls : List Level} {o : Open} {os : List Open} (hn : Outside 0 t n)
    (hls : Levels ls n (t.drop n)) (hopens : opens (t.take n) = o :: os) :
    ∃ reversed ds, Reached t ({ o with reversed := reversed } :: os) ls ∧
      o.reversed = ds.reverse ++ reversed ∧ elementsOf ds = [] := by
  obtain ⟨ps, data, hps⟩ := hn.exists_pieces []
  have hle := hn.le_length
  have hfront := hps (t.take n) (List.take_prefix n t) (by rw [List.length_take]; omega)
  have hwhole := hps t (List.prefix_refl t) hle
  rw [List.drop_eq_nil_of_le (List.length_take_le n t), piecesFrom] at hfront
  rw [Nat.zero_add] at hwhole
  obtain ⟨ds, hds, hempty, -⟩ := Builder.adds_dataPiece data (0 + n) (ps.foldl Builder.read .start)
  rw [opens, pieces, hfront, List.foldl_append] at hopens
  obtain ⟨reversed, hstack, hreversed⟩ := hds.exists_reversed hopens
  exact ⟨reversed, ds, ⟨ps, data, n, t.drop n, hwhole, hstack, hls⟩, hreversed, hempty⟩

/-- Behind the closing tag of the innermost element it stands in the one around it, with the nodes of
what stood behind the place. -/
theorem Reached.exists_inner {root : Document.Node} {o : Open} {os : List Open} {l : Level}
    {ls : List Level} (h : Reached t (o :: os) (l :: ls)) (hname : l.name = o.name)
    (hdocument : Placed root [] (nodes t)) : ∃ ns stop, AreNodes l.inner ns ∧
      Placed root (o :: os) (o.reversed.reverse ++ ns) ∧
      ∀ o' os', os = o' :: os' → Reached t ({ o' with
        reversed := .element o.name ⟨o.start, stop⟩ (o.reversed.reverse ++ ns) ::
          o'.reversed } :: os') ls := by
  obtain ⟨ps, data, i, u, hwhole, hstack, hlevels⟩ := h
  let outer : Builder := { ps.foldl Builder.read .start with stack := os }
  obtain ⟨ps', j, v, ns, stop, hpieces, hrest, hare, hadds⟩ :=
    hlevels.exists_element data outer hstack rfl hname
  have hwhole' : (pieces t).1 = (ps ++ ps') ++ (piecesFrom [] j v).1 := by
    rw [hwhole, hpieces, List.append_assoc]
  have hgrows := grows_nodes hwhole'
  rw [List.foldl_append] at hgrows
  refine ⟨ns, stop, hare, hdocument.of_encloses (hadds.encloses hgrows), fun o' os' hos => ?_⟩
  refine ⟨ps ++ ps', [], j, v, hwhole', ?_, hrest⟩
  obtain ⟨next, hnext⟩ := hadds
  rw [List.foldl_append, hnext, Builder.foldl_add (b := outer) hos]
  rfl

/-- The entries of the dictionary at `start` in a tree: those in front of the cursor, the one whose key
holds the cursor, and those behind it. -/
def EntriesAround (t : Text) (n start : ℕ) (key? : Option ℕ) (ls : List Level)
    (root : Document.Node) : Prop :=
  ∃ p stop, ∃ front cursor behind : List (Document.Key × Document.Node),
    (p, .object ⟨start, stop⟩ (front ++ cursor ++ behind)) ∈ root.places ∧
    cursor.map (·.1.span.start) = key?.toList.map Int.ofNat ∧
    front.map (·.1.name) = keysInFront t n ∧
    (AreToldLevels ls → behind.map (·.1.name) = keysOfLevels ls)

/-- Directly inside of a dictionary no entry has the cursor. -/
theorem entriesAround_between {root : Document.Node} {o : Open} {os : List Open} {ls : List Level}
    (hdocument : Placed root [] (nodes t)) (hn : Outside 0 t n) (hbehind : Behind t n ls)
    (hopens : opens (t.take n) = o :: os) (hname : o.name = "dict") :
    EntriesAround t n o.start none ls root := by
  obtain ⟨hnames, hlevels⟩ := hbehind
  rw [hopens, List.map_cons] at hnames
  obtain ⟨l, ls', rfl, hl, -⟩ := List.map_eq_cons_iff.mp hnames
  obtain ⟨reversed, ds, hreached, hreversed, hempty⟩ := exists_reached hn hlevels hopens
  obtain ⟨ns, -, hare, hplaced, -⟩ := hreached.exists_inner hl hdocument
  obtain ⟨hentries, p, stop, hplace⟩ := exists_dictionary hplaced hname
  have hmembers : (plistMembers none (reversed.reverse ++ ns)).map (·.1.name) =
      keysAmong reversed.reverse ++ keysAmong ns := by
    rw [names_plistMembers none hentries, keysAmong_append]
    rfl
  obtain ⟨front, behind, hsplit, hfront, hbehind⟩ := List.map_eq_append_iff.mp hmembers
  rw [hsplit, ← List.append_nil front] at hplace
  refine ⟨p, stop, front, [], behind, hplace, rfl, ?_, fun htold => ?_⟩
  · have hopen : openAt true (t.take n) = framesOf (o :: os) := by rw [openAt_eq_framesOf, hopens]
    have hkey : (frameOf (framesOf os).head? o).name ≠ Text.ofString "key" := by
      rw [name_frameOf, hname]
      decide
    rw [hfront, keysInFront, hopen]
    simp only [framesOf, if_neg hkey]
    exact (keys_frameOf _ hname ds hreversed hempty hentries).symm
  · have hdict : l.name = Text.ofString "dict" := hl.trans hname
    rw [hbehind, keysAmong_of_areNodes hare htold.1, keysOfLevels, if_pos hdict, List.append_nil]

/-- Inside of a key the entry of the key has the cursor. -/
theorem entriesAround_inKey {root : Document.Node} {k o : Open} {os : List Open} {ls : List Level}
    (hdocument : Placed root [] (nodes t)) (hn : Outside 0 t n) (hbehind : Behind t n ls)
    (hopens : opens (t.take n) = k :: o :: os) (hkey : k.name = "key") (hname : o.name = "dict") :
    EntriesAround t n o.start (some k.start) ls root := by
  obtain ⟨hnames, hlevels⟩ := hbehind
  rw [hopens, List.map_cons, List.map_cons] at hnames
  obtain ⟨lk, ls', rfl, hlk, hnames⟩ := List.map_eq_cons_iff.mp hnames
  obtain ⟨l, ls', rfl, hl, -⟩ := List.map_eq_cons_iff.mp hnames
  obtain ⟨reversed, ds, hreached, -, -⟩ := exists_reached hn hlevels hopens
  obtain ⟨ns, stop, hare, -, hbehind⟩ := hreached.exists_inner hlk hdocument
  obtain ⟨ns', -, hare', hplaced, -⟩ := (hbehind o os rfl).exists_inner hl hdocument
  obtain ⟨hentries, p, stop', hplace⟩ := exists_dictionary hplaced hname
  rw [List.reverse_cons, List.append_assoc, List.singleton_append] at hentries hplace
  obtain ⟨front, v, behind, hsplit, hfront, hnames'⟩ := exists_split none hentries rfl hkey
  rw [hsplit, List.append_cons] at hplace
  refine ⟨p, stop', front, [_], behind, hplace, rfl, ?_, fun htold => ?_⟩
  · have hopen : openAt true (t.take n) = framesOf (k :: o :: os) := by
      rw [openAt_eq_framesOf, hopens]
    have hf : (frameOf (framesOf (o :: os)).head? k).name = Text.ofString "key" :=
      (name_frameOf _ k).trans hkey
    rw [hfront, keysInFront, hopen]
    simp only [framesOf, List.head?_cons] at hf
    simp only [framesOf, List.head?_cons, if_pos hf, Option.map_some, Option.getD_some]
    exact (keys_frameOf _ hname [] rfl rfl hentries).symm
  · have hdict : l.name = Text.ofString "dict" := hl.trans hname
    have hnotDict : lk.name ≠ Text.ofString "dict" := by
      rw [hlk, hkey]
      decide
    -- no keys are found in what is left of the key itself
    have hempty : keysAmong (reversed.reverse ++ ns) = [] :=
      keysAmong_eq_nil (Document.elements_key hentries rfl hkey)
    rw [keysAmong_append, List.append_eq_nil_iff] at hempty
    obtain ⟨htoldKey, htold⟩ := htold
    rw [if_neg hnotDict] at htold
    rw [hnames', keysAmong_of_areNodes hare' htold.2.1, keysOfLevels, if_neg hnotDict,
      ← keysAmong_of_areNodes hare htoldKey, hempty.2, keysOfLevels, if_pos hdict,
      List.append_nil, List.nil_append]

theorem exists_entriesAround {ls : List Level} (h : isPropertyList t = true) (hn : Outside 0 t n)
    (hbehind : Behind t n ls) (hat : AmongEntries t n start key?) :
    ∃ root, (plistTree t).root = some root ∧ EntriesAround t n start key? ls root := by
  obtain ⟨e, hlist, hvalue⟩ := (Option.any_eq_true _ _).mp h
  obtain ⟨-, root, -, -, hroot⟩ := Document.exists_of_isValue hvalue
  have hdocument : Placed root [] (nodes t) := .document hlist hvalue hroot
  refine ⟨root, (Document.root_plistTree hlist).trans hroot, ?_⟩
  cases hat with
  | between hopens hname => exact entriesAround_between hdocument hn hbehind hopens hname
  | inKey hopens hkey hname => exact entriesAround_inKey hdocument hn hbehind hopens hkey hname

/-- **Other keys.**  A cursor among the entries of a dictionary of a well-formed property list is told
the keys of the entries in front of it and the keys that are found behind it.  They are the keys of all
the other entries when what is left of the dictionary is told by its tags. -/
theorem siblingKeys_dictionary (h : isPropertyList t = true) (ht : WellFormed t) (hn : Outside 0 t n)
    (hat : AmongEntries t n start key?)
    (hread : key?.isSome → ∃ v, Reference.read (Before.of (t.take n)).data = .ok v) :
    ∃ root p stop, ∃ front cursor behind : List (Document.Key × Document.Node),
      (plistTree t).root = some root ∧
      (p, .object ⟨start, stop⟩ (front ++ cursor ++ behind)) ∈ root.places ∧
      cursor.map (·.1.span.start) = key?.toList.map Int.ofNat ∧
      (resolve true t n).siblingKeys = (match followingKeys 0 (t.drop n) with
        | .ok ks => front.map (·.1.name) ++ ks
        | .error _ => []) ∧
      ∀ ls, Behind t n ls → AreToldLevels ls →
        (resolve true t n).siblingKeys = (front ++ behind).map (·.1.name) := by
  have hkeys := siblingKeys_resolve hn hat hread
  obtain ⟨ls, hls⟩ := exists_behind ht hn
  obtain ⟨root, hroot, p, stop, front, cursor, behind, hplace, hcursor, hfront, -⟩ :=
    exists_entriesAround h hn hls hat
  refine ⟨root, p, stop, front, cursor, behind, hroot, hplace, hcursor, by rw [hkeys, hfront], ?_⟩
  intro ls' hls' htold
  obtain ⟨root', hroot', p', stop', front', cursor', behind', hplace', hcursor', hfront', hbehind'⟩ :=
    exists_entriesAround h hn hls' hat
  have hnames : behind.map (·.1.name) = behind'.map (·.1.name) := by
    -- the dictionary is the one node that begins where it does
    obtain rfl : root = root' := Option.some.inj (hroot.symm.trans hroot')
    obtain ⟨e, hlist, hvalue⟩ := (Option.any_eq_true _ _).mp h
    have hnodup := Document.places_start_nodup hlist hvalue
      ((Document.root_plistTree hlist).symm.trans hroot)
    have hsame := List.inj_on_of_nodup_map hnodup hplace hplace' rfl
    obtain ⟨-, hmembers⟩ := Document.Node.object.inj (Prod.mk.inj hsame).2
    have hlengths : (front ++ cursor).length = (front' ++ cursor').length := by
      have hfronts := congrArg List.length (hfront.trans hfront'.symm)
      have hcursors := congrArg List.length (hcursor.trans hcursor'.symm)
      rw [List.length_map, List.length_map] at hfronts hcursors
      rw [List.length_append, List.length_append, hfronts, hcursors]
    rw [(List.append_inj hmembers hlengths).2]
  rw [hkeys, followingKeys_levels hls'.levels htold, List.map_append, hfront, hnames, hbehind' htold]

/-- The open elements of a key that stands in a dictionary. -/
theorem amongEntries_key {s : ℕ} (h : (opens (t.take n)).map (fun o => (o.name, o.start)) =
    [(Text.ofString "key", s), (Text.ofString "dict", start)]) : AmongEntries t n start (some s) := by
  obtain ⟨k, os, hopens, hk, hos⟩ := List.map_eq_cons_iff.mp h
  obtain ⟨o, os, rfl, ho, -⟩ := List.map_eq_cons_iff.mp hos
  obtain ⟨hkey, rfl⟩ := Prod.mk.inj hk
  obtain ⟨hname, rfl⟩ := Prod.mk.inj ho
  exact .inKey hopens hkey hname

/-- Behind a cursor in the first key stand a comment and another entry. -/
theorem siblingKeys_dictionary_next :
    let t := Text.ofString "<dict><key>a</key><!-- x --><true/><key>c</key><true/></dict>"
    isPropertyList t = true ∧ WellFormed t ∧ Outside 0 t 12 ∧ AmongEntries t 12 0 (some 6) ∧
      (∃ v, Reference.read (Before.of (t.take 12)).data = .ok v) ∧
      (∃ ls, Behind t 12 ls ∧ AreToldLevels ls) ∧
      (resolve true t 12).siblingKeys = [Text.ofString "c"] ∧
      ∃ root p stop, ∃ front cursor behind : List (Document.Key × Document.Node),
        (plistTree t).root = some root ∧
        (p, .object ⟨0, stop⟩ (front ++ cursor ++ behind)) ∈ root.places ∧
        cursor.map (·.1.span.start) = [6] ∧
        (resolve true t 12).siblingKeys = (front ++ behind).map (·.1.name) := by
  intro t
  have hlist : isPropertyList t = true := by decide +kernel
  have hdict : construct 1 (t.drop 1) = .piece (.opening "dict") 4 5 := rfl
  have hkey : construct 7 (t.drop 7) = .piece (.opening "key") 3 4 := rfl
  have hkeyEnd : construct 13 (t.drop 13) = .piece (.closing "key") 4 5 := rfl
  have hcomment : construct 19 (t.drop 19) = .piece .aside 8 9 := rfl
  have htrue : construct 29 (t.drop 29) = .piece (.empty "true") 5 6 := rfl
  have hnext : construct 36 (t.drop 36) = .piece (.opening "key") 3 4 := rfl
  have hnextEnd : construct 42 (t.drop 42) = .piece (.closing "key") 4 5 := rfl
  have htrue' : construct 48 (t.drop 48) = .piece (.empty "true") 5 6 := rfl
  have hdictEnd : construct 55 (t.drop 55) = .piece (.closing "dict") 5 6 := rfl
  have hplace : Outside 0 t 12 := .markup hdict (.markup hkey (.unit (by decide) (.here _ _)))
  have hat : AmongEntries t 12 0 (some 6) := amongEntries_key (by decide +kernel)
  have hread : ∃ v, Reference.read (Before.of (t.take 12)).data = .ok v := ⟨"a", rfl⟩
  let text (s : String) : Text := Text.ofString s
  let entries : List Source := [.markup .aside (text "!-- x -->"),
    .markup (.empty (text "true")) (text "true/>"),
    .element (text "key") (text "key>") [.unit 'c'] (text "/key>"),
    .markup (.empty (text "true")) (text "true/>")]
  have hentries : Reads 18 (t.drop 18) entries 54 (t.drop 54) :=
    .markup hcomment rfl (.markup htrue rfl
      (.element hnext (.unit (by decide) (.done _ _)) hnextEnd (.markup htrue' rfl (.done _ _))))
  have hwell : WellFormed t :=
    ⟨_, _, .element hdict (.element hkey (.unit (by decide) (.done _ _)) hkeyEnd hentries)
      hdictEnd (.done _ _)⟩
  let levels : List Level := [⟨text "key", [], text "/key>"⟩, ⟨text "dict", entries, text "/dict>"⟩]
  have hbehind : Behind t 12 levels :=
    ⟨by decide +kernel, .inside (.done _ _) hkeyEnd (.inside hentries hdictEnd (.outside (.done _ _)))⟩
  have hkeyTold : Told 0 (.element (text "key") (text "key>") [.unit 'c'] (text "/key>")) :=
    ⟨rfl, ⟨trivial, trivial⟩, rfl, fun _ => ⟨rfl, text "c", text "c", rfl, rfl, rfl⟩⟩
  have htold : AreToldLevels levels :=
    ⟨trivial, rfl, ⟨⟨rfl, nofun⟩, ⟨rfl, nofun⟩, hkeyTold, ⟨rfl, nofun⟩, trivial⟩, rfl⟩
  obtain ⟨root, p, stop, front, cursor, behind, hroot, hmem, hcursor, -, hkeys⟩ :=
    siblingKeys_dictionary hlist hwell hplace hat fun _ => hread
  exact ⟨hlist, hwell, hplace, hat, hread, ⟨levels, hbehind, htold⟩, by decide +kernel, root, p, stop,
    front, cursor, behind, hroot, hmem, hcursor, hkeys levels hbehind htold⟩

/-- A key that is commented out is found behind the cursor all the same. -/
theorem siblingKeys_dictionary_comment :
    let t := Text.ofString "<dict><key></key><string>a</string><!-- <key>b</key> --></dict>"
    isPropertyList t = true ∧ WellFormed t ∧ Outside 0 t 11 ∧ AmongEntries t 11 0 (some 6) ∧
      ((plistTree t).root.map fun root => root.members.map (·.1.name)) = some [[]] ∧
      (resolve true t 11).siblingKeys = [Text.ofString "b"] := by
  intro t
  have hdict : construct 1 (t.drop 1) = .piece (.opening "dict") 4 5 := rfl
  have hkey : construct 7 (t.drop 7) = .piece (.opening "key") 3 4 := rfl
  have hplace : Outside 0 t 11 := .markup hdict (.markup hkey (.here _ _))
  have hkeyEnd : construct 12 (t.drop 12) = .piece (.closing "key") 4 5 := rfl
  have hstring : construct 18 (t.drop 18) = .piece (.opening "string") 6 7 := rfl
  have hstringEnd : construct 27 (t.drop 27) = .piece (.closing "string") 7 8 := rfl
  have hcomment : construct 36 (t.drop 36) = .piece .aside 19 20 := rfl
  have hdictEnd : construct 57 (t.drop 57) = .piece (.closing "dict") 5 6 := rfl
  have hwell : WellFormed t :=
    ⟨_, _, .element hdict
      (.element hkey (.done _ _) hkeyEnd
        (.element hstring (.unit (by decide) (.done _ _)) hstringEnd
          (.markup hcomment rfl (.done _ _))))
      hdictEnd (.done _ _)⟩
  exact ⟨by decide +kernel, hwell, hplace, amongEntries_key (by decide +kernel), by decide +kernel,
    by decide +kernel⟩

end among

end Markup
end Cursor
end Scopewright
