import Scopewright.Proofs.Registry.Entries
import Scopewright.Proofs.Sort

/-! # What a file would contribute

A registry can tell the entries of a file before it has them (`Registry.index`).  They are meant to
be those that the snapshot would have with the file, as far as its record leads to their sources
(`Registry.preview`).  Both are sorted entries of the records that the record leads to, but they may
differ in two ways (`index_preview`).

The registry asks the new record before the others, so references to its base scope may stand for
another record than in the snapshot; they do not when no record before it has its base scope
(`refersTo_sortRecords_iff`).  And a hidden record that a hidden file leads to is always taken for
internal, also when a visible record leads to it. -/

namespace Scopewright
namespace Registry

open Relation (ReflTransGen)
open Snapshot (sortRecords)

/-! ### Resolution -/

theorem map_fst_find?_zipIdx (rs : List Record) (p : Record → Bool) :
    (rs.zipIdx.find? fun n => p n.1).map (·.1) = rs.find? p := by
  conv => rhs; rw [← List.zipIdx_map_fst 0 rs, List.find?_map]
  rfl

theorem map_fst_find?_reverse (rs : List Record) (p : Record → Bool) :
    (rs.zipIdx.reverse.find? fun n => p n.1).map (·.1) = rs.reverse.find? p := by
  conv => rhs; rw [← List.zipIdx_map_fst 0 rs, ← List.map_reverse, List.find?_map]
  rfl

theorem exists_eq_some_iff {o : Option Numbered} {r : Record} :
    (∃ i, o = some (r, i)) ↔ o.map (·.1) = some r := by
  cases o with
  | none => simp
  | some n =>
      obtain ⟨s, i⟩ := n
      simp

/-- A reference by scope stands for the first record with that base scope. -/
theorem resolve?_scope_iff {rs : List Record} {name : Text} {r : Record} :
    (∃ i, resolve? rs.zipIdx (.scope name) = some (r, i)) ↔
      (rs.filter fun s => decide (s.baseScope = some name) && !name.isEmpty).head? = some r := by
  rw [exists_eq_some_iff, resolve?, List.head?_filter, ← map_fst_find?_zipIdx]

/-- A reference by path stands for the record with that path. -/
theorem resolve?_path_iff {rs : List Record} (h : (rs.map (·.resourcePath)).Nodup) {p : Text}
    {r : Record} : (∃ i, resolve? rs.zipIdx (.path p) = some (r, i)) ↔
      r ∈ rs ∧ r.resourcePath = p := by
  rw [exists_eq_some_iff, resolve?, map_fst_find?_reverse rs fun s => decide (s.resourcePath = p)]
  constructor
  · intro hfind
    have hp := List.find?_some hfind
    exact ⟨List.mem_reverse.mp (List.mem_of_find?_eq_some hfind), of_decide_eq_true hp⟩
  · rintro ⟨hr, hp⟩
    have hsome : (rs.reverse.find? fun s => decide (s.resourcePath = p)).isSome :=
      List.find?_isSome.mpr ⟨r, List.mem_reverse.mpr hr, decide_eq_true hp⟩
    obtain ⟨s, hs⟩ := Option.isSome_iff_exists.mp hsome
    have hpath := List.find?_some hs
    have hmem : s ∈ rs := List.mem_reverse.mp (List.mem_of_find?_eq_some hs)
    rw [hs, List.inj_on_of_nodup_map h hmem hr ((of_decide_eq_true hpath).trans hp.symm)]

theorem sortRecords_pairwise (rs : List Record) :
    (sortRecords rs).Pairwise fun a b => Text.le a.resourcePath b.resourcePath :=
  @List.pairwise_mergeSort Record (fun a b => Text.le a.resourcePath b.resourcePath)
    (fun _ _ _ => Text.le_trans) (fun a b => Text.le_total a.resourcePath b.resourcePath) rs

theorem filter_sortRecords (p : Record → Bool) (rs : List Record) :
    (sortRecords rs).filter p = sortRecords (rs.filter p) :=
  @filter_mergeSort Record (fun a b => Text.le a.resourcePath b.resourcePath)
    (fun _ _ _ => Text.le_trans) (fun a b => Text.le_total a.resourcePath b.resourcePath) p rs

/-- No record with the base scope of a record comes before it by path. -/
def FirstOfScope (rs : List Record) (r : Record) : Prop :=
  ∀ s ∈ rs, r.baseScope.isSome → s.baseScope = r.baseScope →
    Text.le r.resourcePath s.resourcePath = true

/-- The place of a new record does not matter when no earlier one has its base scope. -/
theorem refersTo_sortRecords_iff {r : Record} {others : List Record}
    (hpaths : ((r :: others).map (·.resourcePath)).Nodup)
    (hsorted : others.Pairwise fun a b => Text.le a.resourcePath b.resourcePath)
    (hfirst : FirstOfScope others r) {a b : Record} :
    RefersTo (r :: others) a b ↔ RefersTo (sortRecords (r :: others)) a b := by
  have hresolve : ∀ ref, (∃ i, resolve? (r :: others).zipIdx ref = some (b, i)) ↔
      ∃ i, resolve? (sortRecords (r :: others)).zipIdx ref = some (b, i) := by
    intro ref
    cases ref with
    | path p =>
        rw [resolve?_path_iff hpaths, resolve?_path_iff (sortRecords_nodup hpaths),
          (sortRecords_perm _).mem_iff]
    | scope name =>
        rw [resolve?_scope_iff, resolve?_scope_iff, filter_sortRecords]
        have hfilter : ((r :: others).filter fun s =>
            decide (s.baseScope = some name) && !name.isEmpty).Pairwise
              fun a b => Text.le a.resourcePath b.resourcePath := by
          rw [List.filter_cons]
          split
          · rename_i hr
            simp only [Bool.and_eq_true, decide_eq_true_eq] at hr
            refine List.pairwise_cons.mpr ⟨fun s hs => ?_, hsorted.filter _⟩
            obtain ⟨hs, hname⟩ := List.mem_filter.mp hs
            simp only [Bool.and_eq_true, decide_eq_true_eq] at hname
            exact hfirst s hs (by rw [hr.1]; rfl) (hname.1.trans hr.1.symm)
          · exact hsorted.filter _
        rw [sortRecords, List.mergeSort_of_pairwise hfilter]
  exact exists_congr fun ref => and_congr_right fun _ => hresolve ref

/-! ### The record of the file among the others -/

/-- The records of a registry with one more, which takes the place of those with its path. -/
def withRecord (R : Registry) (r : Record) : List Record :=
  r :: R.snapshot.records.filter fun s => decide (s.resourcePath ≠ r.resourcePath)

/-- The paths of the records that a record leads to. -/
def reachedPaths (rs : List Record) (r : Record) : List Text :=
  (rs.zipIdx.filter fun n => decide (n.1 = r)).flatMap fun root =>
    ((referenceGraph rs.zipIdx).reach root).nodes.map fun n => n.1.resourcePath

/-- The entries that the snapshot would have with a record, as far as the record leads to their
sources. -/
def preview (R : Registry) (r : Record) : List Entry :=
  (Snapshot.ofRecords (withRecord R r)).1.entries.filter fun e =>
    (reachedPaths (sortRecords (withRecord R r)) r).contains e.source

theorem mem_reachedPaths_iff {rs : List Record} (h : (rs.map (·.resourcePath)).Nodup) {r s : Record}
    (hr : r ∈ rs) (hs : s ∈ rs) :
    s.resourcePath ∈ reachedPaths rs r ↔ ReflTransGen (RefersTo rs) r s := by
  simp only [reachedPaths, List.mem_flatMap, List.mem_filter, decide_eq_true_eq, List.mem_map]
  constructor
  · rintro ⟨root, ⟨hroot, rfl⟩, n, hn, hp⟩
    have hg := referenceGraph_closed h
    have hmem : n ∈ rs.zipIdx := ((Graph.mem_reach_nodes hg hroot).mp hn).mem_nodes hg hroot
    have he : n.1 = s := List.inj_on_of_nodup_map h (List.fst_mem_of_mem_zipIdx hmem) hs hp
    exact (mem_reached_iff h hroot).mp (he ▸ List.mem_map_of_mem hn)
  · intro hl
    rw [← List.zipIdx_map_fst 0 rs] at hr
    obtain ⟨root, hroot, rfl⟩ := List.mem_map.mp hr
    obtain ⟨n, hn, rfl⟩ := List.mem_map.mp ((mem_reached_iff h hroot).mpr hl)
    exact ⟨root, ⟨hroot, rfl⟩, n, hn, rfl⟩

theorem mem_of_leads {rs : List Record} {r s : Record} (hr : r ∈ rs)
    (h : ReflTransGen (RefersTo rs) r s) : s ∈ rs := by
  induction h with
  | refl => exact hr
  | tail _ hs _ =>
      obtain ⟨_, _, i, hi⟩ := hs
      exact List.fst_mem_of_mem_zipIdx (mem_of_resolve? hi)

section preview

variable {R : Registry} {r : Record} {file : File}

theorem withRecord_paths (h : (R.snapshot.records.map (·.resourcePath)).Nodup) :
    ((withRecord R r).map (·.resourcePath)).Nodup := by
  refine List.nodup_cons.mpr ⟨fun hmem => ?_, h.sublist (List.filter_sublist.map _)⟩
  obtain ⟨s, hs, hp⟩ := List.mem_map.mp hmem
  exact of_decide_eq_true (List.mem_filter.mp hs).2 hp

/-- The records that the search finds when the record is asked first. -/
def indexed (R : Registry) (r : Record) : List Record :=
  ((referenceGraph (withRecord R r).zipIdx).reach (r, 0)).nodes.map (·.1)

theorem index_eq (h : Record.ofFile file = .ok r) : (R.index file).1 =
    sortedEntries (indexed R r) fun s => r.hidden && s.hidden := by
  simp only [index, h, sortedEntries, indexed, List.flatMap_map]
  rfl

theorem mem_indexed_iff (h : (R.snapshot.records.map (·.resourcePath)).Nodup) {s : Record} :
    s ∈ indexed R r ↔ ReflTransGen (RefersTo (withRecord R r)) r s := by
  have hroot : (r, 0) ∈ (withRecord R r).zipIdx := List.mem_cons_self
  exact mem_reached_iff (withRecord_paths h) hroot

theorem indexed_nodup (h : (R.snapshot.records.map (·.resourcePath)).Nodup) :
    (indexed R r).Nodup := by
  have hroot : (r, 0) ∈ (withRecord R r).zipIdx := List.mem_cons_self
  exact reached_nodup (withRecord_paths h) hroot

/-- The records of the preview, by path. -/
def previewed (R : Registry) (r : Record) : List Record :=
  (sortRecords (withRecord R r)).filter fun s =>
    (reachedPaths (sortRecords (withRecord R r)) r).contains s.resourcePath

theorem filter_flatMap_entries (rs : List Record) (internal : Record → Bool) (p : Text → Bool) :
    (rs.flatMap fun s => s.entries (internal s)).filter (fun e => p e.source) =
      (rs.filter fun s => p s.resourcePath).flatMap fun s => s.entries (internal s) := by
  induction rs with
  | nil => rfl
  | cons s rs ih =>
      have hs : (s.entries (internal s)).filter (fun e => p e.source) =
          if p s.resourcePath then s.entries (internal s) else [] := by
        rw [Record.entries, List.filter_map]
        cases hp : p s.resourcePath <;> simp [Function.comp_def, hp]
      rw [List.flatMap_cons, List.filter_append, ih, hs, List.filter_cons]
      split <;> rfl

theorem preview_eq (R : Registry) (r : Record) :
    preview R r = sortedEntries (previewed R r) fun s =>
      s.hidden && !(visiblePaths (sortRecords (withRecord R r))).contains s.resourcePath := by
  have hentries : (Snapshot.ofRecords (withRecord R r)).1.entries =
      ((sortRecords (withRecord R r)).flatMap fun s => s.entries (s.hidden &&
        !(visiblePaths (sortRecords (withRecord R r))).contains s.resourcePath)).mergeSort
          Entry.le := rfl
  rw [preview, hentries, filter_mergeSort Entry.le_trans Entry.le_total,
    filter_flatMap_entries _ _ fun p =>
      (reachedPaths (sortRecords (withRecord R r)) r).contains p]
  rfl

theorem mem_previewed_iff (h : (R.snapshot.records.map (·.resourcePath)).Nodup) {s : Record} :
    s ∈ previewed R r ↔ ReflTransGen (RefersTo (sortRecords (withRecord R r))) r s := by
  have hpaths := sortRecords_nodup (withRecord_paths (r := r) h)
  have hr : r ∈ sortRecords (withRecord R r) :=
    (sortRecords_perm _).mem_iff.mpr List.mem_cons_self
  rw [previewed, List.mem_filter, List.contains_iff_mem]
  constructor
  · rintro ⟨hs, hreached⟩
    exact (mem_reachedPaths_iff hpaths hr hs).mp hreached
  · intro hl
    have hs := mem_of_leads hr hl
    exact ⟨hs, (mem_reachedPaths_iff hpaths hr hs).mpr hl⟩

theorem index_eq_preview_iff (hfile : Record.ofFile file = .ok r)
    (hpaths : (R.snapshot.records.map (·.resourcePath)).Nodup)
    (hscopes : ∀ s ∈ withRecord R r, s.ownScopes.Nodup) :
    (R.index file).1 = preview R r ↔ ∀ s ∈ withRecord R r, s.ownScopes ≠ [] →
      (ReflTransGen (RefersTo (withRecord R r)) r s ↔
        ReflTransGen (RefersTo (sortRecords (withRecord R r))) r s) ∧
      (ReflTransGen (RefersTo (withRecord R r)) r s → r.hidden = true → s.hidden = true →
        ∀ v ∈ withRecord R r, v.hidden = false →
          ¬ ReflTransGen (RefersTo (sortRecords (withRecord R r))) v s) := by
  have hdistinct : Distinct (withRecord R r) := ⟨withRecord_paths hpaths, hscopes⟩
  have hperm := sortRecords_perm (withRecord R r)
  have hindexed : indexed R r ⊆ withRecord R r := fun s hs =>
    mem_of_leads List.mem_cons_self ((mem_indexed_iff hpaths).mp hs)
  have hpreviewed : previewed R r ⊆ withRecord R r := fun s hs =>
    hperm.mem_iff.mp (List.mem_of_mem_filter hs)
  have hnodup : (previewed R r).Nodup :=
    (hperm.nodup_iff.mpr hdistinct.paths.of_map).filter _
  rw [index_eq hfile, preview_eq, sortedEntries_eq_iff hdistinct hindexed hpreviewed
    (indexed_nodup hpaths) hnodup]
  refine forall₂_congr fun s hs => imp_congr_right fun _ => ?_
  rw [mem_indexed_iff hpaths, mem_previewed_iff hpaths]
  refine and_congr_right fun hsame => imp_congr_right fun hleads => ?_
  have hvisible := mem_visiblePaths_iff (sortRecords_nodup hdistinct.paths) (hperm.mem_iff.mpr hs)
  simp only [hperm.mem_iff] at hvisible
  by_cases hh : s.hidden = true
  · by_cases hr : r.hidden = true
    · rw [hh, hr, Bool.true_and, Bool.true_and, eq_comm, Bool.not_eq_true', ← Bool.not_eq_true,
        List.contains_iff_mem, hvisible]
      simp only [not_exists, not_and, true_imp_iff]
    · -- a visible file makes what it leads to visible in the snapshot, too
      have hmem := hvisible.mpr
        ⟨r, List.mem_cons_self, Bool.eq_false_iff.mpr hr, hsame.mp hleads⟩
      rw [Bool.eq_false_iff.mpr hr, hh, List.contains_iff_mem.mpr hmem]
      simp
  · rw [Bool.eq_false_iff.mpr hh, Bool.and_false, Bool.false_and]
    simp

end preview

/-! ### The registry after any changes -/

variable (cs : List Change)

/-- **What a file would contribute.**  After any changes that leave no path to two records, the
entries that the registry tells for a file are those of the records that the record of the file
leads to when it is asked first, internal when the record of the file and their own are hidden.
They are the entries of the snapshot with the file, as far as its record leads to their sources,
exactly when for all records with scopes asking it first does not matter, and when, for a hidden
file, no visible record leads to a hidden one that the file leads to.  Asking the record first does
not matter when no record with its base scope comes before it. -/
theorem index_preview {file : File} {r : Record} (hfile : Record.ofFile file = .ok r)
    (hpaths : ((after cs).snapshot.records.map (·.resourcePath)).Nodup) :
    (((after cs).index file).1 = preview (after cs) r ↔
      ∀ s ∈ withRecord (after cs) r, s.ownScopes ≠ [] →
        (ReflTransGen (RefersTo (withRecord (after cs) r)) r s ↔
          ReflTransGen (RefersTo (sortRecords (withRecord (after cs) r))) r s) ∧
        (ReflTransGen (RefersTo (withRecord (after cs) r)) r s → r.hidden = true →
          s.hidden = true → ∀ v ∈ withRecord (after cs) r, v.hidden = false →
            ¬ ReflTransGen (RefersTo (sortRecords (withRecord (after cs) r))) v s)) ∧
    (FirstOfScope (withRecord (after cs) r) r → ∀ a b,
      RefersTo (withRecord (after cs) r) a b ↔
        RefersTo (sortRecords (withRecord (after cs) r)) a b) ∧
    (∀ e, e ∈ ((after cs).index file).1 ↔
      ∃ s, ReflTransGen (RefersTo (withRecord (after cs) r)) r s ∧ e.name ∈ s.ownScopes ∧
        e.source = s.resourcePath ∧ e.packageId = s.packageId ∧
        e.internal = (r.hidden && s.hidden)) ∧
    ∀ e, e ∈ preview (after cs) r ↔
      e ∈ (Snapshot.ofRecords (withRecord (after cs) r)).1.entries ∧
        ∃ s, ReflTransGen (RefersTo (sortRecords (withRecord (after cs) r))) r s ∧
          e.source = s.resourcePath := by
  have hperm := sortRecords_perm (withRecord (after cs) r)
  have hsorted := sortRecords_nodup (withRecord_paths (r := r) hpaths)
  have hr : r ∈ sortRecords (withRecord (after cs) r) := hperm.mem_iff.mpr List.mem_cons_self
  refine ⟨index_eq_preview_iff hfile hpaths fun s hs => ?_, fun hfirst a b => ?_, fun e => ?_,
    fun e => ?_⟩
  · rcases List.mem_cons.mp hs with rfl | hs
    · exact ownScopes_nodup hfile
    · have hmem := List.mem_of_mem_filter hs
      rw [records_after] at hmem
      exact ownScopes_nodup_after cs ((sortRecords_perm _).mem_iff.mp hmem)
  · refine refersTo_sortRecords_iff (withRecord_paths hpaths) ?_ fun s hs =>
      hfirst s (List.mem_cons_of_mem r hs)
    rw [records_after]
    exact (sortRecords_pairwise _).filter _
  · simp only [index_eq hfile, mem_sortedEntries_iff, mem_indexed_iff hpaths]
  · rw [preview, List.mem_filter, List.contains_iff_mem]
    refine and_congr_right fun he => ⟨fun hreached => ?_, ?_⟩
    · obtain ⟨s, hs, _, hsource, _⟩ := (mem_entries_iff (withRecord_paths hpaths)).mp he
      rw [hsource] at hreached
      exact ⟨s, (mem_reachedPaths_iff hsorted hr (hperm.mem_iff.mpr hs)).mp hreached, hsource⟩
    · rintro ⟨s, hs, hsource⟩
      rw [hsource]
      exact (mem_reachedPaths_iff hsorted hr (mem_of_leads hr hs)).mpr hs

/-! ### Where they differ -/

theorem ofFile_eq_ok {file : File} {r : Record} (h : (Record.ofFile file).toOption = some r) :
    Record.ofFile file = .ok r := by
  cases hfile : Record.ofFile file with
  | ok s =>
      rw [hfile] at h
      exact congrArg Except.ok (Option.some.inj h)
  | error f =>
      rw [hfile] at h
      cases h

/-- The path of a definition in the one package. -/
def pathOf (name : Text) : Text := ("Packages/P/" : Text) ++ name ++ (".sublime-syntax" : Text)

/-- A definition in the one package. -/
def fileOf (name text : Text) : File := ⟨pathOf name, "P", text⟩

/-- A syntax with a base scope. -/
def holder : Record := ⟨pathOf "A", "P", some "x", false, ["x"], []⟩

/-- A later syntax with the same base scope, which refers to that scope. -/
def rival : Record := ⟨pathOf "B", "P", some "x", false, ["x"], [.scope "x"]⟩

/-- A registry with the first one. -/
def held : List Change := [.replace "P" [fileOf "A" "scope: x"]]

/-- The file of the second one. -/
def rivalFile : File := fileOf "B" "scope: x\ninclude: scope:x"

theorem ofFile_rival : Record.ofFile rivalFile = .ok rival :=
  ofFile_eq_ok (by decide +kernel)

theorem records_held : (after held).snapshot.records = [holder] := by
  have hpackages : (after held).packages.flatMap (·.2) = [holder] := by decide +kernel
  rw [records_after, hpackages, sortRecords, List.mergeSort_singleton]

/-- The new syntax takes the scope for itself, and in the snapshot it leads to the one that comes
first. -/
theorem index_preview_rival :
    Record.ofFile rivalFile = .ok rival ∧
      ((after held).snapshot.records.map (·.resourcePath)).Nodup ∧
      ((after held).index rivalFile).1 ≠ preview (after held) rival := by
  have hpaths : ((after held).snapshot.records.map (·.resourcePath)).Nodup := by
    rw [records_held]
    exact List.nodup_singleton _
  have hrecords : withRecord (after held) rival = [rival, holder] := by
    rw [withRecord, records_held]
    decide
  have hsort : sortRecords [rival, holder] = [holder, rival] := by
    have hle : Text.le rival.resourcePath holder.resourcePath = false := by decide
    simp [sortRecords, List.mergeSort, hle]
  refine ⟨ofFile_rival, hpaths, fun heq => ?_⟩
  have hsame := ((index_preview held ofFile_rival hpaths).1.mp heq holder
    (by rw [hrecords]; decide) (by decide)).1
  rw [hrecords, hsort] at hsame
  have hleads : RefersTo [holder, rival] rival holder :=
    ⟨.scope "x", List.mem_singleton_self _, 0, by decide⟩
  have hstays : ∀ s, ReflTransGen (RefersTo [rival, holder]) rival s → s = rival := by
    intro s hs
    induction hs with
    | refl => rfl
    | tail _ hs ih =>
        obtain ⟨ref, href, i, hresolve⟩ := hs
        rw [ih] at href
        rw [List.mem_singleton.mp href] at hresolve
        exact (congrArg Prod.fst (Option.some.inj hresolve)).symm
  exact absurd (hstays holder (hsame.mpr (.single hleads))) (by decide)

/-- A hidden syntax. -/
def lent : Record := ⟨pathOf "H", "P", some "h", true, ["h"], []⟩

/-- A visible syntax that refers to it. -/
def lender : Record := ⟨pathOf "V", "P", some "v", false, ["v"], [.scope "h"]⟩

/-- Another hidden syntax that refers to it. -/
def borrower : Record := ⟨pathOf "A", "P", some "a", true, ["a"], [.scope "h"]⟩

/-- A registry with the first two. -/
def lending : List Change :=
  [.replace "P" [fileOf "H" "scope: h\nhidden: true", fileOf "V" "scope: v\ninclude: scope:h"]]

/-- The file of the third one. -/
def borrowerFile : File := fileOf "A" "scope: a\nhidden: true\ninclude: scope:h"

theorem ofFile_borrower : Record.ofFile borrowerFile = .ok borrower :=
  ofFile_eq_ok (by decide +kernel)

theorem records_lending : (after lending).snapshot.records = [lent, lender] := by
  have hpackages : (after lending).packages.flatMap (·.2) = [lent, lender] := by decide +kernel
  rw [records_after, hpackages]
  exact List.mergeSort_of_pairwise (by decide)

/-- The registry tells the scope of the hidden syntax as internal, and in the snapshot the visible
one leads to it. -/
theorem index_borrower :
    Record.ofFile borrowerFile = .ok borrower ∧
      ((after lending).snapshot.records.map (·.resourcePath)).Nodup ∧
      ⟨"h", lent.resourcePath, "P", true⟩ ∈ ((after lending).index borrowerFile).1 ∧
      ((after lending).index borrowerFile).1 ≠ preview (after lending) borrower := by
  have hpaths : ((after lending).snapshot.records.map (·.resourcePath)).Nodup := by
    rw [records_lending]
    decide
  have hrecords : withRecord (after lending) borrower = [borrower, lent, lender] := by
    rw [withRecord, records_lending]
    decide
  have hsort : sortRecords [borrower, lent, lender] = [borrower, lent, lender] :=
    List.mergeSort_of_pairwise (by decide)
  have hborrowed : ReflTransGen (RefersTo [borrower, lent, lender]) borrower lent :=
    .single ⟨.scope "h", List.mem_singleton_self _, 1, by decide⟩
  have hlent : ReflTransGen (RefersTo [borrower, lent, lender]) lender lent :=
    .single ⟨.scope "h", List.mem_singleton_self _, 1, by decide⟩
  refine ⟨ofFile_borrower, hpaths, ?_, fun heq => ?_⟩
  · rw [index_eq ofFile_borrower, mem_sortedEntries_iff]
    refine ⟨lent, (mem_indexed_iff hpaths).mpr (hrecords ▸ hborrowed), ?_, rfl, rfl, rfl⟩
    exact List.mem_singleton_self _
  · have hsame := (index_eq_preview_iff ofFile_borrower hpaths (by rw [hrecords]; decide)).mp heq
      lent (by rw [hrecords]; decide) (by decide)
    rw [hrecords, hsort] at hsame
    exact hsame.2 hborrowed rfl rfl lender (by decide) rfl hlent

end Registry
end Scopewright
