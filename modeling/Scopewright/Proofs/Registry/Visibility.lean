import Scopewright.Proofs.Registry.Reach
import Scopewright.Registry.Snapshot

/-! # Which scopes are internal

References are resolved among a list of records (`RefersTo`), and a record leads to those at
the end of chains of references.  When no two records have one path, the search from a record
finds exactly the records that it leads to (`mem_reached_iff`), so the entries of a snapshot are
internal exactly when their record is hidden and no visible record leads to it
(`mem_entries_iff`). -/

namespace Scopewright
namespace Registry

open Relation (ReflTransGen)

/-- A reference of one record stands for another one, among some records. -/
def RefersTo (rs : List Record) (a b : Record) : Prop :=
  ∃ ref ∈ a.references, ∃ i, resolve? rs.zipIdx ref = some (b, i)

theorem mem_of_resolve? {ns : List Numbered} {ref : Reference} {n : Numbered}
    (h : resolve? ns ref = some n) : n ∈ ns := by
  cases ref with
  | scope name => exact List.mem_of_find?_eq_some h
  | path path => exact List.mem_reverse.mp (List.mem_of_find?_eq_some h)

theorem mem_targets_iff {ns : List Numbered} {a b : Numbered} :
    b ∈ (referenceGraph ns).targets a ↔ ∃ ref ∈ a.1.references, resolve? ns ref = some b := by
  simp only [referenceGraph, List.mem_filterMap]

theorem referenceGraph_contained (ns : List Numbered) : (referenceGraph ns).Contained := by
  intro a _ b hb
  obtain ⟨ref, _, href⟩ := mem_targets_iff.mp hb
  exact mem_of_resolve? href

/-- The chains of references among the records are those of the graph. -/
theorem exists_leads_iff {rs : List Record} {a : Numbered} {r : Record} :
    (∃ i, (referenceGraph rs.zipIdx).Leads a (r, i)) ↔ ReflTransGen (RefersTo rs) a.1 r := by
  constructor
  · rintro ⟨i, hl⟩
    rw [Graph.leads_iff_reflTransGen] at hl
    refine ReflTransGen.lift (p := RefersTo rs) Prod.fst ?_ a (r, i) hl
    intro m n hn
    obtain ⟨ref, href, hres⟩ := mem_targets_iff.mp hn
    exact ⟨ref, href, n.2, hres⟩
  · intro hr
    induction hr with
    | refl => exact ⟨a.2, .refl a⟩
    | tail _ hbc ih =>
        obtain ⟨i, hi⟩ := ih
        obtain ⟨ref, href, j, hres⟩ := hbc
        exact ⟨j, hi.tail (mem_targets_iff.mpr ⟨ref, href, hres⟩)⟩

section distinct

variable {rs : List Record} (h : (rs.map (·.resourcePath)).Nodup)
include h

theorem numbered_path_inj {a b : Numbered} (ha : a ∈ rs.zipIdx) (hb : b ∈ rs.zipIdx)
    (he : a.1.resourcePath = b.1.resourcePath) : a = b := by
  have hn : (rs.zipIdx.map fun n => n.1.resourcePath).Nodup := by
    rw [← List.zipIdx_map_fst 0 rs, List.map_map] at h
    exact h
  exact List.inj_on_of_nodup_map hn ha hb he

theorem referenceGraph_closed : (referenceGraph rs.zipIdx).Closed where
  targets_mem := referenceGraph_contained rs.zipIdx
  path_inj _ ha _ hb he := numbered_path_inj h ha hb he

/-- The search from a record finds the records that it leads to. -/
theorem mem_reached_iff {root : Numbered} (hr : root ∈ rs.zipIdx) {r : Record} :
    r ∈ ((referenceGraph rs.zipIdx).reach root).nodes.map (·.1)
      ↔ ReflTransGen (RefersTo rs) root.1 r := by
  rw [← exists_leads_iff, List.mem_map]
  constructor
  · rintro ⟨⟨_, i⟩, hn, rfl⟩
    exact ⟨i, (Graph.mem_reach_nodes (referenceGraph_closed h) hr).mp hn⟩
  · rintro ⟨i, hl⟩
    exact ⟨(r, i), (Graph.mem_reach_nodes (referenceGraph_closed h) hr).mpr hl, rfl⟩

theorem reached_nodup {root : Numbered} (hr : root ∈ rs.zipIdx) :
    (((referenceGraph rs.zipIdx).reach root).nodes.map (·.1)).Nodup := by
  have hg := referenceGraph_closed h
  have hmem : ∀ n ∈ ((referenceGraph rs.zipIdx).reach root).nodes, n ∈ rs.zipIdx :=
    fun n hn => ((Graph.mem_reach_nodes hg hr).mp hn).mem_nodes hg hr
  refine List.Nodup.map_on (fun m hm n hn he => ?_) (Graph.reach_nodes_nodup hg hr)
  exact numbered_path_inj h (hmem m hm) (hmem n hn) (congrArg Record.resourcePath he)

end distinct

/-! ### The entries of a snapshot -/

/-- The paths that the searches from visible records find. -/
def visiblePaths (rs : List Record) : List Text :=
  ((rs.zipIdx.map fun root => (root.1.hidden, (referenceGraph rs.zipIdx).reach root)).filter
    (!·.1)).flatMap fun s => s.2.nodes.map fun r => r.1.resourcePath

theorem mem_visiblePaths_iff {rs : List Record} (h : (rs.map (·.resourcePath)).Nodup)
    {r : Record} (hr : r ∈ rs) : r.resourcePath ∈ visiblePaths rs
      ↔ ∃ v ∈ rs, v.hidden = false ∧ ReflTransGen (RefersTo rs) v r := by
  simp only [visiblePaths, List.mem_flatMap, List.mem_filter, List.mem_map, Bool.not_eq_true']
  constructor
  · rintro ⟨_, ⟨⟨root, hroot, rfl⟩, hv⟩, n, hn, hp⟩
    have hn' : n.1 ∈ ((referenceGraph rs.zipIdx).reach root).nodes.map (·.1) :=
      List.mem_map_of_mem hn
    have hl := (mem_reached_iff h hroot).mp hn'
    have hg := referenceGraph_closed h
    have hmem : n ∈ rs.zipIdx :=
      ((Graph.mem_reach_nodes hg hroot).mp hn).mem_nodes hg hroot
    have he : n.1 = r := List.inj_on_of_nodup_map h (List.fst_mem_of_mem_zipIdx hmem) hr hp
    exact ⟨root.1, List.fst_mem_of_mem_zipIdx hroot, hv, he ▸ hl⟩
  · rintro ⟨v, hv, hvis, hl⟩
    rw [← List.zipIdx_map_fst 0 rs] at hv
    obtain ⟨root, hroot, rfl⟩ := List.mem_map.mp hv
    obtain ⟨n, hn, rfl⟩ := List.mem_map.mp ((mem_reached_iff h hroot).mpr hl)
    exact ⟨_, ⟨⟨root, hroot, rfl⟩, hvis⟩, n, hn, rfl⟩

open Snapshot (sortRecords)

theorem sortRecords_perm (records : List Record) : (sortRecords records).Perm records :=
  List.mergeSort_perm _ _

theorem sortRecords_nodup {records : List Record}
    (h : (records.map (·.resourcePath)).Nodup) :
    ((sortRecords records).map (·.resourcePath)).Nodup :=
  ((sortRecords_perm records).map _).nodup_iff.mpr h

/-- The entries are those of the records, internal unless a visible record leads there. -/
theorem mem_entries_iff {records : List Record} (h : (records.map (·.resourcePath)).Nodup)
    {e : Entry} : e ∈ (Snapshot.ofRecords records).1.entries ↔ ∃ r ∈ records,
      e.name ∈ r.ownScopes ∧ e.source = r.resourcePath ∧ e.packageId = r.packageId ∧
      (e.internal = true ↔ r.hidden = true ∧ ∀ v ∈ records, v.hidden = false →
        ¬ ReflTransGen (RefersTo (sortRecords records)) v r) := by
  have hs := sortRecords_nodup h
  have hmem : ∀ r, r ∈ sortRecords records ↔ r ∈ records :=
    fun r => (sortRecords_perm records).mem_iff
  have hinternal : ∀ r ∈ records,
      ((r.hidden && !(visiblePaths (sortRecords records)).contains r.resourcePath) = true ↔
        r.hidden = true ∧ ∀ v ∈ records, v.hidden = false →
          ¬ ReflTransGen (RefersTo (sortRecords records)) v r) := by
    intro r hr
    have hv := mem_visiblePaths_iff hs ((hmem r).mpr hr)
    simp only [Bool.and_eq_true, Bool.not_eq_true', ← Bool.not_eq_true, List.contains_iff_mem,
      hv, hmem, not_exists, not_and]
  have hentries : (Snapshot.ofRecords records).1.entries =
      ((sortRecords records).flatMap fun r => r.entries (r.hidden &&
        !(visiblePaths (sortRecords records)).contains r.resourcePath)).mergeSort Entry.le := rfl
  rw [hentries, List.mem_mergeSort, List.mem_flatMap]
  simp only [Record.entries, List.mem_map, hmem]
  constructor
  · rintro ⟨r, hr, name, hname, rfl⟩
    exact ⟨r, hr, hname, rfl, rfl, hinternal r hr⟩
  · rintro ⟨r, hr, hname, hsource, hpackage, hint⟩
    refine ⟨r, hr, e.name, hname, ?_⟩
    obtain ⟨name, source, packageId, internal⟩ := e
    obtain rfl := hsource
    obtain rfl := hpackage
    have hb := Bool.eq_iff_iff.mpr (hint.trans (hinternal r hr).symm)
    simp only at hb
    rw [hb]

/-- **Visibility.**  Among records with paths of their own, the search from a record ends and
finds the record first, what the record leads to once, and nothing else; and the entries of the
snapshot are those of the records, internal when the record is hidden and no visible record leads
to it. -/
theorem visibility (records : List Record) (h : (records.map (·.resourcePath)).Nodup) :
    (∀ e, e ∈ (Snapshot.ofRecords records).1.entries ↔ ∃ r ∈ records,
      e.name ∈ r.ownScopes ∧ e.source = r.resourcePath ∧ e.packageId = r.packageId ∧
      (e.internal = true ↔ r.hidden = true ∧ ∀ v ∈ records, v.hidden = false →
        ¬ ReflTransGen (RefersTo (sortRecords records)) v r)) ∧
    ∀ root ∈ records.zipIdx,
      (∃ s, Graph.Search.Ends (referenceGraph records.zipIdx)
          (.start (referenceGraph records.zipIdx) root) s ∧
        (referenceGraph records.zipIdx).reach root = ⟨s.found.reverse, s.cycles.reverse⟩) ∧
      ∀ found, found = ((referenceGraph records.zipIdx).reach root).nodes.map (·.1) →
        found.head? = some root.1 ∧ found.Nodup ∧
        ∀ r, r ∈ found ↔ ReflTransGen (RefersTo records) root.1 r := by
  refine ⟨fun e => ?_, fun root hroot => ⟨?_, ?_⟩⟩
  · rw [mem_entries_iff h]
  · obtain ⟨s, hs, _, he⟩ := Graph.reach_ends (referenceGraph_closed h) hroot
    exact ⟨s, hs, he⟩
  · rintro found rfl
    refine ⟨?_, reached_nodup h hroot, fun r => mem_reached_iff h hroot⟩
    rw [List.head?_map, Graph.head_reach_nodes (referenceGraph_closed h) hroot]
    rfl

/-- A visible record and a hidden one that refers to itself and back. -/
def ring : List Record :=
  [⟨"A", "P", none, false, ["a"], [.scope "b"]⟩,
    ⟨"B", "P", some "b", true, ["b"], [.scope "b", .path "A"]⟩]

/-- The visible record makes the scope of the hidden one visible. -/
theorem visibility_ring : (ring.map (·.resourcePath)).Nodup ∧
    ⟨"b", "B", "P", false⟩ ∈ (Snapshot.ofRecords ring).1.entries := by
  have hd : (ring.map (·.resourcePath)).Nodup := by decide
  have hs : sortRecords ring = ring := List.mergeSort_of_pairwise (by decide)
  have hr : RefersTo (sortRecords ring) ring[0] ring[1] := by
    rw [hs]
    exact ⟨.scope "b", List.mem_singleton_self _, 1, rfl⟩
  refine ⟨hd, ((visibility ring hd).1 _).mpr ⟨ring[1], by decide, by decide, rfl, rfl, ?_⟩⟩
  constructor
  · intro h
    exact absurd h Bool.false_ne_true
  · rintro ⟨_, hn⟩
    exact absurd (.single hr) (hn ring[0] (by decide) rfl)

end Registry
end Scopewright
