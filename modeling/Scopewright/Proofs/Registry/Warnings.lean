import Scopewright.Proofs.Registry.Cycles
import Scopewright.Proofs.Registry.Preview
import Scopewright.Proofs.Registry.Visibility
import Scopewright.Proofs.Text.Order
import Scopewright.Proofs.Text.Split

/-! # The warnings of a snapshot

The searches from all records meet cycles of references (`metCycles`), the same ones from several
records.  A snapshot warns of one cycle for each set of members (`cycleKey_eq_iff`), and a cycle is
met wherever two records lead to each other (`exists_metCycle`), so it warns of nothing only when the
references between different records make no cycle (`cycle_warnings`).

When a registry tells what a file contributes, it warns of each cycle that the search from the
record of the file meets (`met`), and not of one for each set of members.  A search meets a cycle once
for each reference of its last record to its first one, so the warning of a record that refers back
twice comes twice (`index_warnings`). -/

namespace Scopewright
namespace Registry

open Relation (ReflTransGen TransGen)
open Snapshot (sortRecords distinctCycles cycleWarning)

/-! ### One cycle for each key -/

/-- By this text a cycle is known again. -/
def cycleKey (cycle : List Text) : Text := Text.join "\n" (Text.sortUnique cycle)

/-- The keys seen and the cycles kept so far, with one more cycle. -/
def keep : List Text × List (List Text) → List Text → List Text × List (List Text)
  | (seen, kept), cycle =>
    if seen.contains (cycleKey cycle) then (seen, kept) else (cycleKey cycle :: seen, cycle :: kept)

/-- Of some cycles one is kept for each key. -/
structure Kept (cycles : List (List Text)) (s : List Text × List (List Text)) : Prop where
  seen : s.1 = s.2.map cycleKey
  nodup : s.1.Nodup
  subset : s.2 ⊆ cycles
  covers : ∀ c ∈ cycles, cycleKey c ∈ s.1

theorem Kept.keep {cycles : List (List Text)} {s : List Text × List (List Text)}
    (h : Kept cycles s) (c : List Text) : Kept (cycles ++ [c]) (keep s c) := by
  obtain ⟨seen, kept⟩ := s
  have hsubset : kept ⊆ cycles ++ [c] := fun d hd => List.mem_append_left [c] (h.subset hd)
  rw [Registry.keep]
  split
  · rename_i hc
    refine ⟨h.seen, h.nodup, hsubset, fun d hd => ?_⟩
    rcases List.mem_append.mp hd with hd | hd
    · exact h.covers d hd
    · rw [List.mem_singleton.mp hd]
      exact List.contains_iff_mem.mp hc
  · rename_i hc
    rw [List.contains_iff_mem] at hc
    refine ⟨congrArg (cycleKey c :: ·) h.seen, List.nodup_cons.mpr ⟨hc, h.nodup⟩, ?_,
      fun d hd => ?_⟩
    · exact List.cons_subset.mpr ⟨List.mem_append_right _ (List.mem_singleton_self c), hsubset⟩
    · rcases List.mem_append.mp hd with hd | hd
      · exact List.mem_cons_of_mem _ (h.covers d hd)
      · rw [List.mem_singleton.mp hd]
        exact List.mem_cons_self

theorem kept_foldl (cycles : List (List Text)) : Kept cycles (cycles.foldl keep ([], [])) := by
  induction cycles using List.reverseRecOn with
  | nil => exact ⟨rfl, List.nodup_nil, List.Subset.refl _, fun _ h => absurd h List.not_mem_nil⟩
  | append_singleton cycles c ih =>
      rw [List.foldl_concat]
      exact ih.keep c

theorem distinctCycles_eq (cycles : List (List Text)) :
    distinctCycles cycles = (cycles.foldl keep ([], [])).2.reverse := rfl

theorem distinctCycles_subset (cycles : List (List Text)) : distinctCycles cycles ⊆ cycles := by
  intro c hc
  rw [distinctCycles_eq, List.mem_reverse] at hc
  exact (kept_foldl cycles).subset hc

theorem distinctCycles_pairwise (cycles : List (List Text)) :
    (distinctCycles cycles).Pairwise fun c d => cycleKey c ≠ cycleKey d := by
  have h := (kept_foldl cycles).nodup
  rw [(kept_foldl cycles).seen, List.Nodup, List.pairwise_map] at h
  rw [distinctCycles_eq, List.pairwise_reverse]
  exact h.imp Ne.symm

theorem exists_mem_distinctCycles {cycles : List (List Text)} {c : List Text} (hc : c ∈ cycles) :
    ∃ d ∈ distinctCycles cycles, cycleKey d = cycleKey c := by
  have h := (kept_foldl cycles).covers c hc
  rw [(kept_foldl cycles).seen] at h
  obtain ⟨d, hd, hkey⟩ := List.mem_map.mp h
  exact ⟨d, by rwa [distinctCycles_eq, List.mem_reverse], hkey⟩

/-- Members without line breaks can be read back from the key. -/
theorem splitOn_cycleKey {c : List Text} (hne : c ≠ []) (hlines : ∀ p ∈ c, CodeUnit.ofBasic '\n' ∉ p) :
    Text.splitOn '\n' (cycleKey c) = Text.sortUnique c := by
  cases hs : Text.sortUnique c with
  | nil =>
      obtain ⟨p, hp⟩ := List.exists_mem_of_ne_nil c hne
      exact absurd (hs ▸ Text.mem_sortUnique.mpr hp) List.not_mem_nil
  | cons p ps =>
      rw [cycleKey, hs]
      exact Text.splitOn_join p ps fun q hq => hlines q (Text.mem_sortUnique.mp (hs ▸ hq))

/-- Cycles have one key when they have the same members. -/
theorem cycleKey_eq_iff {c d : List Text} (hc : c ≠ []) (hd : d ≠ [])
    (hlines : ∀ p ∈ c ++ d, CodeUnit.ofBasic '\n' ∉ p) : cycleKey c = cycleKey d ↔ SameMembers c d := by
  rw [SameMembers, ← Text.sortUnique_eq_iff]
  constructor
  · intro h
    rw [← splitOn_cycleKey hc fun p hp => hlines p (List.mem_append_left _ hp), h,
      splitOn_cycleKey hd fun p hp => hlines p (List.mem_append_right _ hp)]
  · exact congrArg (Text.join "\n")

/-! ### Cycles of references -/

/-- The paths of a cycle of references among some records: different records, at least two of them,
each referring to the next one and the last one to the first; the first path comes again at the
end. -/
def IsCycle (rs : List Record) (c : List Text) : Prop :=
  ∃ r others, others ≠ [] ∧ r :: others ⊆ rs ∧ ((r :: others).map (·.resourcePath)).Nodup ∧
    (r :: others ++ [r]).IsChain (RefersTo rs) ∧ c = (r :: others ++ [r]).map (·.resourcePath)

/-- The cycles that the searches from all records meet. -/
def metCycles (rs : List Record) : List (List Text) :=
  rs.zipIdx.flatMap fun root => ((referenceGraph rs.zipIdx).reach root).cycles

theorem warnings_eq (records : List Record) : (Snapshot.ofRecords records).2 =
    (distinctCycles (metCycles (sortRecords records))).map cycleWarning := by
  simp only [Snapshot.ofRecords, metCycles, List.flatMap_map]

theorem IsCycle.mem_paths {rs : List Record} {c : List Text} (h : IsCycle rs c) {p : Text}
    (hp : p ∈ c) : ∃ r ∈ rs, r.resourcePath = p := by
  obtain ⟨r, others, _, hsubset, _, _, rfl⟩ := h
  obtain ⟨s, hs, rfl⟩ := List.mem_map.mp hp
  refine ⟨s, hsubset ?_, rfl⟩
  rcases List.mem_append.mp hs with hs | hs
  · exact hs
  · rw [List.mem_singleton.mp hs]
    exact List.mem_cons_self

theorem IsCycle.ne_nil {rs : List Record} {c : List Text} (h : IsCycle rs c) : c ≠ [] := by
  obtain ⟨r, others, _, _, _, _, rfl⟩ := h
  exact List.cons_ne_nil _ _

/-- A chain of references can do without those of a record to itself. -/
theorem reflTransGen_ne_iff {α : Type} {R : α → α → Prop} {a b : α} :
    ReflTransGen (fun a b => R a b ∧ a ≠ b) a b ↔ ReflTransGen R a b := by
  constructor
  · intro h
    induction h with
    | refl => exact .refl
    | tail _ hbc ih => exact ih.tail hbc.1
  · intro h
    induction h with
    | refl => exact .refl
    | @tail b c _ hbc ih =>
        by_cases hne : b = c
        · exact hne ▸ ih
        · exact ih.tail ⟨hbc, hne⟩

/-- A cycle of references leads from its first record to itself over other ones. -/
theorem IsCycle.exists_transGen {rs : List Record} {c : List Text} (h : IsCycle rs c) :
    ∃ r, TransGen (fun a b => RefersTo rs a b ∧ a ≠ b) r r := by
  obtain ⟨r, others, hothers, _, hnodup, hchain, _⟩ := h
  cases others with
  | nil => exact absurd rfl hothers
  | cons s others =>
      have hrs : r ≠ s := by
        rintro rfl
        exact (List.nodup_cons.mp hnodup).1 (List.mem_map_of_mem List.mem_cons_self)
      rw [List.cons_append, List.cons_append, List.isChain_cons_cons] at hchain
      have hback : ReflTransGen (RefersTo rs) s r := by
        refine List.relationReflTransGen_of_exists_isChain_cons (others ++ [r]) hchain.2 ?_
        exact List.getLast_concat (l := s :: others)
      exact ⟨r, .head' ⟨hchain.1, hrs⟩ (reflTransGen_ne_iff.mpr hback)⟩

section distinct

variable {rs : List Record} (h : (rs.map (·.resourcePath)).Nodup)
include h

/-- A search meets cycles of references. -/
theorem isCycle_of_mem_reach {root : Numbered} (hroot : root ∈ rs.zipIdx) {c : List Text}
    (hc : c ∈ ((referenceGraph rs.zipIdx).reach root).cycles) : IsCycle rs c := by
  obtain ⟨n, rest, hrest, hsubset, hnodup, hchain, rfl⟩ :=
    Graph.isCycle_of_mem_cycles (referenceGraph_closed h) hroot hc
  have hrecords : n.1 :: rest.map (·.1) = (n :: rest).map (·.1) := rfl
  have hends : n.1 :: rest.map (·.1) ++ [n.1] = (n :: rest ++ [n]).map (·.1) := by
    rw [List.map_append]
    rfl
  refine ⟨n.1, rest.map (·.1), mt List.map_eq_nil_iff.mp hrest, ?_, ?_, ?_, ?_⟩
  · rw [hrecords]
    intro r hr
    obtain ⟨m, hm, rfl⟩ := List.mem_map.mp hr
    exact List.fst_mem_of_mem_zipIdx (hsubset hm)
  · rw [hrecords, List.map_map]
    exact hnodup
  · rw [hends]
    refine List.isChain_map_of_isChain (·.1) (fun a b hab => ?_) hchain
    obtain ⟨ref, href, hresolve⟩ := mem_targets_iff.mp hab
    exact ⟨ref, href, b.2, hresolve⟩
  · rw [hends, List.map_map]
    rfl

/-- A search meets a cycle with each reference back to its root. -/
theorem exists_cycle_back {root : Numbered} (hroot : root ∈ rs.zipIdx) {u : Record}
    (hne : u ≠ root.1) (hu : ReflTransGen (RefersTo rs) root.1 u) (hback : RefersTo rs u root.1) :
    ∃ c ∈ ((referenceGraph rs.zipIdx).reach root).cycles,
      [u.resourcePath, root.1.resourcePath] <:+ c ∧ ∀ p ∈ c, ∃ m ∈ rs, m.resourcePath = p ∧
        ReflTransGen (RefersTo rs) root.1 m ∧ ReflTransGen (RefersTo rs) m u := by
  have hg := referenceGraph_closed h
  obtain ⟨v, hv, rfl⟩ := List.mem_map.mp ((mem_reached_iff h hroot).mpr hu)
  obtain ⟨ref, href, i, hresolve⟩ := hback
  rw [numbered_path_inj h (mem_of_resolve? hresolve) hroot rfl] at hresolve
  obtain ⟨c, hc, hsuffix, hmem⟩ := Graph.exists_cycle_of_root hg.targets_mem hroot hv
    (mem_targets_iff.mpr ⟨ref, href, hresolve⟩) fun heq => hne (congrArg Prod.fst heq).symm
  refine ⟨c, hc, hsuffix, fun p hp => ?_⟩
  obtain ⟨n, hn, hpath, hleads⟩ := hmem p hp
  have hnodes := (Graph.mem_reach_nodes hg hroot).mp hn
  exact ⟨n.1, List.fst_mem_of_mem_zipIdx (hnodes.mem_nodes hg hroot), hpath,
    exists_leads_iff.mp ⟨n.2, hnodes⟩, exists_leads_iff.mp ⟨v.2, hleads⟩⟩

theorem isCycle_of_mem_metCycles {c : List Text} (hc : c ∈ metCycles rs) : IsCycle rs c := by
  obtain ⟨root, hroot, hc⟩ := List.mem_flatMap.mp hc
  exact isCycle_of_mem_reach h hroot hc

/-- The cycles that are met are told apart by their keys. -/
theorem cycleKey_eq_iff_of_met (hlines : ∀ r ∈ rs, CodeUnit.ofBasic '\n' ∉ r.resourcePath) {c d : List Text}
    (hc : c ∈ metCycles rs) (hd : d ∈ metCycles rs) :
    cycleKey c = cycleKey d ↔ SameMembers c d := by
  have hc := isCycle_of_mem_metCycles h hc
  have hd := isCycle_of_mem_metCycles h hd
  refine cycleKey_eq_iff hc.ne_nil hd.ne_nil fun p hp => ?_
  have hp : ∃ r ∈ rs, r.resourcePath = p := by
    rcases List.mem_append.mp hp with hp | hp
    · exact hc.mem_paths hp
    · exact hd.mem_paths hp
  obtain ⟨r, hr, rfl⟩ := hp
  exact hlines r hr

/-- Where two records lead to each other a cycle is met. -/
theorem exists_metCycle {r s : Record} (hne : r ≠ s) (hrs : ReflTransGen (RefersTo rs) r s)
    (hsr : ReflTransGen (RefersTo rs) s r) : ∃ c ∈ metCycles rs, ∀ p ∈ c, ∃ m ∈ rs,
      m.resourcePath = p ∧ ReflTransGen (RefersTo rs) r m ∧ ReflTransGen (RefersTo rs) m r := by
  -- the last reference on the way back comes from another record
  obtain heq | ⟨u, hsu, hur, hne'⟩ := (reflTransGen_ne_iff.mpr hsr).cases_tail
  · exact absurd heq hne
  obtain ⟨ref, href, i, hresolve⟩ := id hur
  have hroot : (r, i) ∈ rs.zipIdx := mem_of_resolve? hresolve
  obtain ⟨c, hc, _, hmem⟩ := exists_cycle_back h hroot hne'
    (hrs.trans (reflTransGen_ne_iff.mp hsu)) hur
  refine ⟨c, List.mem_flatMap.mpr ⟨(r, i), hroot, hc⟩, fun p hp => ?_⟩
  obtain ⟨m, hm, hpath, hrm, hmu⟩ := hmem p hp
  exact ⟨m, hm, hpath, hrm, hmu.tail hur⟩

end distinct

/-! ### What is warned of -/

/-- The cycles that the snapshot of some records warns of. -/
def warnedCycles (records : List Record) : List (List Text) :=
  distinctCycles (metCycles (sortRecords records))

/-- **Warnings.**  Among records with paths of their own, without line breaks in them, a snapshot
warns of cycles of references through different records.  No two of these have the same members;
where two records lead to each other, one of them goes only through records that both lead to and
that lead to both; and there are some exactly when the references between different records make a
cycle. -/
theorem cycle_warnings (records : List Record) (hpaths : (records.map (·.resourcePath)).Nodup)
    (hlines : ∀ r ∈ records, CodeUnit.ofBasic '\n' ∉ r.resourcePath) :
    (Snapshot.ofRecords records).2 = (warnedCycles records).map cycleWarning ∧
    (∀ c ∈ warnedCycles records, IsCycle (sortRecords records) c) ∧
    ((warnedCycles records).Pairwise fun c d => ¬ SameMembers c d) ∧
    (∀ r s, r ≠ s → ReflTransGen (RefersTo (sortRecords records)) r s →
      ReflTransGen (RefersTo (sortRecords records)) s r →
      ∃ c ∈ warnedCycles records, ∀ p ∈ c, ∃ m ∈ records, m.resourcePath = p ∧
        ReflTransGen (RefersTo (sortRecords records)) r m ∧
        ReflTransGen (RefersTo (sortRecords records)) m r) ∧
    ((Snapshot.ofRecords records).2 ≠ [] ↔
      ∃ r, TransGen (fun a b => RefersTo (sortRecords records) a b ∧ a ≠ b) r r) := by
  have hsorted := sortRecords_nodup hpaths
  have hmem : ∀ r, r ∈ sortRecords records ↔ r ∈ records :=
    fun r => (sortRecords_perm records).mem_iff
  have hkey : ∀ c ∈ metCycles (sortRecords records), ∀ d ∈ metCycles (sortRecords records),
      (cycleKey c = cycleKey d ↔ SameMembers c d) := by
    intro c hc d hd
    exact cycleKey_eq_iff_of_met hsorted (fun r hr => hlines r ((hmem r).mp hr)) hc hd
  have hmet := distinctCycles_subset (metCycles (sortRecords records))
  have hparts : ∀ r s, r ≠ s → ReflTransGen (RefersTo (sortRecords records)) r s →
      ReflTransGen (RefersTo (sortRecords records)) s r →
      ∃ c ∈ warnedCycles records, ∀ p ∈ c, ∃ m ∈ records, m.resourcePath = p ∧
        ReflTransGen (RefersTo (sortRecords records)) r m ∧
        ReflTransGen (RefersTo (sortRecords records)) m r := by
    intro r s hne hrs hsr
    obtain ⟨c, hc, hpart⟩ := exists_metCycle hsorted hne hrs hsr
    -- what is kept of this cycle has its members
    obtain ⟨d, hd, heq⟩ := exists_mem_distinctCycles hc
    refine ⟨d, hd, fun p hp => ?_⟩
    obtain ⟨m, hm, hpart⟩ := hpart p (((hkey d (hmet hd) c hc).mp heq p).mp hp)
    exact ⟨m, (hmem m).mp hm, hpart⟩
  refine ⟨warnings_eq records, fun c hc => isCycle_of_mem_metCycles hsorted (hmet hc), ?_, hparts,
    ?_⟩
  · refine (distinctCycles_pairwise _).imp_of_mem fun {c d} hc hd hne hsame => ?_
    exact hne ((hkey c (hmet hc) d (hmet hd)).mpr hsame)
  · rw [warnings_eq, Ne, List.map_eq_nil_iff]
    constructor
    · intro hne
      obtain ⟨c, hc⟩ := List.exists_mem_of_ne_nil _ hne
      exact (isCycle_of_mem_metCycles hsorted (hmet hc)).exists_transGen
    · rintro ⟨r, hr⟩ hnil
      obtain ⟨s, ⟨hrs, hne⟩, hsr⟩ := TransGen.head'_iff.mp hr
      obtain ⟨c, hc, _⟩ := hparts r s hne (.single hrs) (reflTransGen_ne_iff.mp hsr)
      rw [warnedCycles, hnil] at hc
      exact absurd hc List.not_mem_nil

/-- The two records that refer to each other are warned of. -/
theorem cycle_warnings_ring : (ring.map (·.resourcePath)).Nodup ∧
    (∀ r ∈ ring, CodeUnit.ofBasic '\n' ∉ r.resourcePath) ∧ (Snapshot.ofRecords ring).2 ≠ [] := by
  have hpaths : (ring.map (·.resourcePath)).Nodup := by decide
  have hlines : ∀ r ∈ ring, CodeUnit.ofBasic '\n' ∉ r.resourcePath := by decide
  have hs : sortRecords ring = ring := List.mergeSort_of_pairwise (by decide)
  have hdown : RefersTo ring ring[0] ring[1] := ⟨.scope "b", List.mem_singleton_self _, 1, rfl⟩
  have hup : RefersTo ring ring[1] ring[0] := ⟨.path "A", by decide, 0, rfl⟩
  refine ⟨hpaths, hlines, (cycle_warnings ring hpaths hlines).2.2.2.2.mpr ⟨ring[0], ?_⟩⟩
  rw [hs]
  exact .tail (.single ⟨hdown, by decide⟩) ⟨hup, by decide⟩

/-! ### Warnings that come twice -/

/-- The records that a new record is asked with. -/
def asked (R : Registry) (r : Record) : List Numbered := (withRecord R r).zipIdx

/-- What the search from a new record finds. -/
def met (R : Registry) (r : Record) : Graph.Reached Numbered :=
  (referenceGraph (asked R r)).reach (r, 0)

/-- The references of a record are counted as it lists them. -/
theorem countP_targets (ns : List Numbered) (u : Numbered) (p : Numbered → Bool) :
    ((referenceGraph ns).targets u).countP p =
      u.1.references.countP fun ref => (resolve? ns ref).any p := by
  have htargets : (referenceGraph ns).targets u = u.1.references.filterMap (resolve? ns) := rfl
  rw [htargets, List.countP_filterMap]
  refine List.countP_congr fun ref _ => ?_
  cases resolve? ns ref with
  | none => exact Iff.rfl
  | some t => exact Iff.rfl

theorem mem_asked (R : Registry) (r : Record) : (r, 0) ∈ asked R r := List.mem_cons_self

theorem snd_index {R : Registry} {file : File} {r : Record} (h : Record.ofFile file = .ok r) :
    (R.index file).2 = (met R r).cycles.map cycleWarning := by
  simp only [index, h]
  rfl

/-- Records with paths of their own: a cycle is met once for each reference of its last record that
stands for its first one. -/
theorem count_met {R : Registry} {r : Record}
    (h : (R.snapshot.records.map (·.resourcePath)).Nodup) {c : List Text}
    (hc : c ∈ (met R r).cycles) : ∃ u ∈ asked R r, ∃ t ∈ asked R r,
      [u.1.resourcePath, t.1.resourcePath] <:+ c ∧
      (met R r).cycles.count c = u.1.references.countP fun ref =>
        decide (resolve? (asked R r) ref = some t) := by
  have hg := referenceGraph_closed (withRecord_paths (r := r) h)
  obtain ⟨u, hu, t, ht, hsuffix, hcount⟩ := Graph.count_cycles_of_closed hg (mem_asked R r) hc
  refine ⟨u, hu, t, ht, hsuffix, hcount.trans ((countP_targets (asked R r) u _).trans ?_)⟩
  refine List.countP_congr fun ref _ => ?_
  rw [Option.any_eq_true, decide_eq_true_eq]
  simp only [beq_iff_eq, exists_eq_right]

/-- **Repeats.**  A file that cannot be indexed is not warned of with cycles.  Of a file that can be
indexed, the cycles that the search from its record meets are warned of.  No two of them have the
same members exactly when none comes twice and none is only the last reference of another, and a
cycle comes as often as its last record refers to a record with its first path that closes it.

When no two stored records have one path, these are cycles of references; one is met with each
reference back to the record of the file; no two have the same members exactly when none comes
twice; and a cycle comes as often as its last record refers to its first one. -/
theorem index_warnings (R : Registry) (file : File) :
    (∀ f, Record.ofFile file = .error f → (R.index file).2 = [⟨.warn, f.message⟩]) ∧
    ∀ r, Record.ofFile file = .ok r →
      (R.index file).2 = (met R r).cycles.map cycleWarning ∧
      (((met R r).cycles.Pairwise fun c d => ¬ SameMembers c d) ↔ (met R r).cycles.Nodup ∧
        ∀ p q, [q, p] ∈ (met R r).cycles → [p, q, p] ∉ (met R r).cycles) ∧
      (∀ c ∈ (met R r).cycles, ∃ u ∈ (met R r).nodes, ∃ p, [u.1.resourcePath, p] <:+ c ∧
        (met R r).cycles.count c = u.1.references.countP fun ref =>
          (resolve? (asked R r) ref).any fun t => decide (t ≠ u ∧ t.1.resourcePath = p ∧
            (t ∈ (met R r).nodes ↔ 2 < c.length))) ∧
      ((R.snapshot.records.map (·.resourcePath)).Nodup →
        (∀ c ∈ (met R r).cycles, IsCycle (withRecord R r) c) ∧
        (∀ u, u ≠ r → ReflTransGen (RefersTo (withRecord R r)) r u →
          RefersTo (withRecord R r) u r →
          ∃ c ∈ (met R r).cycles, [u.resourcePath, r.resourcePath] <:+ c) ∧
        (((met R r).cycles.Pairwise fun c d => ¬ SameMembers c d) ↔ (met R r).cycles.Nodup) ∧
        ∀ c ∈ (met R r).cycles, ∃ u ∈ asked R r, ∃ t ∈ asked R r,
          [u.1.resourcePath, t.1.resourcePath] <:+ c ∧
          (met R r).cycles.count c = u.1.references.countP fun ref =>
            decide (resolve? (asked R r) ref = some t)) := by
  refine ⟨fun f hf => by simp only [index, hf], fun r hr => ⟨snd_index hr, ?_, ?_, fun h => ?_⟩⟩
  · exact Graph.cycles_apart_iff (referenceGraph_contained (asked R r)) (mem_asked R r)
  · intro c hc
    obtain ⟨u, hu, p, hsuffix, hcount⟩ :=
      Graph.count_cycles (referenceGraph_contained (asked R r)) (mem_asked R r) hc
    refine ⟨u, hu, p, hsuffix, hcount.trans ((countP_targets (asked R r) u _).trans ?_)⟩
    refine List.countP_congr fun ref _ => ?_
    simp only [Option.any_eq_true, decide_eq_true_eq]
    exact Iff.rfl
  · have hpaths := withRecord_paths (r := r) h
    refine ⟨fun c hc => isCycle_of_mem_reach hpaths (mem_asked R r) hc, fun u hne hu hback => ?_,
      Graph.cycles_apart_iff_nodup (referenceGraph_closed hpaths) (mem_asked R r),
      fun c hc => count_met h hc⟩
    obtain ⟨c, hc, hsuffix, _⟩ := exists_cycle_back hpaths (mem_asked R r) hne hu hback
    exact ⟨c, hc, hsuffix⟩

/-! ### A cycle that comes twice -/

/-- A syntax that refers to another one. -/
def asker : Record := ⟨pathOf "A", "P", some "a", false, ["a"], [.scope "b"]⟩

/-- That one refers back twice. -/
def answerer : Record := ⟨pathOf "B", "P", some "b", false, ["b"], [.scope "a", .scope "a"]⟩

/-- A registry with the second one. -/
def answering : List Change :=
  [.replace "P" [fileOf "B" "scope: b\nx:\n- include: scope:a\n- include: scope:a"]]

/-- The file of the first one. -/
def askerFile : File := fileOf "A" "scope: a\ninclude: scope:b"

theorem ofFile_asker : Record.ofFile askerFile = .ok asker := ofFile_eq_ok (by decide +kernel)

theorem records_answering : (after answering).snapshot.records = [answerer] := by
  have hpackages : (after answering).packages.flatMap (·.2) = [answerer] := by decide +kernel
  rw [records_after, hpackages, Snapshot.sortRecords, List.mergeSort_singleton]

theorem met_answering : (met (after answering) asker).cycles =
    [[pathOf "A", pathOf "B", pathOf "A"], [pathOf "A", pathOf "B", pathOf "A"]] := by
  have hrecords : withRecord (after answering) asker = [asker, answerer] := by
    rw [withRecord, records_answering]
    decide
  rw [met, asked, hrecords]
  decide +kernel

/-- No two stored records have one path, and the members do not tell the warnings apart. -/
theorem index_warnings_answering : Record.ofFile askerFile = .ok asker ∧
    ((after answering).snapshot.records.map (·.resourcePath)).Nodup ∧
    ¬ (met (after answering) asker).cycles.Pairwise fun c d => ¬ SameMembers c d := by
  have hpaths : ((after answering).snapshot.records.map (·.resourcePath)).Nodup := by
    rw [records_answering]
    exact List.nodup_singleton _
  refine ⟨ofFile_asker, hpaths, fun hapart => ?_⟩
  have hnodup := (((index_warnings _ _).2 asker ofFile_asker).2.2.2 hpaths).2.2.1.mp hapart
  rw [met_answering] at hnodup
  exact absurd hnodup (by decide)

/-- The registry warns of the cycle twice. -/
theorem index_answering : ((after answering).index askerFile).2 =
    [cycleWarning [pathOf "A", pathOf "B", pathOf "A"],
      cycleWarning [pathOf "A", pathOf "B", pathOf "A"]] := by
  rw [snd_index ofFile_asker, met_answering]
  rfl

end Registry
end Scopewright
