import Scopewright.Proofs.Registry.History
import Scopewright.Proofs.Registry.Visibility
import Scopewright.Proofs.Text.Order

/-! # How often a query finds a scope

A scope and the path of the syntax that declares it are the key of an entry (`Entry.key`).  Within a
package a key comes at most once, since records have paths of their own and list each of their
scopes once.  Packages do not know of each other, so a key comes once for each stored package that
declares it (`count_entries`).  Entries with one key are offered together (`internal_congr`), so a
query that finds a key finds it that often, and no key twice exactly when no two packages declare
one that it finds (`query_occurrences`). -/

namespace Scopewright
namespace Registry

/-- A scope and the path of the syntax that declares it. -/
abbrev Key := Text × Text

/-- The key of an entry. -/
def Entry.key (e : Entry) : Key := (e.name, e.source)

/-- The record declares a scope at a path. -/
def Record.declares (r : Record) (k : Key) : Bool :=
  decide (r.resourcePath = k.2) && r.ownScopes.contains k.1

/-- One of the records of a package declares a scope at a path. -/
def declaredBy (k : Key) (p : Text × List Record) : Bool := p.2.any (·.declares k)

/-! ### The entries of records -/

/-- Records list each of their scopes once. -/
theorem ownScopes_nodup {f : File} {r : Record} (h : Record.ofFile f = .ok r) :
    r.ownScopes.Nodup := by
  obtain ⟨_, _, ⟨_, rfl⟩ | ⟨_, rfl⟩⟩ := ofFile_cases h
  · exact Text.sortUnique_nodup _
  · exact Text.sortUnique_nodup _

theorem exists_ofFile {files : List File} {r : Record} (h : r ∈ (indexFiles files).1) :
    ∃ f ∈ files, Record.ofFile f = .ok r := by
  obtain ⟨before, f, rest, rfl, hf, _⟩ := mem_indexFiles_iff.mp h
  exact ⟨f, List.mem_append_right _ List.mem_cons_self, hf⟩

theorem count_entries_record {r : Record} (h : r.ownScopes.Nodup) (k : Key) (internal : Bool) :
    ((r.entries internal).map Entry.key).count k = if r.declares k then 1 else 0 := by
  have hmap : (r.entries internal).map Entry.key = r.ownScopes.map (·, r.resourcePath) := by
    rw [Record.entries, List.map_map]
    rfl
  rw [hmap]
  by_cases hd : r.declares k = true
  · rw [if_pos hd]
    simp only [Record.declares, Bool.and_eq_true, decide_eq_true_eq,
      List.contains_iff_mem] at hd
    obtain ⟨hp, hs⟩ := hd
    refine List.count_eq_one_of_mem (h.map fun a b hab => (Prod.mk.inj hab).1) ?_
    exact List.mem_map.mpr ⟨k.1, hs, by rw [hp]⟩
  · rw [if_neg hd, List.count_eq_zero]
    rintro hk
    obtain ⟨name, hname, rfl⟩ := List.mem_map.mp hk
    exact hd (by simp [Record.declares, hname])

/-- Records with paths of their own declare a key at most once. -/
theorem countP_declares {k : Key} {rs : List Record} (h : (rs.map (·.resourcePath)).Nodup) :
    rs.countP (·.declares k) = if rs.any (·.declares k) then 1 else 0 := by
  induction rs with
  | nil => rfl
  | cons r rs ih =>
      obtain ⟨hr, hrs⟩ := List.nodup_cons.mp h
      rw [List.countP_cons, ih hrs, List.any_cons]
      by_cases hd : r.declares k = true
      · have hrest : rs.any (·.declares k) = false := by
          rw [Bool.eq_false_iff]
          intro hany
          obtain ⟨s, hs, hsd⟩ := List.any_eq_true.mp hany
          simp only [Record.declares, Bool.and_eq_true, decide_eq_true_eq] at hd hsd
          exact hr (List.mem_map.mpr ⟨s, hs, hsd.1.trans hd.1.symm⟩)
        rw [hd, hrest]
        rfl
      · simp [hd]

/-! ### The entries of a snapshot -/

/-- The path of a visible record is that of one. -/
theorem mem_visiblePaths {rs : List Record} {r : Record} (hr : r ∈ rs) (hv : r.hidden = false) :
    r.resourcePath ∈ visiblePaths rs := by
  rw [← List.zipIdx_map_fst 0 rs] at hr
  obtain ⟨n, hn, rfl⟩ := List.mem_map.mp hr
  have hfound : n ∈ ((referenceGraph rs.zipIdx).reach n).nodes :=
    Graph.root_mem_reach_nodes (referenceGraph_contained _) hn
  simp only [visiblePaths, List.mem_flatMap, List.mem_filter, List.mem_map, Bool.not_eq_true']
  exact ⟨_, ⟨⟨n, hn, rfl⟩, hv⟩, n, hfound, rfl⟩

open Snapshot (sortRecords)

theorem entries_perm (records : List Record) : (Snapshot.ofRecords records).1.entries.Perm
    ((sortRecords records).flatMap fun r =>
      r.entries (!(visiblePaths (sortRecords records)).contains r.resourcePath)) := by
  have heq : (sortRecords records).flatMap (fun r => r.entries (r.hidden &&
        !(visiblePaths (sortRecords records)).contains r.resourcePath)) =
      (sortRecords records).flatMap fun r =>
        r.entries (!(visiblePaths (sortRecords records)).contains r.resourcePath) := by
    refine List.flatMap_congr fun r hr => ?_
    by_cases hh : r.hidden = true
    · rw [hh, Bool.true_and]
    · have hv := mem_visiblePaths hr (Bool.eq_false_iff.mpr hh)
      rw [Bool.eq_false_iff.mpr hh, Bool.false_and, List.contains_iff_mem.mpr hv, Bool.not_true]
  exact heq ▸ List.mergeSort_perm _ _

/-- Whether an entry is internal depends on its path alone. -/
theorem internal_congr {records : List Record} {e e' : Entry}
    (he : e ∈ (Snapshot.ofRecords records).1.entries)
    (he' : e' ∈ (Snapshot.ofRecords records).1.entries) (hs : e.source = e'.source) :
    e.internal = e'.internal := by
  have hpath : ∀ d ∈ (Snapshot.ofRecords records).1.entries,
      d.internal = !(visiblePaths (sortRecords records)).contains d.source := by
    intro d hd
    obtain ⟨r, _, hd⟩ := List.mem_flatMap.mp ((entries_perm records).mem_iff.mp hd)
    obtain ⟨name, _, rfl⟩ := List.mem_map.mp hd
    rfl
  rw [hpath e he, hpath e' he', hs]

theorem count_flatMap_entries {rs : List Record} (h : ∀ r ∈ rs, r.ownScopes.Nodup) (k : Key)
    (internal : Record → Bool) :
    ((rs.flatMap fun r => r.entries (internal r)).map Entry.key).count k =
      rs.countP (·.declares k) := by
  induction rs with
  | nil => rfl
  | cons r rs ih =>
      rw [List.flatMap_cons, List.map_append, List.count_append,
        count_entries_record (h r List.mem_cons_self),
        ih fun r' hr' => h r' (List.mem_cons_of_mem r hr'), List.countP_cons, Nat.add_comm]

theorem countP_declares_packages (k : Key) {packages : Table (List Record)}
    (h : ∀ p ∈ packages, (p.2.map (·.resourcePath)).Nodup) :
    (packages.flatMap (·.2)).countP (·.declares k) =
      (packages.filter (declaredBy k)).length := by
  induction packages with
  | nil => rfl
  | cons p packages ih =>
      rw [List.flatMap_cons, List.countP_append, countP_declares (h p List.mem_cons_self),
        ih fun q hq => h q (List.mem_cons_of_mem _ hq), List.filter_cons, ← declaredBy]
      by_cases hp : declaredBy k p = true
      · rw [if_pos hp, if_pos hp, List.length_cons, Nat.add_comm]
      · rw [if_neg hp, if_neg hp, Nat.zero_add]

/-! ### The registry after any changes -/

variable (cs : List Change)

theorem records_after :
    (after cs).snapshot.records = sortRecords ((after cs).packages.flatMap (·.2)) := by
  rw [after_consistent cs]
  rfl

/-- When no two names fulfil a condition, at most one entry of a table does. -/
theorem length_filter_le_one {α : Type} {t : Table α} {c : Text × α → Bool}
    (hn : (Table.names t).Nodup)
    (h : ∀ p ∈ t, ∀ q ∈ t, c p = true → c q = true → p.1 = q.1) : (t.filter c).length ≤ 1 := by
  have hnames := Table.filter_nodup c hn
  rcases hf : t.filter c with _ | ⟨p, _ | ⟨q, rest⟩⟩
  · exact Nat.zero_le 1
  · exact Nat.le_refl 1
  · rw [hf] at hnames
    have hp : p ∈ t.filter c := by simp [hf]
    have hq : q ∈ t.filter c := by simp [hf]
    obtain ⟨hp, hcp⟩ := List.mem_filter.mp hp
    obtain ⟨hq, hcq⟩ := List.mem_filter.mp hq
    have hne := (List.nodup_cons.mp hnames).1
    exact absurd (List.mem_cons.mpr (.inl (h p hp q hq hcp hcq))) hne

theorem indexed_after {p : Text × List Record} (hp : p ∈ (after cs).packages) :
    ∃ files, p.2 = (indexFiles files).1 := by
  have h := (get?_after cs p.2).mp ((Table.mem_iff_get? (after_nodup cs)).mp hp)
  obtain ⟨_, files, _, hfiles⟩ := h
  exact ⟨files, hfiles⟩

theorem exists_file_after {r : Record} (hr : r ∈ (after cs).packages.flatMap (·.2)) :
    ∃ f, Record.ofFile f = .ok r := by
  obtain ⟨p, hp, hr⟩ := List.mem_flatMap.mp hr
  obtain ⟨files, hfiles⟩ := indexed_after cs hp
  obtain ⟨f, _, hf⟩ := exists_ofFile (hfiles ▸ hr)
  exact ⟨f, hf⟩

theorem ownScopes_nodup_after {r : Record} (hr : r ∈ (after cs).packages.flatMap (·.2)) :
    r.ownScopes.Nodup := by
  obtain ⟨f, hf⟩ := exists_file_after cs hr
  exact ownScopes_nodup hf

/-- A key comes once for each stored package that declares it. -/
theorem count_entries (k : Key) : ((after cs).snapshot.entries.map Entry.key).count k =
    ((after cs).packages.filter (declaredBy k)).length := by
  have hpaths : ∀ p ∈ (after cs).packages, (p.2.map (·.resourcePath)).Nodup := by
    intro p hp
    obtain ⟨files, hfiles⟩ := indexed_after cs hp
    exact hfiles ▸ indexFiles_nodup files
  have hsort := sortRecords_perm ((after cs).packages.flatMap (·.2))
  rw [after_consistent cs, ((entries_perm _).map _).count_eq,
    count_flatMap_entries fun r hr => ownScopes_nodup_after cs (hsort.mem_iff.mp hr),
    ← countP_declares_packages k hpaths]
  exact hsort.countP_eq _

/-! ### Queries -/

/-- A query with a word and a choice of internal entries finds the entry. -/
def Entry.answers (word : Text) (includeInternal : Bool) (e : Entry) : Bool :=
  (includeInternal || !e.internal) && (word.isPrefixOf e.name || Text.has word e.name)

theorem query_perm (s : Snapshot) (word : Text) (includeInternal : Bool) :
    (s.query word includeInternal).Perm
      (s.entries.filter (Entry.answers word includeInternal)) := by
  have hsplit := List.filter_append_perm (fun e : Entry => word.isPrefixOf e.name)
    (s.entries.filter (Entry.answers word includeInternal))
  refine .trans (.of_eq ?_) hsplit
  simp only [Snapshot.query, List.filter_filter]
  congr 1
  · refine List.filter_congr fun e _ => ?_
    unfold Entry.answers
    cases word.isPrefixOf e.name <;> simp
  · refine List.filter_congr fun e _ => ?_
    unfold Entry.answers
    cases word.isPrefixOf e.name <;> simp [Bool.and_comm]

/-- Of the entries with one key a query finds all or none. -/
theorem count_query {records : List Record} {e : Entry}
    (he : e ∈ (Snapshot.ofRecords records).1.entries) (word : Text) (includeInternal : Bool) :
    (((Snapshot.ofRecords records).1.query word includeInternal).map Entry.key).count e.key =
      if e.answers word includeInternal then
        ((Snapshot.ofRecords records).1.entries.map Entry.key).count e.key
      else 0 := by
  have hsame : ∀ d ∈ (Snapshot.ofRecords records).1.entries, d.key = e.key →
      d.answers word includeInternal = e.answers word includeInternal := by
    intro d hd hkey
    obtain ⟨hname, hsource⟩ := Prod.mk.inj hkey
    rw [Entry.answers, hname, internal_congr hd he hsource, ← Entry.answers]
  rw [((query_perm _ word includeInternal).map _).count_eq, List.count_eq_countP,
    List.count_eq_countP, List.countP_map, List.countP_map, List.countP_filter]
  split
  · rename_i hanswers
    refine List.countP_congr fun d hd => ?_
    simp only [Function.comp_apply, Bool.and_eq_true, beq_iff_eq, and_iff_left_iff_imp]
    exact fun hkey => (hsame d hd hkey).trans hanswers
  · rename_i hanswers
    refine List.countP_eq_zero.mpr fun d hd => ?_
    simp only [Function.comp_apply, Bool.and_eq_true, beq_iff_eq, not_and]
    exact fun hkey => hsame d hd hkey ▸ hanswers

/-- **How often a query finds a scope.**  After any changes the snapshot has each key as often as
there are stored packages that declare it.  A query finds all entries of a key or none, and it
finds no key twice exactly when each key that it finds is declared by one package only. -/
theorem query_occurrences (word : Text) (includeInternal : Bool) :
    (∀ k, ((after cs).snapshot.entries.map Entry.key).count k =
      ((after cs).packages.filter (declaredBy k)).length) ∧
    (∀ e ∈ (after cs).snapshot.entries,
      (((after cs).snapshot.query word includeInternal).map Entry.key).count e.key =
        if e.answers word includeInternal then
          ((after cs).packages.filter (declaredBy e.key)).length
        else 0) ∧
    ((((after cs).snapshot.query word includeInternal).map Entry.key).Nodup ↔
      ∀ e ∈ (after cs).snapshot.query word includeInternal,
        ∀ p ∈ (after cs).packages, ∀ q ∈ (after cs).packages,
          declaredBy e.key p = true → declaredBy e.key q = true → p.1 = q.1) := by
  have hcount : ∀ e ∈ (after cs).snapshot.entries,
      (((after cs).snapshot.query word includeInternal).map Entry.key).count e.key =
        if e.answers word includeInternal then
          ((after cs).packages.filter (declaredBy e.key)).length
        else 0 := by
    intro e he
    rw [← count_entries, after_consistent cs]
    exact count_query (after_consistent cs ▸ he) word includeInternal
  have hfound : ∀ e ∈ (after cs).snapshot.query word includeInternal,
      (((after cs).snapshot.query word includeInternal).map Entry.key).count e.key =
        ((after cs).packages.filter (declaredBy e.key)).length := by
    intro e he
    obtain ⟨hmem, hanswers⟩ := List.mem_filter.mp ((query_perm _ _ _).mem_iff.mp he)
    rw [hcount e hmem, if_pos hanswers]
  refine ⟨count_entries cs, hcount, ?_⟩
  constructor
  · intro hnodup e he p hp q hq hdp hdq
    have hone := hfound e he
    rw [List.count_eq_one_of_mem hnodup (List.mem_map_of_mem he)] at hone
    obtain ⟨r, hr⟩ := List.length_eq_one_iff.mp hone.symm
    have hpr : p ∈ [r] := hr ▸ List.mem_filter.mpr ⟨hp, hdp⟩
    have hqr : q ∈ [r] := hr ▸ List.mem_filter.mpr ⟨hq, hdq⟩
    rw [List.mem_singleton.mp hpr, List.mem_singleton.mp hqr]
  · intro hsame
    refine List.nodup_iff_count_le_one.mpr fun k => ?_
    by_cases hk : k ∈ ((after cs).snapshot.query word includeInternal).map Entry.key
    · obtain ⟨e, he, rfl⟩ := List.mem_map.mp hk
      rw [hfound e he]
      refine length_filter_le_one (after_nodup cs) fun p hp q hq hdp hdq => ?_
      exact hsame e he p hp q hq hdp hdq
    · rw [List.count_eq_zero.mpr hk]
      exact Nat.zero_le 1

/-- A syntax with one scope. -/
def lonely : File := ⟨"Packages/A/A.sublime-syntax", "A", "scope: a"⟩

/-- Two packages bring the same file. -/
def twice : List Change := [.replace "A" [lonely], .replace "B" [lonely]]

/-- A query finds the scope of a file twice that two packages bring. -/
theorem query_doubled :
    ¬ (((after twice).snapshot.query (Text.ofString "a") true).map Entry.key).Nodup := by
  have htwo : ((after twice).packages.filter
      (declaredBy (Text.ofString "a", lonely.resourcePath))).length = 2 := by decide +kernel
  rw [← count_entries] at htwo
  obtain ⟨e, he, hkey⟩ := List.mem_map.mp (List.count_pos_iff.mp (by rw [htwo]; exact Nat.two_pos))
  have hanswers : e.answers (Text.ofString "a") true = true := by
    rw [Entry.answers, show e.name = Text.ofString "a" from congrArg Prod.fst hkey, Bool.true_or,
      Bool.true_and]
    decide
  rw [after_consistent twice] at he htwo ⊢
  have hcount := count_query he (Text.ofString "a") true
  rw [if_pos hanswers, hkey, htwo] at hcount
  intro hnodup
  have hle := List.nodup_iff_count_le_one.mp hnodup (Text.ofString "a", lonely.resourcePath)
  omega

end Registry
end Scopewright
