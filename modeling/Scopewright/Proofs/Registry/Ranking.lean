import Scopewright.Proofs.Registry.Preview
import Scopewright.Proofs.Text.Find

/-! # The order of records and of answers

A snapshot is made from the records sorted by path (`ofRecords_eq_iff`), and sorting is stable.  So
the order in which the records are given matters for records with one path only (`arrangement`);
whether they share a base scope does not matter.

The entries of a snapshot are sorted by name and source (`entries_pairwise`).  A query puts those
that begin with the word in front of the others that it finds, and leaves each of the two parts in
the order of the snapshot (`query_pairwise`).  So after any changes of the registry it finds the
entries that have the word in their name and may be shown, as often as the snapshot has them, in the
order of their ranks (`query_ranked`). -/

namespace Scopewright
namespace Registry

open Snapshot (ofRecords sortRecords)

/-! ### The order of records -/

/-- The records are told by their snapshot once they are sorted. -/
theorem ofRecords_eq_iff {rs qs : List Record} :
    ofRecords rs = ofRecords qs ↔ sortRecords rs = sortRecords qs := by
  constructor
  · exact congrArg fun (s : Snapshot × Log) => s.1.records
  · intro h
    simp only [ofRecords, h]

/-- Records with one path are not moved. -/
theorem filter_path_sortRecords (rs : List Record) (p : Text) :
    (sortRecords rs).filter (fun r => decide (r.resourcePath = p)) =
      rs.filter fun r => decide (r.resourcePath = p) := by
  rw [filter_sortRecords]
  refine List.mergeSort_of_pairwise (List.pairwise_of_forall_mem_list fun r hr s hs => ?_)
  have hr := of_decide_eq_true (List.mem_filter.mp hr).2
  have hs := of_decide_eq_true (List.mem_filter.mp hs).2
  rw [hr, hs]
  simpa using Text.le_total p p

/-- Records are sorted alike when those with one path come in the same order. -/
theorem sortRecords_eq_iff {rs qs : List Record} : sortRecords rs = sortRecords qs ↔
    ∀ p, (rs.filter fun r => decide (r.resourcePath = p)) =
      qs.filter fun r => decide (r.resourcePath = p) := by
  constructor
  · intro h p
    rw [← filter_path_sortRecords, h, filter_path_sortRecords]
  · intro h
    refine eq_of_filter_key_eq (·.resourcePath) Text.le_antisymm (sortRecords_pairwise rs)
      (sortRecords_pairwise qs) fun p => ?_
    rw [filter_path_sortRecords, filter_path_sortRecords, h]

/-- Of records with paths of their own the order does not matter. -/
theorem sortRecords_eq_iff_perm {rs qs : List Record} (h : (rs.map (·.resourcePath)).Nodup) :
    sortRecords rs = sortRecords qs ↔ rs.Perm qs := by
  constructor
  · intro heq
    exact (sortRecords_perm rs).symm.trans (heq ▸ sortRecords_perm qs)
  · intro hperm
    refine List.Perm.eq_of_pairwise (fun r s hr hs hrs hsr => ?_) (sortRecords_pairwise rs)
      (sortRecords_pairwise qs)
      ((sortRecords_perm rs).trans (hperm.trans (sortRecords_perm qs).symm))
    have hs : s ∈ rs := hperm.mem_iff.mpr ((sortRecords_perm qs).mem_iff.mp hs)
    exact List.inj_on_of_nodup_map h ((sortRecords_perm rs).mem_iff.mp hr) hs
      (Text.le_antisymm hrs hsr)

/-- **Arrangement.**  Two lists of records give the same entries, records, known scopes and warnings
exactly when the records with each path come in the same order in both; and for records with paths of
their own, exactly when one list is a permutation of the other. -/
theorem arrangement (rs qs : List Record) :
    (ofRecords rs = ofRecords qs ↔ ∀ p, (rs.filter fun r => decide (r.resourcePath = p)) =
      qs.filter fun r => decide (r.resourcePath = p)) ∧
    ((rs.map (·.resourcePath)).Nodup → (ofRecords rs = ofRecords qs ↔ rs.Perm qs)) := by
  refine ⟨?_, fun h => ?_⟩
  · rw [ofRecords_eq_iff, sortRecords_eq_iff]
  · rw [ofRecords_eq_iff, sortRecords_eq_iff_perm h]

/-- The records with one base scope can be given in either order. -/
theorem arrangement_rivals : ([holder, rival].map (·.resourcePath)).Nodup ∧
    ofRecords [holder, rival] = ofRecords [rival, holder] := by
  have h : ([holder, rival].map (·.resourcePath)).Nodup := by decide
  exact ⟨h, ((arrangement [holder, rival] [rival, holder]).2 h).mpr (.swap _ _ _)⟩

/-! ### The order of an answer -/

/-- By name, and by source among entries with one name, in the order of units. -/
def Entry.Before (a b : Entry) : Prop :=
  a.name < b.name ∨ (a.name = b.name ∧ a.source ≤ b.source)

/-- Entries that begin with the word come first; two that do, or two that do not, come by name and
source. -/
def Entry.Ranks (word : Text) (a b : Entry) : Prop :=
  (word <+: a.name ∧ ¬ word <+: b.name) ∨ ((word <+: a.name ↔ word <+: b.name) ∧ a.Before b)

theorem Entry.le_iff {a b : Entry} : a.le b = true ↔ a.Before b := by
  unfold Entry.le Entry.Before
  by_cases h : a.name = b.name
  · rw [if_pos h, Text.le_iff, h]
    simp only [List.lt_irrefl, true_and, false_or]
  · rw [if_neg h, Text.lt_iff]
    simp only [h, ne_eq, not_false_eq_true, and_true, false_and, or_false]

theorem Entry.answers_iff {word : Text} {includeInternal : Bool} {e : Entry} :
    e.answers word includeInternal = true ↔
      word <:+: e.name ∧ (e.internal = true → includeInternal = true) := by
  have hfound : (word.isPrefixOf e.name || Text.has word e.name) = true ↔ word <:+: e.name := by
    rw [Bool.or_eq_true, List.isPrefixOf_iff_prefix, Text.has_iff]
    exact or_iff_right_of_imp List.IsPrefix.isInfix
  have hshown : (includeInternal || !e.internal) = true ↔
      (e.internal = true → includeInternal = true) := by
    cases e.internal <;> simp
  rw [Entry.answers, Bool.and_eq_true, hfound, hshown, and_comm]

theorem entries_pairwise (records : List Record) :
    (Snapshot.ofRecords records).1.entries.Pairwise Entry.Before :=
  (List.pairwise_mergeSort Entry.le_trans Entry.le_total _).imp Entry.le_iff.mp

/-- The parts of an answer are sorted as the entries of the snapshot are. -/
theorem query_pairwise {s : Snapshot} (h : s.entries.Pairwise Entry.Before) (word : Text)
    (includeInternal : Bool) : (s.query word includeInternal).Pairwise (Entry.Ranks word) := by
  have hbegins : ∀ e ∈ (s.entries.filter fun e => includeInternal || !e.internal).filter
      (fun e => word.isPrefixOf e.name), word <+: e.name :=
    fun e he => List.isPrefixOf_iff_prefix.mp (List.mem_filter.mp he).2
  have hother : ∀ e ∈ (s.entries.filter fun e => includeInternal || !e.internal).filter
      (fun e => !word.isPrefixOf e.name && Text.has word e.name), ¬ word <+: e.name := by
    intro e he hword
    have hcond := (List.mem_filter.mp he).2
    rw [List.isPrefixOf_iff_prefix.mpr hword] at hcond
    cases hcond
  have hoffered := h.filter fun e => includeInternal || !e.internal
  refine List.pairwise_append.mpr ⟨?_, ?_, fun a ha b hb => .inl ⟨hbegins a ha, hother b hb⟩⟩
  · refine (hoffered.filter _).imp_of_mem fun ha hb hab => .inr ⟨?_, hab⟩
    exact iff_of_true (hbegins _ ha) (hbegins _ hb)
  · refine (hoffered.filter _).imp_of_mem fun ha hb hab => .inr ⟨?_, hab⟩
    exact iff_of_false (hother _ ha) (hother _ hb)

/-- **The answer to a query.**  After any changes of the registry a query finds the entries that
have the word in their name and are not internal, or all that have it when internal ones are asked
for, each as often as the snapshot has it; and it tells them in the order of their ranks. -/
theorem query_ranked (cs : List Change) (word : Text) (includeInternal : Bool) :
    (∀ e, ((after cs).snapshot.query word includeInternal).count e =
      if word <:+: e.name ∧ (e.internal = true → includeInternal = true) then
        (after cs).snapshot.entries.count e
      else 0) ∧
    ((after cs).snapshot.query word includeInternal).Pairwise (Entry.Ranks word) := by
  constructor
  · intro e
    rw [(query_perm _ word includeInternal).count_eq]
    split
    · rename_i h
      exact List.count_filter (Entry.answers_iff.mpr h)
    · rename_i h
      refine List.count_eq_zero.mpr fun he => h ?_
      exact Entry.answers_iff.mp (List.mem_filter.mp he).2
  · rw [after_consistent cs]
    exact query_pairwise (entries_pairwise _) word includeInternal

end Registry
end Scopewright
