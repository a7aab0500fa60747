import Mathlib.Data.List.Nodup
import Scopewright.Completion.Complete
import Scopewright.Proofs.Completion.Insertion

/-! # Every matching label is offered once

Ranking keeps one candidate for each inserted text (`insertText_firstOfEach_nodup`,
`mem_insertText_firstOfEach`).  The suggestions of a context are all strings or all not
(`literal_of_suggest?`), so they are put in in one mode, and two candidates have one text exactly when
they have one label.  What is offered are therefore the labels that match the word being typed, each
of them once (`generate_labels`). -/

namespace Scopewright
namespace Completion

/-! ### One candidate for each text -/

theorem mem_insertText_firstOfEach {t : Text} (cs : List Candidate) (seen : List Text) :
    t ∈ (firstOfEach seen cs).map Candidate.insertText ↔
      t ∉ seen ∧ t ∈ cs.map Candidate.insertText := by
  induction cs generalizing seen with
  | nil => simp [firstOfEach]
  | cons c cs ih =>
      rw [firstOfEach, List.map_cons]
      by_cases hc : c.insertText ∈ seen
      · rw [if_pos (List.contains_iff_mem.mpr hc), ih, List.mem_cons]
        refine and_congr_right fun ht => ?_
        have hne : t ≠ c.insertText := fun h => ht (h ▸ hc)
        exact (or_iff_right hne).symm
      · rw [if_neg fun h => hc (List.contains_iff_mem.mp h), List.map_cons, List.mem_cons, ih,
          List.mem_cons, List.mem_cons]
        by_cases ht : t = c.insertText
        · simp [ht, hc]
        · simp [ht]

theorem insertText_firstOfEach_nodup (cs : List Candidate) (seen : List Text) :
    ((firstOfEach seen cs).map Candidate.insertText).Nodup := by
  induction cs generalizing seen with
  | nil => exact List.nodup_nil
  | cons c cs ih =>
      rw [firstOfEach]
      split
      · exact ih seen
      · refine List.nodup_cons.mpr ⟨fun h => ?_, ih _⟩
        exact ((mem_insertText_firstOfEach cs _).mp h).1 List.mem_cons_self

theorem firstOfEach_sublist (cs : List Candidate) (seen : List Text) :
    (firstOfEach seen cs).Sublist cs := by
  induction cs generalizing seen with
  | nil => exact List.Sublist.slnil
  | cons c cs ih =>
      rw [firstOfEach]
      split
      · exact (ih seen).cons c
      · exact (ih _).cons_cons c

theorem mem_of_mem_rank {c : Candidate} {cs : List Candidate} (h : c ∈ rank cs) : c ∈ cs :=
  List.mem_mergeSort.mp ((firstOfEach_sublist _ _).mem h)

theorem mem_insertText_rank {t : Text} (cs : List Candidate) :
    t ∈ (rank cs).map Candidate.insertText ↔ t ∈ cs.map Candidate.insertText := by
  rw [rank, mem_insertText_firstOfEach]
  simp only [List.not_mem_nil, not_false_eq_true, true_and, List.mem_map, List.mem_mergeSort]

/-! ### One text for each label -/

section written

variable (write : Text → Text) {cs : List Candidate}
  (h : ∀ c ∈ cs, c.insertText = write c.displayText)
include h

theorem insertText_eq_write {ds : List Candidate} (hds : ∀ d ∈ ds, d ∈ cs) :
    ds.map Candidate.insertText = (ds.map Candidate.displayText).map write := by
  rw [List.map_map]
  exact List.map_congr_left fun d hd => h d (hds d hd)

theorem displayText_rank_nodup : ((rank cs).map Candidate.displayText).Nodup := by
  have hnodup : ((rank cs).map Candidate.insertText).Nodup := insertText_firstOfEach_nodup _ _
  rw [insertText_eq_write write h fun _ => mem_of_mem_rank] at hnodup
  exact hnodup.of_map

/-- Where each label has a text of its own, ranking loses no label. -/
theorem mem_displayText_rank (hwrite : Function.Injective write) {label : Text} :
    label ∈ (rank cs).map Candidate.displayText ↔ label ∈ cs.map Candidate.displayText := by
  rw [← List.mem_map_of_injective hwrite, ← insertText_eq_write write h fun _ => mem_of_mem_rank,
    mem_insertText_rank, insertText_eq_write write h fun _ => id, List.mem_map_of_injective hwrite]

end written

/-! ### Suggestions -/

/-- The suggestions of a context are all strings, or none of them is. -/
theorem literal_of_suggest? {context : Context} {token : Cursor.Token} {r : Registry}
    {set : SuggestionSet} (h : suggest? context token r = some set) :
    ∃ literal, ∀ s ∈ set.suggestions, s.literal = literal := by
  cases context with
  | keyName parent siblingKeys =>
      obtain rfl := Option.some.inj h
      exact ⟨false, List.forall_mem_map.mpr fun _ _ => rfl⟩
  | scopeSelector node word wordStart inSelector =>
      obtain rfl := Option.some.inj h
      refine ⟨false, List.forall_mem_append.mpr ⟨?_, ?_⟩⟩
      · exact List.forall_mem_map.mpr fun _ _ => rfl
      · exact List.forall_mem_map.mpr fun _ _ => rfl
  | cssVariable word wordStart variableNames =>
      obtain rfl := Option.some.inj h
      refine ⟨false, List.forall_mem_append.mpr ⟨?_, ?_⟩⟩
      · exact List.forall_mem_map.mpr fun _ _ => rfl
      · exact List.forall_mem_map.mpr fun _ _ => rfl
  | actionName node contexts =>
      obtain rfl := Option.some.inj h
      refine ⟨false, ?_⟩
      simp only [suggestActions]
      split
      · exact List.forall_mem_map.mpr fun _ _ => rfl
      · refine List.forall_mem_append.mpr ⟨List.forall_mem_append.mpr ⟨?_, ?_⟩, ?_⟩
        · exact List.forall_mem_map.mpr fun _ _ => rfl
        · exact List.forall_mem_map.mpr fun _ _ => rfl
        · exact List.forall_mem_map.mpr fun _ _ => rfl
  | valueEnum node =>
      obtain rfl := Option.some.inj h
      exact ⟨decide (node.kind = .boolean), List.forall_mem_map.mpr fun _ _ => rfl⟩
  | color node variableNames =>
      obtain rfl := Option.some.inj h
      refine ⟨false, List.forall_mem_append.mpr ⟨List.forall_mem_append.mpr ⟨?_, ?_⟩, ?_⟩⟩
      · exact List.forall_mem_map.mpr fun _ _ => rfl
      · exact List.forall_mem_map.mpr fun _ _ => rfl
      · exact List.forall_mem_map.mpr fun _ _ => rfl
  | freeText => cases h

theorem candidate?_eq_some {set : SuggestionSet} {token : Cursor.Token} {format : Format}
    {s : Suggestion} {c : Candidate} (h : candidate? set token format s = some c) :
    c.displayText = s.label ∧ c.insertText = insertion s.label token format
      ⟨decide (set.wordStart = token.start), s.literal⟩ := by
  obtain ⟨_, _, rfl⟩ := Option.map_eq_some_iff.mp h
  exact ⟨rfl, rfl⟩

theorem mem_displayText_candidates {set : SuggestionSet} {token : Cursor.Token} {format : Format}
    {label : Text} :
    label ∈ (set.suggestions.filterMap (candidate? set token format)).map Candidate.displayText ↔
      ∃ s ∈ set.suggestions, s.label = label ∧
        (matchTier? label set.word set.caseSensitive).isSome := by
  simp only [List.mem_map, List.mem_filterMap]
  constructor
  · rintro ⟨c, ⟨s, hs, hc⟩, rfl⟩
    obtain ⟨hlabel, _⟩ := candidate?_eq_some hc
    refine ⟨s, hs, hlabel.symm, ?_⟩
    rw [hlabel]
    obtain ⟨tier, htier, _⟩ := Option.map_eq_some_iff.mp hc
    rw [htier]
    rfl
  · rintro ⟨s, hs, rfl, htier⟩
    obtain ⟨tier, htier⟩ := Option.isSome_iff_exists.mp htier
    exact ⟨_, ⟨s, hs, Option.map_eq_some_iff.mpr ⟨tier, htier, rfl⟩⟩, rfl⟩

/-- **Every matching label is offered once.**  Each token, format and mode has a text of its own for
each value; and the labels of what is offered in a context are those of its suggestions that match
the word being typed, none of them twice. -/
theorem generate_labels (context : Context) (token : Cursor.Token) (format : Format)
    (r : Registry) :
    (∀ mode, Function.Injective fun value => insertion value token format mode) ∧
    ((generate context token format r).map Candidate.displayText).Nodup ∧
    ∀ label, label ∈ (generate context token format r).map Candidate.displayText ↔
      ∃ set, suggest? context token r = some set ∧ ∃ s ∈ set.suggestions, s.label = label ∧
        (matchTier? label set.word set.caseSensitive).isSome := by
  refine ⟨insertion_injective token format, ?_⟩
  unfold generate
  cases hset : suggest? context token r with
  | none => exact ⟨List.nodup_nil, fun label => by simp⟩
  | some set =>
      obtain ⟨literal, hliteral⟩ := literal_of_suggest? hset
      let mode : InsertionMode := ⟨decide (set.wordStart = token.start), literal⟩
      let write (label : Text) : Text := insertion label token format mode
      have hwritten : ∀ c ∈ set.suggestions.filterMap (candidate? set token format),
          c.insertText = write c.displayText := by
        intro c hc
        obtain ⟨s, hs, hc⟩ := List.mem_filterMap.mp hc
        obtain ⟨hlabel, htext⟩ := candidate?_eq_some hc
        rw [htext, hlabel, hliteral s hs]
      refine ⟨displayText_rank_nodup write hwritten, fun label => ?_⟩
      have hwrite : Function.Injective write := insertion_injective token format mode
      rw [mem_displayText_rank write hwritten hwrite, mem_displayText_candidates]
      simp

end Completion
end Scopewright
