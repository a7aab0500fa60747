import Scopewright.Completion.Candidate
import Scopewright.Proofs.Completion.Labels
import Scopewright.Proofs.Sort
import Scopewright.Proofs.Text.Characters
import Scopewright.Proofs.Text.Find
import Scopewright.Proofs.Text.Order

/-! # Matching and ranking

The tiers of a match are the ways in which a word may occur in a label: at its front, somewhere in one
piece, or scattered over the units that are no halves of pairs (`Completion.Tier.Fits`).  The tier of a
label is the best one that fits (`Completion.exists_tier_iff`).  What fits a word fits every front of
it, so typing on loses labels and brings in none (`Completion.matchTier?_append`).

Told by characters, a word is found at the front of a label and in it just where it stands there.  A
word that is scattered over a label is found when its characters have one unit each, and is not when
one of them is a pair (`Completion.matchTier?_characters`).

Candidates are compared by tier, label, visibility and source, each of which decides among those that
the ones before leave equal (`Candidate.le_eq`).  So the comparison is transitive and total
(`Candidate.le_trans`, `Candidate.le_total`), and candidates can be sorted by it.  Of the candidates
with one text, ranking keeps the first one in order (`filter_rank`).  What it keeps is still sorted,
and has nothing left to leave out (`rank_best`). -/

namespace Scopewright
namespace Completion

open CodeUnit (InBasicPlane)

/-! ### The tiers -/

/-- A word occurs in a label as a tier tells, or in a better way. -/
def Tier.Fits (word label : Text) : Tier → Prop
  | startsWith => word <+: label
  | contains => word <:+: label
  | scattered => word <:+: label ∨ word.Sublist (Text.singles label)

/-- Taking the first unit that fits finds a word whenever it is there. -/
theorem isScattered_iff (word label : Text) :
    isScattered word label = true ↔ word.Sublist (Text.singles label) := by
  fun_induction isScattered word label with
  | case1 => simp
  | case2 w ws => simp [Text.singles]
  | case3 w ws c =>
      rw [Text.singles, Bool.and_eq_true, List.isEmpty_iff, decide_eq_true_eq,
        List.sublist_singleton]
      simp [eq_comm, and_comm]
  | case4 w ws c d r hpair ih => rw [ih, Text.singles, if_pos hpair]
  | case5 ws c d r hpair ih => rw [ih, Text.singles, if_neg hpair, List.cons_sublist_cons]
  | case6 w ws c d r hpair hne ih =>
      rw [ih, Text.singles, if_neg hpair]
      refine ⟨fun h => h.cons c, fun h => ?_⟩
      cases h with
      | cons _ h => exact h
      | cons_cons _ h => exact absurd rfl hne

/-- The tier of a label is the best one that fits. -/
theorem exists_tier_iff {label word : Text} (tier : Tier) :
    (∃ found ∈ matchTier? label word true, found.rank ≤ tier.rank) ↔ tier.Fits word label := by
  have hcontains : word <+: label → word <:+: label := List.IsPrefix.isInfix
  simp only [matchTier?, if_true, List.isPrefixOf_iff_prefix, Text.has_iff, isScattered_iff]
  by_cases hstarts : word <+: label
  · cases tier <;> simp [Tier.Fits, Tier.rank, hstarts, hcontains hstarts]
  · by_cases hin : word <:+: label
    · cases tier <;> simp [Tier.Fits, Tier.rank, hstarts, hin]
    · by_cases hscattered : word.Sublist (Text.singles label)
      · cases tier <;> simp [Tier.Fits, Tier.rank, hstarts, hin, hscattered]
      · cases tier <;> simp [Tier.Fits, hstarts, hin, hscattered]

theorem isSome_matchTier?_iff {label word : Text} :
    (matchTier? label word true).isSome ↔ Tier.scattered.Fits word label := by
  rw [← exists_tier_iff, Option.isSome_iff_exists]
  refine exists_congr fun tier => (and_iff_left ?_).symm
  cases tier <;> decide

/-! ### Typing on -/

/-- What fits a word fits every front of it. -/
theorem Tier.Fits.front {tier : Tier} {word more label : Text}
    (h : tier.Fits (word ++ more) label) : tier.Fits word label := by
  have hfront : word <+: word ++ more := List.prefix_append word more
  cases tier with
  | startsWith => exact hfront.trans h
  | contains => exact hfront.isInfix.trans h
  | scattered => exact h.imp hfront.isInfix.trans hfront.sublist.trans

/-- **Typing on.**  A label that matches what has been typed matches what had been typed before, at
least as well.  So of some labels those that match the longer word are among those that match the
shorter one. -/
theorem matchTier?_append (word more : Text) :
    (∀ label, ∀ tier ∈ matchTier? label (word ++ more) true,
      ∃ before ∈ matchTier? label word true, before.rank ≤ tier.rank) ∧
    ∀ labels : List Text,
      (labels.filter fun label => (matchTier? label (word ++ more) true).isSome).Sublist
        (labels.filter fun label => (matchTier? label word true).isSome) := by
  constructor
  · intro label tier htier
    have hfits : tier.Fits (word ++ more) label :=
      (exists_tier_iff tier).mp ⟨tier, htier, Nat.le_refl _⟩
    exact (exists_tier_iff tier).mpr hfits.front
  · intro labels
    refine List.monotone_filter_right labels fun label h => ?_
    rw [isSome_matchTier?_iff] at h ⊢
    exact h.front

/-! ### Characters -/

/-- **Matching by characters.**  A word begins a label, or stands in it, just when its characters do.
A label matches a word when the word stands in it, or when the characters of the word come in it in
their order and each of them is one unit.  So a label that has the characters of a word in their order
matches it, unless they stand apart and one of them is a pair of units. -/
theorem matchTier?_characters (label word : String) :
    (matchTier? label word true = some .startsWith ↔ word.toList <+: label.toList) ∧
    ((∃ tier ∈ matchTier? label word true, tier.rank ≤ Tier.contains.rank) ↔
      word.toList <:+: label.toList) ∧
    ((matchTier? label word true).isSome ↔ word.toList <:+: label.toList ∨
      word.toList.Sublist label.toList ∧ ∀ c ∈ word.toList, InBasicPlane c) ∧
    (((matchTier? label word true).isSome ↔ word.toList.Sublist label.toList) ↔
      (word.toList.Sublist label.toList →
        word.toList <:+: label.toList ∨ ∀ c ∈ word.toList, InBasicPlane c)) := by
  have hmatch : (matchTier? label word true).isSome ↔ word.toList <:+: label.toList ∨
      word.toList.Sublist label.toList ∧ ∀ c ∈ word.toList, InBasicPlane c := by
    rw [isSome_matchTier?_iff, Tier.Fits, Text.ofString_eq, Text.ofString_eq,
      Text.units_infix_iff, Text.units_sublist_singles_iff]
  refine ⟨?starts, ?stands, hmatch, ?sublist⟩
  case starts =>
    rw [← Text.units_prefix_iff]
    refine Iff.trans ?_ (exists_tier_iff Tier.startsWith)
    constructor
    · exact fun h => ⟨_, h, Nat.le_refl _⟩
    · rintro ⟨tier, htier, hrank⟩
      cases tier with
      | startsWith => exact htier
      | contains => cases hrank
      | scattered => cases hrank
  case stands =>
    rw [← Text.units_infix_iff]
    exact exists_tier_iff Tier.contains
  case sublist =>
    rw [hmatch]
    have hsub : word.toList <:+: label.toList → word.toList.Sublist label.toList :=
      List.IsInfix.sublist
    tauto

/-- The two characters of the word come in the label, but the second one is a pair of units, and the
scan looks for its halves among whole characters. -/
theorem matchTier?_pair :
    ("a😀" : String).toList.Sublist ("a-😀" : String).toList ∧
      matchTier? ("a-😀" : String) ("a😀" : String) true = none ∧
      ¬ ∀ label word : String, (matchTier? label word true).isSome ↔
        word.toList.Sublist label.toList := by
  have hsub : ("a😀" : String).toList.Sublist ("a-😀" : String).toList := by decide
  have hnone : matchTier? ("a-😀" : String) ("a😀" : String) true = none := by decide
  refine ⟨hsub, hnone, fun h => ?_⟩
  have hsome := (h "a-😀" "a😀").mpr hsub
  rw [hnone] at hsome
  cases hsome

/-! ### The comparison -/

theorem Tier.rank_injective : Function.Injective Tier.rank := by
  intro x y h
  cases x <;> cases y <;> first | rfl | cases h

namespace Candidate

/-- Candidates are compared by one key after another. -/
theorem le_eq : le = byKey Candidate.tier (fun x y => decide (x.rank ≤ y.rank))
    (byKey Candidate.displayText Text.le (byKey Candidate.internal (fun _ y => y)
      fun a b => decide (a.source.rank ≤ b.source.rank))) := by
  funext a b
  simp only [le, byKey, ite_not]

theorem le_trans (a b c : Candidate) (hab : a.le b = true) (hbc : b.le c = true) :
    a.le c = true := by
  rw [le_eq] at *
  refine byKey_trans ?tierAntisymm ?tierTrans (byKey_trans (fun _ _ => Text.le_antisymm)
    (fun _ _ _ => Text.le_trans) (byKey_trans ?shownAntisymm ?shownTrans ?sourceTrans))
    a b c hab hbc
  case tierAntisymm =>
    intro x y hxy hyx
    exact Tier.rank_injective (Nat.le_antisymm (of_decide_eq_true hxy) (of_decide_eq_true hyx))
  case tierTrans =>
    intro x y z hxy hyz
    exact decide_eq_true (Nat.le_trans (of_decide_eq_true hxy) (of_decide_eq_true hyz))
  case shownAntisymm =>
    intro x y hy hx
    exact hx.trans hy.symm
  case shownTrans => exact fun _ _ _ _ hz => hz
  case sourceTrans =>
    intro x y z hxy hyz
    exact decide_eq_true (Nat.le_trans (of_decide_eq_true hxy) (of_decide_eq_true hyz))

theorem le_total (a b : Candidate) : (a.le b || b.le a) = true := by
  have htotal : ∀ m n : ℕ, (decide (m ≤ n) || decide (n ≤ m)) = true := fun m n => by
    simpa using Nat.le_total m n
  rw [le_eq]
  refine byKey_total (fun x y _ => htotal x.rank y.rank) (byKey_total (fun x y _ => Text.le_total x y)
    (byKey_total (fun x y hne => ?_) fun a b => htotal a.source.rank b.source.rank)) a b
  cases x <;> cases y <;> first | rfl | exact absurd rfl hne

end Candidate

/-! ### The best one for each text -/

theorem filter_firstOfEach (t : Text) (cs : List Candidate) (seen : List Text) :
    (firstOfEach seen cs).filter (fun c => decide (c.insertText = t)) =
      if t ∈ seen then [] else (cs.filter fun c => decide (c.insertText = t)).take 1 := by
  induction cs generalizing seen with
  | nil => simp [firstOfEach]
  | cons c cs ih =>
      rw [firstOfEach]
      by_cases hc : c.insertText ∈ seen
      · rw [if_pos (List.contains_iff_mem.mpr hc), ih]
        by_cases ht : t ∈ seen
        · rw [if_pos ht, if_pos ht]
        · have hne : c.insertText ≠ t := fun h => ht (h ▸ hc)
          rw [if_neg ht, if_neg ht, List.filter_cons_of_neg (by simpa using hne)]
      · rw [if_neg fun h => hc (List.contains_iff_mem.mp h)]
        by_cases ht : c.insertText = t
        · subst ht
          rw [List.filter_cons_of_pos (by simp), ih, if_pos List.mem_cons_self, if_neg hc,
            List.filter_cons_of_pos (by simp)]
          rfl
        · have hseen : t ∈ c.insertText :: seen ↔ t ∈ seen := by
            rw [List.mem_cons, or_iff_right (Ne.symm ht)]
          rw [List.filter_cons_of_neg (by simpa using ht), ih,
            List.filter_cons_of_neg (by simpa using ht), if_congr hseen rfl rfl]

/-- Of the candidates with one text the first one in order is kept. -/
theorem filter_rank (t : Text) (cs : List Candidate) :
    (rank cs).filter (fun c => decide (c.insertText = t)) =
      ((cs.filter fun c => decide (c.insertText = t)).mergeSort Candidate.le).take 1 := by
  rw [rank, filter_firstOfEach, if_neg List.not_mem_nil,
    filter_mergeSort Candidate.le_trans Candidate.le_total]

/-- Where each text comes once, nothing is left out. -/
theorem firstOfEach_eq_self {cs : List Candidate} {seen : List Text}
    (h : (cs.map Candidate.insertText).Nodup) (hseen : ∀ c ∈ cs, c.insertText ∉ seen) :
    firstOfEach seen cs = cs := by
  induction cs generalizing seen with
  | nil => rfl
  | cons c cs ih =>
      obtain ⟨hc, hcs⟩ := List.forall_mem_cons.mp hseen
      obtain ⟨hfirst, hnodup⟩ := List.nodup_cons.mp h
      rw [firstOfEach, if_neg fun hmem => hc (List.contains_iff_mem.mp hmem), ih hnodup]
      intro d hd hmem
      rcases List.mem_cons.mp hmem with heq | hmem
      · exact hfirst (heq ▸ List.mem_map_of_mem hd)
      · exact hcs d hd hmem

theorem rank_pairwise (cs : List Candidate) : (rank cs).Pairwise (Candidate.le · ·) :=
  (List.pairwise_mergeSort Candidate.le_trans Candidate.le_total cs).sublist
    (firstOfEach_sublist _ _)

/-- A list that is sorted and has each text once is left as it is. -/
theorem rank_eq_self {cs : List Candidate} (h : cs.Pairwise (Candidate.le · ·))
    (hnodup : (cs.map Candidate.insertText).Nodup) : rank cs = cs := by
  rw [rank, List.mergeSort_of_pairwise h]
  exact firstOfEach_eq_self hnodup fun _ _ => List.not_mem_nil

/-- **Ranked candidates.**  The comparison of candidates is transitive and total.  What is ranked is
sorted by it and holds nothing but what is given.  For each text that is put in it has one candidate,
which no other one with the text comes before.  Ranking it once more changes nothing. -/
theorem rank_best (cs : List Candidate) :
    (∀ a b c : Candidate, a.le b = true → b.le c = true → a.le c = true) ∧
    (∀ a b : Candidate, a.le b = true ∨ b.le a = true) ∧
    (rank cs).Pairwise (fun a b => a.le b = true) ∧
    (∀ c ∈ rank cs, c ∈ cs) ∧
    (∀ t ∈ cs.map Candidate.insertText, ∃ c ∈ cs,
      (rank cs).filter (fun d => decide (d.insertText = t)) = [c] ∧
      ∀ d ∈ cs, d.insertText = t → c.le d = true) ∧
    rank (rank cs) = rank cs := by
  refine ⟨Candidate.le_trans, fun a b => Bool.or_eq_true_iff.mp (Candidate.le_total a b),
    rank_pairwise cs, fun _ => mem_of_mem_rank, fun t ht => ?_,
    rank_eq_self (rank_pairwise cs) (insertText_firstOfEach_nodup _ _)⟩
  have hsorted := List.pairwise_mergeSort Candidate.le_trans Candidate.le_total
    (cs.filter fun c => decide (c.insertText = t))
  have hmem : ∀ d, d ∈ (cs.filter fun c => decide (c.insertText = t)).mergeSort Candidate.le ↔
      d ∈ cs ∧ d.insertText = t := fun d => by
    rw [List.mem_mergeSort, List.mem_filter, decide_eq_true_eq]
  rw [filter_rank]
  cases hrival : (cs.filter fun c => decide (c.insertText = t)).mergeSort Candidate.le with
  | nil =>
      -- some candidate has the text
      obtain ⟨d, hd, htext⟩ := List.mem_map.mp ht
      have := (hmem d).mpr ⟨hd, htext⟩
      rw [hrival] at this
      cases this
  | cons c rivals =>
      rw [hrival] at hsorted hmem
      refine ⟨c, ((hmem c).mp List.mem_cons_self).1, rfl, fun d hd htext => ?_⟩
      rcases List.mem_cons.mp ((hmem d).mpr ⟨hd, htext⟩) with rfl | hd
      · exact Bool.or_self (d.le d) ▸ Candidate.le_total d d
      · exact (List.pairwise_cons.mp hsorted).1 d hd

end Completion
end Scopewright
