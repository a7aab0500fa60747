import Mathlib.Data.List.Count
import Mathlib.Data.List.TakeWhile
import Scopewright.Proofs.Registry.Branches

/-! # The cycles that a search tells

A search tells a cycle for each reference back into its tree.  In a graph whose nodes have different
paths these are cycles of the graph (`isCycle_of_mem_cycles`), and one of them goes through the root
when something that the root leads to refers to it (`exists_cycle_of_root`).

Two cycles with the same members are told by one node for references to one path
(`Tree.eq_of_sameMembers`).  So the members tell the cycles apart unless one of them comes twice or two
nodes have one path (`cycles_apart_iff`), and each comes as often as its last node refers to the
first one (`count_cycles`). -/

namespace Scopewright
namespace Registry

/-- Two cycles go through the same paths. -/
def SameMembers (c d : List Text) : Prop := ∀ p, p ∈ c ↔ p ∈ d

namespace Graph

variable {ν : Type} {g : Graph ν} {root : ν} {bs : List (Branch ν)} {b c : Branch ν} {t u : ν}

/-! ### Cycles of a graph -/

/-- The paths of a cycle of a graph: different nodes, at least two of them, each referring to the
next one and the last one to the first; the first path comes again at the end. -/
def IsCycle (g : Graph ν) (c : List Text) : Prop :=
  ∃ n rest, rest ≠ [] ∧ n :: rest ⊆ g.nodes ∧ ((n :: rest).map g.path).Nodup ∧
    (n :: rest ++ [n]).IsChain (fun a b => b ∈ g.targets a) ∧ c = (n :: rest ++ [n]).map g.path

theorem IsCycle.two_lt_length {c : List Text} (h : g.IsCycle c) : 2 < c.length := by
  obtain ⟨n, rest, hrest, _, _, _, rfl⟩ := h
  have := List.length_pos_iff.mpr hrest
  simp only [List.length_map, List.length_append, List.length_cons, List.length_nil]
  omega

/-! ### What a cycle goes through -/

/-- The nodes of a branch inside of a path. -/
def within (g : Graph ν) (b : Branch ν) (p : Text) : List ν :=
  b.line.takeWhile fun n => decide (g.path n ≠ p)

theorem path_ne_of_mem_within {n : ν} {p : Text} (h : n ∈ g.within b p) : g.path n ≠ p := by
  unfold within at h
  simpa using List.mem_takeWhile_imp h

/-- Of two paths only one is inside of the other. -/
theorem notMem_within {p q : Text} (hp : p ∈ (g.within b q).map g.path) :
    q ∉ (g.within b p).map g.path := by
  intro hq
  obtain ⟨m, hm, rfl⟩ := List.mem_map.mp hp
  obtain ⟨n, hn, rfl⟩ := List.mem_map.mp hq
  rcases List.prefix_or_prefix_of_prefix (List.takeWhile_prefix _ : g.within b (g.path n) <+: b.line)
    (List.takeWhile_prefix _ : g.within b (g.path m) <+: b.line) with h | h
  · exact path_ne_of_mem_within (h.mem hm) rfl
  · exact path_ne_of_mem_within (h.mem hn) rfl

/-- A cycle that goes through no more than its last reference has two nodes. -/
theorem eq_nil_of_sameMembers (hl : (b.line.map g.path).Nodup) {inner outer : List ν}
    (hline : b.line = b.1 :: inner ++ t :: outer)
    (hsame : SameMembers ((t :: inner.reverse ++ [b.1, t]).map g.path) [g.path b.1, g.path t]) :
    inner = [] := by
  refine List.eq_nil_iff_forall_not_mem.mpr fun n hn => ?_
  rw [hline, List.cons_append, List.map_cons, List.map_append, List.nodup_cons,
    List.nodup_append] at hl
  obtain ⟨hfirst, _, _, hlast⟩ := hl
  have hmem : g.path n ∈ (t :: inner.reverse ++ [b.1, t]).map g.path := by
    refine List.mem_map_of_mem (List.mem_append_left _ (List.mem_cons_of_mem t ?_))
    exact List.mem_reverse.mpr hn
  rcases List.mem_cons.mp ((hsame _).mp hmem) with heq | hmem
  · exact hfirst (heq ▸ List.mem_append_left _ (List.mem_map_of_mem hn))
  · exact hlast _ (List.mem_map_of_mem hn) _ (List.mem_map_of_mem List.mem_cons_self)
      (List.mem_singleton.mp hmem)

variable [DecidableEq ν]

/-- A cycle goes down its branch from the node that is referred to, or it is only the reference to a
node that shares its path with one of the branch. -/
theorem cycleOf_cases (hl : (b.line.map g.path).Nodup) (hb : g.isBack b t = true) :
    (∃ inner outer, b.line = b.1 :: inner ++ t :: outer ∧
      g.cycleOf b t = (t :: inner.reverse ++ [b.1, t]).map g.path) ∨
    (t ∉ b.line ∧ g.cycleOf b t = [g.path b.1, g.path t]) := by
  by_cases ht : t ∈ b.line
  · left
    rcases List.mem_cons.mp ht with heq | habove
    · exact absurd heq (isBack_iff.mp hb).1
    · obtain ⟨inner, outer, hsplit⟩ := List.append_of_mem habove
      have hline : b.line = b.1 :: inner ++ t :: outer := by
        rw [Branch.line, hsplit, List.cons_append]
      have houter : t ∉ outer := by
        have hnodup := hl.of_map
        rw [hline] at hnodup
        exact (List.nodup_cons.mp (List.nodup_append.mp hnodup).2.1).1
      refine ⟨inner, outer, hline, ?_⟩
      rw [cycleOf_of_eq_append hline houter, List.reverse_cons, ← List.cons_append,
        List.append_assoc]
      rfl
  · exact .inr ⟨ht, cycleOf_of_notMem ht⟩

/-- A cycle ends with the reference that closes it. -/
theorem suffix_cycleOf (hl : (b.line.map g.path).Nodup) (hb : g.isBack b t = true) :
    [g.path b.1, g.path t] <:+ g.cycleOf b t := by
  rcases cycleOf_cases hl hb with ⟨inner, outer, _, hcycle⟩ | ⟨_, hcycle⟩
  · rw [hcycle, List.map_append]
    exact List.suffix_append _ _
  · exact ⟨[], hcycle.symm⟩

theorem mem_cycleOf (hl : (b.line.map g.path).Nodup) (hb : g.isBack b t = true) {p : Text}
    (h : p ∈ g.cycleOf b t) : p = g.path t ∨ p ∈ (g.within b (g.path t)).map g.path := by
  rcases cycleOf_cases hl hb with ⟨inner, outer, hline, hcycle⟩ | ⟨_, hcycle⟩
  · have hwithin : g.within b (g.path t) = b.1 :: inner := by
      rw [within, hline, List.takeWhile_append_of_pos, List.takeWhile_cons_of_neg (by simp),
        List.append_nil]
      intro n hn
      rw [hline, List.map_append] at hl
      exact decide_eq_true ((List.nodup_append.mp hl).2.2 _ (List.mem_map_of_mem hn) _
        (List.mem_map_of_mem List.mem_cons_self))
    rw [hcycle] at h
    obtain ⟨n, hn, rfl⟩ := List.mem_map.mp h
    rw [hwithin]
    simp only [List.mem_append, List.mem_cons, List.mem_reverse, List.not_mem_nil, or_false] at hn
    rcases hn with (rfl | hn) | rfl | rfl
    · exact .inl rfl
    · exact .inr (List.mem_map_of_mem (List.mem_cons_of_mem _ hn))
    · exact .inr (List.mem_map_of_mem List.mem_cons_self)
    · exact .inl rfl
  · rw [hcycle] at h
    rcases List.mem_cons.mp h with rfl | h
    · by_cases hp : g.path b.1 = g.path t
      · exact .inl hp
      · right
        rw [within, Branch.line, List.takeWhile_cons_of_pos (by simpa using hp)]
        exact List.mem_map_of_mem List.mem_cons_self
    · exact .inl (List.mem_singleton.mp h)

theorem path_mem_line (hl : (b.line.map g.path).Nodup) (hb : g.isBack b t = true) {p : Text}
    (h : p ∈ g.cycleOf b t) : ∃ n ∈ b.line, g.path n = p := by
  rcases mem_cycleOf hl hb h with rfl | h
  · exact (isBack_iff.mp hb).2
  · obtain ⟨n, hn, rfl⟩ := List.mem_map.mp h
    exact ⟨n, (List.takeWhile_prefix _).mem hn, rfl⟩

/-! ### Cycles with the same members -/

/-- A node whose path is on another cycle is in the branch of that cycle. -/
theorem Tree.line_suffix_of_mem (h : Tree g root bs) (hb : b ∈ bs) (hc : c ∈ bs)
    (hu : g.isBack c u = true) (hmem : g.path b.1 ∈ g.cycleOf c u) : b.line <:+ c.line := by
  obtain ⟨n, hn, hp⟩ := path_mem_line (h.line_paths_nodup hc) hu hmem
  obtain ⟨d, hd, rfl⟩ := h.exists_of_mem_line hc hn
  obtain rfl := h.eq_of_path hd hb hp
  exact h.line_suffix hc hd hn

/-- Cycles with the same members are told by one node for references to one path. -/
theorem Tree.eq_of_sameMembers (h : Tree g root bs) (hb : b ∈ bs) (hc : c ∈ bs)
    (ht : g.isBack b t = true) (hu : g.isBack c u = true)
    (hsame : SameMembers (g.cycleOf b t) (g.cycleOf c u)) : b = c ∧ g.path t = g.path u := by
  have hlb := h.line_paths_nodup hb
  have hlc := h.line_paths_nodup hc
  have hends : ∀ {b : Branch ν} {t : ν}, (b.line.map g.path).Nodup → g.isBack b t = true →
      g.path b.1 ∈ g.cycleOf b t ∧ g.path t ∈ g.cycleOf b t := by
    intro b t hl ht
    have hsuffix := suffix_cycleOf hl ht
    exact ⟨hsuffix.mem List.mem_cons_self,
      hsuffix.mem (List.mem_cons_of_mem _ (List.mem_singleton_self _))⟩
  have hbc := h.line_suffix_of_mem hb hc hu ((hsame _).mp (hends hlb ht).1)
  have hcb := h.line_suffix_of_mem hc hb ht ((hsame _).mpr (hends hlc hu).1)
  have hline : b.line = c.line := hbc.eq_of_length_le hcb.length_le
  obtain rfl : b = c := Prod.ext (List.cons.inj hline).1 (List.cons.inj hline).2
  refine ⟨rfl, ?_⟩
  -- otherwise each of the two paths is inside of the other
  rcases mem_cycleOf hlc hu ((hsame _).mp (hends hlb ht).2) with heq | htu
  · exact heq
  · rcases mem_cycleOf hlb ht ((hsame _).mpr (hends hlc hu).2) with heq | hut
    · exact heq.symm
    · exact absurd hut (notMem_within htu)

/-- More than the last reference is told when the branch has the node that is referred to. -/
theorem two_lt_length_cycleOf_iff (hl : (b.line.map g.path).Nodup) (ht : g.isBack b t = true) :
    2 < (g.cycleOf b t).length ↔ t ∈ b.line := by
  rcases cycleOf_cases hl ht with ⟨inner, outer, hline, hcycle⟩ | ⟨hmem, hcycle⟩
  · have hmem : t ∈ b.line := hline ▸ List.mem_append_right _ List.mem_cons_self
    rw [hcycle]
    simp [hmem]
  · rw [hcycle]
    exact iff_of_false (Nat.lt_irrefl 2) hmem

/-- The cycle that a reference closes depends on its path and on whether its node is in the
branch. -/
theorem cycleOf_congr (hl : (b.line.map g.path).Nodup) (hp : g.path t = g.path u)
    (hmem : t ∈ b.line ↔ u ∈ b.line) : g.cycleOf b t = g.cycleOf b u := by
  by_cases ht : t ∈ b.line
  · rw [List.inj_on_of_nodup_map hl ht (hmem.mp ht) hp]
  · rw [cycleOf_of_notMem ht, cycleOf_of_notMem fun hu => ht (hmem.mpr hu), hp]

/-- Cycles that a node tells for references to one path are equal, or one of them is a cycle of two
nodes and the other one only its last reference. -/
theorem eq_or_of_sameMembers (hl : (b.line.map g.path).Nodup) (ht : g.isBack b t = true)
    (hu : g.isBack b u = true) (hp : g.path t = g.path u)
    (hsame : SameMembers (g.cycleOf b t) (g.cycleOf b u)) : g.cycleOf b t = g.cycleOf b u ∨
      ∃ p q, (g.cycleOf b t = [p, q, p] ∧ g.cycleOf b u = [q, p]) ∨
        (g.cycleOf b u = [p, q, p] ∧ g.cycleOf b t = [q, p]) := by
  have hmixed : ∀ {t u : ν}, g.isBack b t = true → g.path t = g.path u → t ∈ b.line →
      u ∉ b.line → SameMembers (g.cycleOf b t) (g.cycleOf b u) →
      ∃ p q, g.cycleOf b t = [p, q, p] ∧ g.cycleOf b u = [q, p] := by
    intro t u ht hp hmem hu hsame
    rcases cycleOf_cases hl ht with ⟨inner, outer, hline, hcycle⟩ | ⟨hn, _⟩
    · rw [hcycle, cycleOf_of_notMem hu, ← hp] at hsame
      rw [hcycle, cycleOf_of_notMem hu, eq_nil_of_sameMembers hl hline hsame, ← hp]
      exact ⟨_, _, rfl, rfl⟩
    · exact absurd hmem hn
  by_cases htm : t ∈ b.line
  · by_cases hum : u ∈ b.line
    · exact .inl (cycleOf_congr hl hp (iff_of_true htm hum))
    · obtain ⟨p, q, h⟩ := hmixed ht hp htm hum hsame
      exact .inr ⟨p, q, .inl h⟩
  · by_cases hum : u ∈ b.line
    · obtain ⟨p, q, h⟩ := hmixed hu hp.symm hum htm fun x => (hsame x).symm
      exact .inr ⟨p, q, .inr h⟩
    · exact .inl (cycleOf_congr hl hp (iff_of_false htm hum))

/-! ### The cycles of a search -/

/-- What a search tells, with the branch and the reference that it is told for. -/
theorem mem_told_iff {bs : List (Branch ν)} {cs : List (List Text)}
    (h : cs.Perm (bs.flatMap fun b => g.told b (g.targets b.1))) {c : List Text} :
    c ∈ cs ↔ ∃ b ∈ bs, ∃ t ∈ g.targets b.1, g.isBack b t = true ∧ g.cycleOf b t = c := by
  simp only [h.mem_iff, List.mem_flatMap, told, List.mem_map, List.mem_filter, and_assoc]

theorem sameMembers_cases (h : Tree g root bs) {cs : List (List Text)}
    (hcs : cs.Perm (bs.flatMap fun b => g.told b (g.targets b.1))) {c d : List Text} (hc : c ∈ cs)
    (hd : d ∈ cs) (hsame : SameMembers c d) :
    c = d ∨ ∃ p q, (c = [p, q, p] ∧ d = [q, p]) ∨ (d = [p, q, p] ∧ c = [q, p]) := by
  obtain ⟨b, hb, t, _, ht, rfl⟩ := (mem_told_iff hcs).mp hc
  obtain ⟨b', hb', u, _, hu, rfl⟩ := (mem_told_iff hcs).mp hd
  obtain ⟨rfl, hp⟩ := h.eq_of_sameMembers hb hb' ht hu hsame
  exact eq_or_of_sameMembers (h.line_paths_nodup hb) ht hu hp hsame

/-- **Apart.**  No two cycles that a search tells have the same members exactly when none comes
twice and none is only the last reference of another. -/
theorem cycles_apart_iff (hg : g.Contained) (hr : root ∈ g.nodes) :
    ((g.reach root).cycles.Pairwise fun c d => ¬ SameMembers c d) ↔
      (g.reach root).cycles.Nodup ∧
        ∀ p q, [q, p] ∈ (g.reach root).cycles → [p, q, p] ∉ (g.reach root).cycles := by
  obtain ⟨bs, h, _, hcs⟩ := exists_tree hg hr
  have hsymm : Std.Symm fun c d : List Text => ¬ SameMembers c d :=
    ⟨fun c d hn hs => hn fun p => (hs p).symm⟩
  constructor
  · intro hpair
    have hne : ∀ c d, ¬ SameMembers c d → c ≠ d := by
      rintro c _ hn rfl
      exact hn fun p => Iff.rfl
    refine ⟨hpair.imp (hne _ _), fun p q hlast hcycle => ?_⟩
    refine hpair.forall hlast hcycle (by simp) fun x => ?_
    simp only [List.mem_cons, List.not_mem_nil, or_false]
    tauto
  · rintro ⟨hnodup, hlast⟩
    refine hnodup.pairwise_of_forall_ne fun c hc d hd hne hsame => ?_
    rcases sameMembers_cases h hcs hc hd hsame with heq | ⟨p, q, ⟨rfl, rfl⟩ | ⟨rfl, rfl⟩⟩
    · exact hne heq
    · exact hlast p q hd hc
    · exact hlast p q hc hd

theorem Tree.exists_fst_eq_iff (h : Tree g root bs) (hb : b ∈ bs) (ht : g.isBack b t = true) :
    (∃ d ∈ bs, d.1 = t) ↔ t ∈ b.line := by
  constructor
  · rintro ⟨d, hd, rfl⟩
    obtain ⟨_, n, hn, hp⟩ := isBack_iff.mp ht
    obtain ⟨e, he, rfl⟩ := h.exists_of_mem_line hb hn
    rwa [← h.eq_of_path he hd hp]
  · exact h.exists_of_mem_line hb

/-- A cycle comes as often as references of its last node to its first path close it: those to the
node that has been found with the path when it goes down a branch, else those to other nodes. -/
theorem count_cycles (hg : g.Contained) (hr : root ∈ g.nodes) {c : List Text}
    (hc : c ∈ (g.reach root).cycles) :
    ∃ u ∈ (g.reach root).nodes, ∃ p, [g.path u, p] <:+ c ∧
      (g.reach root).cycles.count c = (g.targets u).countP fun t =>
        decide (t ≠ u ∧ g.path t = p ∧ (t ∈ (g.reach root).nodes ↔ 2 < c.length)) := by
  obtain ⟨bs, h, hnodes, hcs⟩ := exists_tree hg hr
  obtain ⟨b, hb, t, htb, ht, rfl⟩ := (mem_told_iff hcs).mp hc
  have hl := h.line_paths_nodup hb
  refine ⟨b.1, (hnodes b.1).mpr ⟨b, hb, rfl⟩, g.path t, suffix_cycleOf hl ht, ?_⟩
  have hother : ∀ ds : List (Branch ν), (∀ d ∈ ds, d ∈ bs ∧ d ≠ b) →
      (ds.flatMap fun d => g.told d (g.targets d.1)).count (g.cycleOf b t) = 0 := by
    intro ds hds
    rw [List.count_eq_zero, List.mem_flatMap]
    rintro ⟨d, hd, htold⟩
    obtain ⟨hmem, hne⟩ := hds d hd
    obtain ⟨u, hu, heq⟩ := List.mem_map.mp htold
    refine hne (h.eq_of_sameMembers hmem hb (List.mem_filter.mp hu).2 ht fun p => ?_).1
    rw [heq]
  have hcount : (g.reach root).cycles.count (g.cycleOf b t) =
      (g.told b (g.targets b.1)).count (g.cycleOf b t) := by
    obtain ⟨before, after, hsplit⟩ := List.append_of_mem hb
    have hnodup := h.paths_nodup.of_map
    rw [hsplit, List.nodup_middle, List.nodup_cons] at hnodup
    have hne : ∀ d ∈ before ++ after, d ∈ bs ∧ d ≠ b := by
      intro d hd
      refine ⟨?_, fun heq => hnodup.1 (heq ▸ hd)⟩
      rw [hsplit, List.perm_middle.mem_iff]
      exact List.mem_cons_of_mem b hd
    rw [hcs.count_eq, hsplit, (List.perm_middle.flatMap_right _).count_eq, List.flatMap_cons,
      List.count_append, hother _ hne, Nat.add_zero]
  rw [hcount, told, List.count, List.countP_map, List.countP_filter]
  refine List.countP_congr fun x hx => ?_
  simp only [Function.comp_apply, Bool.and_eq_true, beq_iff_eq, decide_eq_true_eq, hnodes]
  constructor
  · rintro ⟨heq, hxb⟩
    have hp : g.path x = g.path t := by
      have hx := suffix_cycleOf hl hxb
      rw [heq] at hx
      have := (List.suffix_of_suffix_length_le hx (suffix_cycleOf hl ht) le_rfl).eq_of_length rfl
      simpa using this
    refine ⟨(isBack_iff.mp hxb).1, hp, ?_⟩
    rw [h.exists_fst_eq_iff hb hxb, ← heq, two_lt_length_cycleOf_iff hl hxb]
  · rintro ⟨hne, hp, hiff⟩
    have hxb : g.isBack b x = true := by
      obtain ⟨_, n, hn, hnt⟩ := isBack_iff.mp ht
      exact isBack_iff.mpr ⟨hne, n, hn, hnt.trans hp.symm⟩
    rw [h.exists_fst_eq_iff hb hxb, two_lt_length_cycleOf_iff hl ht] at hiff
    exact ⟨cycleOf_congr hl hp hiff, hxb⟩

/-! ### Cycles in a closed graph -/

/-- In a closed graph the cycles told are cycles of the graph. -/
theorem isCycle_of_mem_cycles (hg : g.Closed) (hr : root ∈ g.nodes) {c : List Text}
    (hc : c ∈ (g.reach root).cycles) : g.IsCycle c := by
  obtain ⟨bs, h, hnodes, hcs⟩ := exists_tree hg.targets_mem hr
  obtain ⟨b, hb, t, htb, ht, rfl⟩ := (mem_told_iff hcs).mp hc
  have hl := h.line_paths_nodup hb
  have hfound : ∀ d ∈ bs, d.1 ∈ g.nodes := by
    intro d hd
    exact ((mem_reach_nodes hg hr).mp ((hnodes d.1).mpr ⟨d, hd, rfl⟩)).mem_nodes hg hr
  have hline : b.line ⊆ g.nodes := by
    intro n hn
    obtain ⟨d, hd, rfl⟩ := h.exists_of_mem_line hb hn
    exact hfound d hd
  rcases cycleOf_cases hl ht with ⟨inner, outer, hup, hcycle⟩ | ⟨hmem, _⟩
  · have hup : b.line = b.1 :: inner ++ [t] ++ outer := by
      rw [hup, List.append_assoc, List.singleton_append]
    have hmem : b.1 :: inner ++ [t] ⊆ b.line := by
      rw [hup]
      exact List.subset_append_left _ _
    have hchain := h.line_isChain hb
    rw [hup] at hl hchain
    have hdown : t :: (inner.reverse ++ [b.1]) = (b.1 :: inner ++ [t]).reverse := by simp
    refine ⟨t, inner.reverse ++ [b.1], by simp, ?_, ?_, ?_, ?_⟩
    · rw [hdown]
      exact fun n hn => hline (hmem (List.mem_reverse.mp hn))
    · rw [hdown, List.map_reverse, List.nodup_reverse]
      rw [List.map_append] at hl
      exact (List.nodup_append.mp hl).1
    · have hpath : (t :: (inner.reverse ++ [b.1])).IsChain fun m n => n ∈ g.targets m := by
        rw [hdown, List.isChain_reverse]
        exact hchain.left_of_append
      refine hpath.append (.singleton t) ?_
      rintro m hm n hn
      rw [← List.cons_append, List.getLast?_concat, Option.mem_def, Option.some.injEq] at hm
      obtain rfl : t = n := Option.some.inj hn
      rwa [← hm]
    · rw [hcycle]
      simp
  · -- the node that has the path is in the branch itself
    obtain ⟨_, n, hn, hp⟩ := isBack_iff.mp ht
    rw [hg.path_inj n (hline hn) t (hg.targets_mem _ (hfound b hb) t htb) hp] at hn
    exact absurd hn hmem

/-- In a closed graph a cycle comes as often as its last node refers to the first one. -/
theorem count_cycles_of_closed (hg : g.Closed) (hr : root ∈ g.nodes) {c : List Text}
    (hc : c ∈ (g.reach root).cycles) : ∃ u ∈ g.nodes, ∃ t ∈ g.nodes,
      [g.path u, g.path t] <:+ c ∧ (g.reach root).cycles.count c = (g.targets u).count t := by
  obtain ⟨u, hu, p, hsuffix, hcount⟩ := count_cycles hg.targets_mem hr hc
  have hcycle := isCycle_of_mem_cycles hg hr hc
  have hlength := hcycle.two_lt_length
  have hleads := (mem_reach_nodes hg hr).mp hu
  -- some reference is counted
  have hpos := List.count_pos_iff.mpr hc
  rw [hcount, List.countP_pos_iff] at hpos
  obtain ⟨t, ht, htp⟩ := hpos
  simp only [decide_eq_true_eq] at htp
  obtain ⟨hne, rfl, htmem⟩ := htp
  have hnodes : t ∈ g.nodes := hg.targets_mem u (hleads.mem_nodes hg hr) t ht
  refine ⟨u, hleads.mem_nodes hg hr, t, hnodes, hsuffix, hcount.trans ?_⟩
  refine List.countP_congr fun x hx => ?_
  simp only [decide_eq_true_eq, beq_iff_eq]
  constructor
  · rintro ⟨_, hp, _⟩
    exact hg.path_inj x (hg.targets_mem u (hleads.mem_nodes hg hr) x hx) t hnodes hp
  · rintro rfl
    exact ⟨hne, rfl, htmem⟩

/-- In a closed graph the members tell the cycles apart when none comes twice. -/
theorem cycles_apart_iff_nodup (hg : g.Closed) (hr : root ∈ g.nodes) :
    ((g.reach root).cycles.Pairwise fun c d => ¬ SameMembers c d) ↔
      (g.reach root).cycles.Nodup := by
  rw [cycles_apart_iff hg.targets_mem hr]
  refine and_iff_left fun p q hlast _ => ?_
  exact Nat.lt_irrefl 2 (isCycle_of_mem_cycles hg hr hlast).two_lt_length

/-- When a node that the root leads to refers to it, a cycle with this reference is told that goes
through nodes which the root leads to and which lead to that node. -/
theorem exists_cycle_of_root (hg : g.Contained) (hr : root ∈ g.nodes)
    (hu : u ∈ (g.reach root).nodes) (hback : root ∈ g.targets u) (hne : root ≠ u) :
    ∃ c ∈ (g.reach root).cycles, [g.path u, g.path root] <:+ c ∧
      ∀ p ∈ c, ∃ n ∈ (g.reach root).nodes, g.path n = p ∧ Leads g n u := by
  obtain ⟨bs, h, hnodes, hcs⟩ := exists_tree hg hr
  obtain ⟨b, hb, rfl⟩ := (hnodes u).mp hu
  have hl := h.line_paths_nodup hb
  have hroot : root ∈ b.line := List.mem_of_getLast? (h.getLast?_line hb)
  have hb' : g.isBack b root = true := isBack_iff.mpr ⟨hne, root, hroot, rfl⟩
  refine ⟨_, (mem_told_iff hcs).mpr ⟨b, hb, root, hback, hb', rfl⟩, suffix_cycleOf hl hb',
    fun p hp => ?_⟩
  obtain ⟨n, hn, hpath⟩ := path_mem_line hl hb' hp
  obtain ⟨d, hd, rfl⟩ := h.exists_of_mem_line hb hn
  exact ⟨d.1, (hnodes d.1).mpr ⟨d, hd, rfl⟩, hpath, h.leads_of_mem_line hb hn⟩

end Graph
end Registry
end Scopewright
