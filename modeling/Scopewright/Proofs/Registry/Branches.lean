import Mathlib.Data.List.Chain
import Scopewright.Proofs.Registry.Reach

/-! # The tree of a search

A node is entered once, from the node that is innermost on the chain then, so the nodes that a search
finds form a tree (`Graph.Tree`).  It is kept as the list of its branches: each node found with the
nodes above it, the innermost first.  Above a node stand the same nodes as long as it is on the chain
(`Tree.line_suffix`).  So the cycles that a search tells can be read off its tree: for each node
found, those of the references that lead back into its branch (`exists_tree`). -/

namespace Scopewright
namespace Registry
namespace Graph

variable {ν : Type} {g : Graph ν}

/-- A node that a search has found, and the nodes above it on the chain, the innermost first. -/
abbrev Branch (ν : Type) := ν × List ν

/-- The nodes of a branch, from the innermost one up to the root. -/
def Branch.line (b : Branch ν) : List ν := b.1 :: b.2

theorem Branch.map_fst_line (b : Branch ν) :
    (b.line.map fun n => (n, ([] : List ν))).map (·.1) = b.line := by
  rw [List.map_map]
  exact List.map_id b.line

/-- The branches of a search that began at `root`, the last one first. -/
inductive Tree (g : Graph ν) (root : ν) : List (Branch ν) → Prop
  | start : Tree g root [(root, [])]
  | enter {bs : List (Branch ν)} {n t : ν} {above : List ν} : Tree g root bs → (n, above) ∈ bs →
      t ∈ g.targets n → (∀ b ∈ bs, g.path b.1 ≠ g.path t) → Tree g root ((t, n :: above) :: bs)

namespace Tree

variable {root : ν} {bs : List (Branch ν)} {b c : Branch ν}

/-- The nodes found have different paths. -/
theorem paths_nodup (h : Tree g root bs) : (bs.map fun b => g.path b.1).Nodup := by
  induction h with
  | start => exact List.nodup_singleton _
  | enter _ _ _ ht ih =>
      refine List.nodup_cons.mpr ⟨fun hmem => ?_, ih⟩
      obtain ⟨b, hb, hp⟩ := List.mem_map.mp hmem
      exact ht b hb hp

theorem eq_of_path (h : Tree g root bs) (hb : b ∈ bs) (hc : c ∈ bs)
    (hp : g.path b.1 = g.path c.1) : b = c :=
  List.inj_on_of_nodup_map h.paths_nodup hb hc hp

/-- The nodes above a node are found before it, and in the same order. -/
theorem line_sublist (h : Tree g root bs) (hb : b ∈ bs) : b.line.Sublist (bs.map (·.1)) := by
  induction h generalizing b with
  | start =>
      rw [List.mem_singleton.mp hb]
      exact List.Sublist.refl _
  | enter _ hn _ _ ih =>
      rcases List.mem_cons.mp hb with rfl | hb
      · exact (ih hn).cons_cons _
      · exact (ih hb).cons _

theorem exists_of_mem_line (h : Tree g root bs) (hb : b ∈ bs) {n : ν} (hn : n ∈ b.line) :
    ∃ c ∈ bs, c.1 = n :=
  List.mem_map.mp ((h.line_sublist hb).mem hn)

theorem line_paths_nodup (h : Tree g root bs) (hb : b ∈ bs) : (b.line.map g.path).Nodup := by
  have hp := h.paths_nodup
  rw [← Function.comp_def g.path, ← List.map_map] at hp
  exact hp.sublist ((h.line_sublist hb).map g.path)

/-- Each node of a branch is referred to by the one above it. -/
theorem line_isChain (h : Tree g root bs) (hb : b ∈ bs) :
    b.line.IsChain fun m n => m ∈ g.targets n := by
  induction h generalizing b with
  | start =>
      rw [List.mem_singleton.mp hb]
      exact .singleton root
  | enter _ hn ht _ ih =>
      rcases List.mem_cons.mp hb with rfl | hb
      · exact .cons_cons ht (ih hn)
      · exact ih hb

/-- A branch ends with the root. -/
theorem getLast?_line (h : Tree g root bs) (hb : b ∈ bs) : b.line.getLast? = some root := by
  induction h generalizing b with
  | start =>
      rw [List.mem_singleton.mp hb]
      rfl
  | @enter bs n t above _ hn _ _ ih =>
      rcases List.mem_cons.mp hb with rfl | hb
      · exact (List.getLast?_cons_cons (a := t)).trans (ih hn)
      · exact ih hb

/-- Above a node of a branch stand the nodes above it in its own branch. -/
theorem line_suffix (h : Tree g root bs) (hb : b ∈ bs) (hc : c ∈ bs) (hmem : c.1 ∈ b.line) :
    c.line <:+ b.line := by
  induction h generalizing b with
  | start =>
      obtain rfl := List.mem_singleton.mp hb
      obtain rfl := List.mem_singleton.mp hc
      exact List.suffix_refl _
  | @enter bs n t above h hn _ ht ih =>
      rcases List.mem_cons.mp hc with rfl | hc
      · rcases List.mem_cons.mp hb with rfl | hb
        · exact List.suffix_refl _
        · -- a node that is just found is in no other branch
          obtain ⟨d, hd, hdt⟩ := h.exists_of_mem_line hb hmem
          exact absurd (congrArg g.path hdt) (ht d hd)
      · rcases List.mem_cons.mp hb with rfl | hb
        · rcases List.mem_cons.mp hmem with hct | hmem
          · exact absurd (congrArg g.path hct) (ht c hc)
          · exact (ih hn hc hmem).trans (List.suffix_cons t _)
        · exact ih hb hc hmem

/-- Each node of a branch leads to the innermost one. -/
theorem leads_of_mem_line (h : Tree g root bs) (hb : b ∈ bs) {n : ν} (hn : n ∈ b.line) :
    Leads g n b.1 := by
  induction h generalizing b with
  | start =>
      rw [List.mem_singleton.mp hb] at hn ⊢
      rw [List.mem_singleton.mp hn]
      exact .refl _
  | @enter bs m t above _ hm ht _ ih =>
      rcases List.mem_cons.mp hb with rfl | hb
      · rcases List.mem_cons.mp hn with rfl | hn
        · exact .refl _
        · exact (ih hm hn).tail ht
      · exact ih hb hn

end Tree

/-! ### References back into a branch -/

variable [DecidableEq ν]

/-- A reference of the innermost node leads back into the branch, and not to that node itself. -/
def isBack (g : Graph ν) (b : Branch ν) (t : ν) : Bool :=
  decide (t ≠ b.1) && b.line.any fun n => decide (g.path n = g.path t)

theorem isBack_iff {b : Branch ν} {t : ν} :
    g.isBack b t = true ↔ t ≠ b.1 ∧ ∃ n ∈ b.line, g.path n = g.path t := by
  simp only [isBack, Bool.and_eq_true, decide_eq_true_eq, List.any_eq_true]

/-- The cycle that a reference back into a branch closes. -/
def cycleOf (g : Graph ν) (b : Branch ν) (t : ν) : List Text :=
  Search.cycleTo g ⟨b.line.map fun n => (n, []), [], []⟩ t

/-- The cycles that some references of the innermost node close. -/
def told (g : Graph ν) (b : Branch ν) (ts : List ν) : List (List Text) :=
  (ts.filter (g.isBack b)).map (g.cycleOf b)

theorem told_of_back {b : Branch ν} {t : ν} (h : g.isBack b t = true) (ts : List ν) :
    g.told b (t :: ts) = g.cycleOf b t :: g.told b ts := by
  rw [told, List.filter_cons_of_pos h]
  rfl

theorem told_of_not {b : Branch ν} {t : ν} (h : ¬ g.isBack b t = true) (ts : List ν) :
    g.told b (t :: ts) = g.told b ts := by
  rw [told, List.filter_cons_of_neg h]
  rfl

/-- What a reference closes depends on the nodes of the chain only. -/
theorem cycleTo_eq (s : Search ν) {b : Branch ν} (h : s.chain.map (·.1) = b.line) (t : ν) :
    s.cycleTo g t = g.cycleOf b t := by
  simp only [cycleOf, Search.cycleTo, h, Branch.map_fst_line]

theorem cycleOf_eq (g : Graph ν) (b : Branch ν) (t : ν) : g.cycleOf b t =
    (b.line.reverse.drop ((b.line.reverse.findIdx? fun m => decide (m = t)).getD
      b.2.length)).map g.path ++ [g.path t] := by
  have hlength : b.line.reverse.length - 1 = b.2.length := by
    rw [List.length_reverse]
    rfl
  simp only [cycleOf, Search.cycleTo, Branch.map_fst_line, hlength]

/-- A node of the branch is where its cycle begins and ends. -/
theorem cycleOf_of_eq_append {b : Branch ν} {t : ν} {inner outer : List ν}
    (h : b.line = inner ++ t :: outer) (ht : t ∉ outer) :
    g.cycleOf b t = (t :: inner.reverse ++ [t]).map g.path := by
  have hnodes : b.line.reverse = outer.reverse ++ t :: inner.reverse := by
    rw [h, List.reverse_append, List.reverse_cons, List.append_assoc, List.singleton_append]
  have hstart : b.line.reverse.findIdx? (fun m => decide (m = t)) = some outer.reverse.length := by
    have hnone : outer.reverse.findIdx? (fun m => decide (m = t)) = none := by
      rw [List.findIdx?_eq_none_iff]
      intro m hm
      rw [decide_eq_false_iff_not]
      rintro rfl
      exact ht (List.mem_reverse.mp hm)
    rw [hnodes, List.findIdx?_append, hnone, List.findIdx?_cons]
    simp
  rw [cycleOf_eq, hstart, Option.getD_some, hnodes, List.drop_left, List.map_append]
  rfl

/-- Of a node that only shares its path with one of the branch, the last reference is told. -/
theorem cycleOf_of_notMem {b : Branch ν} {t : ν} (h : t ∉ b.line) :
    g.cycleOf b t = [g.path b.1, g.path t] := by
  have hnone : b.line.reverse.findIdx? (fun m => decide (m = t)) = none := by
    rw [List.findIdx?_eq_none_iff]
    intro m hm
    rw [decide_eq_false_iff_not]
    rintro rfl
    exact h (List.mem_reverse.mp hm)
  rw [cycleOf_eq, hnone, Option.getD_none, Branch.line, List.reverse_cons,
    List.drop_left' (List.length_reverse ..)]
  rfl

/-! ### The tree of a search -/

namespace Search

/-- The cycles that the references on a chain will close which are still to be followed. -/
def pending (g : Graph ν) : List (ν × List ν) → List (List Text)
  | [] => []
  | f :: rest => g.told (f.1, rest.map (·.1)) f.2 ++ pending g rest

/-- A search has grown some branches: they have the nodes found, the chain is one of them, and their
references back have been told or are still to be followed. -/
structure Grown (g : Graph ν) (root : ν) (s : Search ν) (bs : List (Branch ν)) : Prop where
  tree : Tree g root bs
  found : s.found = bs.map (·.1)
  chain : ∀ f rest, f :: rest <:+ s.chain → (f.1, rest.map (·.1)) ∈ bs
  cycles : (s.cycles ++ pending g s.chain).Perm (bs.flatMap fun b => g.told b (g.targets b.1))

theorem grown_start (g : Graph ν) (root : ν) : Grown g root (start g root) [(root, [])] where
  tree := .start
  found := rfl
  chain f rest h := by
    rcases List.suffix_cons_iff.mp h with h | h
    · obtain ⟨rfl, rfl⟩ := List.cons.inj h
      exact List.mem_singleton_self _
    · exact absurd (List.suffix_nil.mp h) (List.cons_ne_nil f rest)
  cycles := List.Perm.refl _

namespace Grown

variable {root n t : ν} {ts found : List ν} {rest : List (ν × List ν)} {cycles : List (List Text)}
  {bs : List (Branch ν)}

/-- The chain is a branch. -/
theorem head_mem {f : ν × List ν} (h : Grown g root ⟨f :: rest, found, cycles⟩ bs) :
    (f.1, rest.map (·.1)) ∈ bs := h.chain f rest (List.suffix_refl _)

/-- Following a reference of a node leaves the chain a branch. -/
theorem chain_drop (h : Grown g root ⟨(n, t :: ts) :: rest, found, cycles⟩ bs) (f : ν × List ν)
    (below : List (ν × List ν)) (hs : f :: below <:+ (n, ts) :: rest) :
    (f.1, below.map (·.1)) ∈ bs := by
  rcases List.suffix_cons_iff.mp hs with hs | hs
  · obtain ⟨rfl, rfl⟩ := List.cons.inj hs
    exact h.head_mem
  · exact h.chain f below (hs.trans (List.suffix_cons _ _))

/-- A reference that does not lead back is passed over. -/
theorem drop (h : Grown g root ⟨(n, t :: ts) :: rest, found, cycles⟩ bs)
    (ht : ¬ g.isBack (n, rest.map (·.1)) t = true) :
    Grown g root ⟨(n, ts) :: rest, found, cycles⟩ bs where
  tree := h.tree
  found := h.found
  chain := h.chain_drop
  cycles := by
    have hc := h.cycles
    rwa [pending, told_of_not ht] at hc

theorem of_move {s s' : Search ν} (hs : Inside g s) (h : ∃ bs, Grown g root s bs)
    (hm : Move g s s') : ∃ bs, Grown g root s' bs := by
  obtain ⟨bs, h⟩ := h
  cases hm with
  | leave n rest found cycles =>
      refine ⟨bs, h.tree, h.found, fun f below hf => ?_, h.cycles⟩
      exact h.chain f below (hf.trans (List.suffix_cons _ _))
  | itself n ts found rest cycles =>
      exact ⟨bs, h.drop fun hb => (isBack_iff.mp hb).1 rfl⟩
  | @close n t ts found rest cycles hne hc =>
      have hback : g.isBack (n, rest.map (·.1)) t = true := by
        obtain ⟨f, hf, hp⟩ := hc
        exact isBack_iff.mpr ⟨hne, f.1, List.mem_map_of_mem (f := (·.1)) hf, hp⟩
      refine ⟨bs, h.tree, h.found, h.chain_drop, ?_⟩
      have hperm := h.cycles
      rw [pending, told_of_back hback] at hperm
      rw [cycleTo_eq ⟨(n, ts) :: rest, found, cycles⟩ (b := (n, rest.map (·.1))) rfl]
      exact List.perm_middle.symm.trans hperm
  | @pass n t ts found rest cycles hc _ =>
      refine ⟨bs, h.drop fun hb => ?_⟩
      obtain ⟨_, m, hm, hp⟩ := isBack_iff.mp hb
      obtain ⟨f, hf, rfl⟩ := List.mem_map.mp (show m ∈ ((n, ts) :: rest).map (·.1) from hm)
      exact hc f hf hp
  | @enter n t ts found rest cycles ht =>
      have hback : ¬ g.isBack (n, rest.map (·.1)) t = true := by
        intro hb
        obtain ⟨_, m, hm, hp⟩ := isBack_iff.mp hb
        obtain ⟨f, hf, rfl⟩ := List.mem_map.mp (show m ∈ ((n, ts) :: rest).map (·.1) from hm)
        exact ht f.1 ((hs.drop cycles).chain_found f hf) hp
      have hfound : found = bs.map (·.1) := h.found
      have hfresh : ∀ b ∈ bs, g.path b.1 ≠ g.path t := by
        intro b hb
        exact ht b.1 (hfound ▸ List.mem_map_of_mem hb)
      have htarget := hs.chain_targets _ List.mem_cons_self t List.mem_cons_self
      refine ⟨(t, n :: rest.map (·.1)) :: bs, .enter h.tree h.head_mem htarget hfresh, ?_,
        fun f below hf => ?_, ?_⟩
      · rw [List.map_cons, ← hfound]
      · rcases List.suffix_cons_iff.mp hf with hf | hf
        · obtain ⟨rfl, rfl⟩ := List.cons.inj hf
          exact List.mem_cons_self
        · exact List.mem_cons_of_mem _ (h.chain_drop f below hf)
      · have hperm := h.cycles
        rw [pending, told_of_not hback] at hperm
        rw [pending, List.flatMap_cons, List.map_cons]
        exact (List.perm_append_comm_assoc _ _ _).trans (hperm.append_left _)

end Grown

end Search

open Search in
/-- The search from a node grows a tree: its nodes are found, and its references back are told. -/
theorem exists_tree {root : ν} (hg : g.Contained) (hr : root ∈ g.nodes) :
    ∃ bs, Tree g root bs ∧ (∀ n, n ∈ (g.reach root).nodes ↔ ∃ b ∈ bs, b.1 = n) ∧
      (g.reach root).cycles.Perm (bs.flatMap fun b => g.told b (g.targets b.1)) := by
  obtain ⟨s, ⟨_, hs⟩, ⟨bs, h⟩, he⟩ := exists_reach (P := fun s => ∃ bs, Grown g root s bs) hg hr
    ⟨_, grown_start g root⟩ Grown.of_move
  have hc := h.cycles
  rw [hs, pending, List.append_nil] at hc
  rw [he]
  refine ⟨bs, h.tree, fun n => ?_, (List.reverse_perm _).trans hc⟩
  rw [List.mem_reverse, h.found, List.mem_map]

end Graph
end Registry
end Scopewright
