import Mathlib.Data.List.Nodup
import Mathlib.Logic.Function.Iterate
import Mathlib.Logic.Relation
import Scopewright.Registry.Reach

/-! # The search finds what a node leads to

`Search.Move` lists what one more reference can do to a search: a node is left, a reference is passed
over, a reference closes a cycle, or a new node is entered.  `Search.work` falls with each move, so
`searchFuel` steps empty the chain, and what all moves keep holds when the search has ended
(`exists_reach`).

In a graph whose nodes have different paths, `Search.Inv` is kept; its main part says that every
reference of a node found is found as well or stands on the chain, still to be followed.  With an
empty chain the nodes found are closed under references: `mem_reach_nodes` says that they are the
nodes that the root leads to, and `reach_nodes_nodup` that each of them is found once. -/

namespace Scopewright
namespace Registry
namespace Graph

variable {ν : Type} {g : Graph ν}

/-- References stay among the nodes. -/
def Contained (g : Graph ν) : Prop := ∀ a ∈ g.nodes, ∀ b ∈ g.targets a, b ∈ g.nodes

/-- References stay among the nodes, and no two nodes have one path. -/
structure Closed (g : Graph ν) : Prop where
  targets_mem : ∀ a ∈ g.nodes, ∀ b ∈ g.targets a, b ∈ g.nodes
  path_inj : ∀ a ∈ g.nodes, ∀ b ∈ g.nodes, g.path a = g.path b → a = b

theorem Leads.tail {a b c : ν} (h : Leads g a b) (hc : c ∈ g.targets b) : Leads g a c := by
  induction h with
  | refl n => exact .step hc (.refl c)
  | step hb _ ih => exact .step hb (ih hc)

theorem Leads.mem_nodes (hg : g.Closed) {a b : ν} (h : Leads g a b) (ha : a ∈ g.nodes) :
    b ∈ g.nodes := by
  induction h with
  | refl n => exact ha
  | step hb _ ih => exact ih (hg.targets_mem _ ha _ hb)

theorem leads_iff_reflTransGen {a b : ν} :
    Leads g a b ↔ Relation.ReflTransGen (fun m n => n ∈ g.targets m) a b := by
  constructor
  · intro h
    induction h with
    | refl n => exact .refl
    | step hb _ ih => exact ih.head hb
  · intro h
    induction h with
    | refl => exact .refl a
    | tail _ hc ih => exact ih.tail hc

namespace Search

variable {root : ν} {s s' : Search ν}

theorem onChain_iff {t : ν} :
    s.onChain g t = true ↔ ∃ f ∈ s.chain, g.path f.1 = g.path t := by
  simp only [onChain, List.any_eq_true, decide_eq_true_eq]

theorem isFound_iff {t : ν} : s.isFound g t = true ↔ ∃ m ∈ s.found, g.path m = g.path t := by
  simp only [isFound, List.any_eq_true, decide_eq_true_eq]

/-! ### Moves -/

section moves

variable [DecidableEq ν]

/-- What following one more reference can do. -/
inductive Move (g : Graph ν) : Search ν → Search ν → Prop
  | leave (n : ν) (rest : List (ν × List ν)) (found : List ν) (cycles : List (List Text)) :
      Move g ⟨(n, []) :: rest, found, cycles⟩ ⟨rest, found, cycles⟩
  | itself (n : ν) (ts found : List ν) (rest : List (ν × List ν)) (cycles : List (List Text)) :
      Move g ⟨(n, n :: ts) :: rest, found, cycles⟩ ⟨(n, ts) :: rest, found, cycles⟩
  | close {n t : ν} {ts found : List ν} {rest : List (ν × List ν)} {cycles : List (List Text)}
      (hn : t ≠ n) (hc : ∃ f ∈ (n, ts) :: rest, g.path f.1 = g.path t) :
      Move g ⟨(n, t :: ts) :: rest, found, cycles⟩
        ⟨(n, ts) :: rest, found, cycleTo g ⟨(n, ts) :: rest, found, cycles⟩ t :: cycles⟩
  | pass {n t : ν} {ts found : List ν} {rest : List (ν × List ν)} {cycles : List (List Text)}
      (hc : ∀ f ∈ (n, ts) :: rest, g.path f.1 ≠ g.path t)
      (ht : ∃ m ∈ found, g.path m = g.path t) :
      Move g ⟨(n, t :: ts) :: rest, found, cycles⟩ ⟨(n, ts) :: rest, found, cycles⟩
  | enter {n t : ν} {ts found : List ν} {rest : List (ν × List ν)} {cycles : List (List Text)}
      (ht : ∀ m ∈ found, g.path m ≠ g.path t) :
      Move g ⟨(n, t :: ts) :: rest, found, cycles⟩
        ⟨(t, g.targets t) :: (n, ts) :: rest, t :: found, cycles⟩

/-- As long as the chain is not empty, a step is one of the moves. -/
theorem move (g : Graph ν) (hs : s.chain ≠ []) : Move g s (s.advance g) := by
  obtain ⟨chain, found, cycles⟩ := s
  match chain with
  | [] => exact absurd rfl hs
  | (n, []) :: rest => exact .leave n rest found cycles
  | (n, t :: ts) :: rest =>
      simp only [advance]
      split
      · rename_i heq
        rw [heq]
        exact .itself n ts found rest cycles
      · rename_i hne
        split
        · rename_i hc
          exact .close hne (onChain_iff.mp hc)
        · rename_i hc
          rw [onChain_iff] at hc
          split
          · rename_i ht
            exact .pass (fun f hf he => hc ⟨f, hf, he⟩) (isFound_iff.mp ht)
          · rename_i ht
            rw [isFound_iff] at ht
            exact .enter fun m hm he => ht ⟨m, hm, he⟩

/-- What has been found stays found. -/
theorem Move.mem_found {n : ν} (hm : Move g s s') (h : n ∈ s.found) : n ∈ s'.found := by
  cases hm with
  | leave _ _ _ _ => exact h
  | itself _ _ _ _ _ => exact h
  | close _ _ => exact h
  | pass _ _ => exact h
  | enter _ => exact List.mem_cons_of_mem _ h

end moves

/-! ### The nodes of a search -/

/-- A search keeps to the nodes of a graph and to their references. -/
structure Inside (g : Graph ν) (s : Search ν) : Prop where
  found_mem : ∀ n ∈ s.found, n ∈ g.nodes
  chain_found : ∀ f ∈ s.chain, f.1 ∈ s.found
  chain_targets : ∀ f ∈ s.chain, ∀ t ∈ f.2, t ∈ g.targets f.1

namespace Inside

theorem start (hr : root ∈ g.nodes) : Inside g (start g root) where
  found_mem n hn := by rwa [List.mem_singleton.mp hn]
  chain_found f hf := by
    rw [List.mem_singleton.mp hf]
    exact List.mem_singleton_self root
  chain_targets f hf t ht := by
    rw [List.mem_singleton.mp hf] at ht ⊢
    exact ht

theorem leave {f : ν × List ν} {found : List ν} {rest : List (ν × List ν)}
    {cycles : List (List Text)} (h : Inside g ⟨f :: rest, found, cycles⟩) :
    Inside g ⟨rest, found, cycles⟩ where
  found_mem := h.found_mem
  chain_found f hf := h.chain_found f (List.mem_cons_of_mem _ hf)
  chain_targets f hf := h.chain_targets f (List.mem_cons_of_mem _ hf)

/-- Passing over a reference keeps to the nodes. -/
theorem drop {n t : ν} {ts found : List ν} {rest : List (ν × List ν)}
    {cycles : List (List Text)} (cycles' : List (List Text))
    (h : Inside g ⟨(n, t :: ts) :: rest, found, cycles⟩) :
    Inside g ⟨(n, ts) :: rest, found, cycles'⟩ where
  found_mem := h.found_mem
  chain_found f hf := by
    rcases List.mem_cons.mp hf with rfl | hf
    · exact h.chain_found (n, t :: ts) List.mem_cons_self
    · exact h.chain_found f (List.mem_cons_of_mem _ hf)
  chain_targets f hf u hu := by
    rcases List.mem_cons.mp hf with rfl | hf
    · exact h.chain_targets (n, t :: ts) List.mem_cons_self u (List.mem_cons_of_mem _ hu)
    · exact h.chain_targets f (List.mem_cons_of_mem _ hf) u hu

variable {n t : ν} {ts found : List ν} {rest : List (ν × List ν)} {cycles : List (List Text)}
  (h : Inside g ⟨(n, t :: ts) :: rest, found, cycles⟩)
include h

/-- The reference that is followed next leads to a node. -/
theorem target_mem (hg : g.Contained) : t ∈ g.nodes :=
  hg n (h.found_mem n (h.chain_found _ List.mem_cons_self)) t
    (h.chain_targets _ List.mem_cons_self t List.mem_cons_self)

theorem enter (hg : g.Contained) :
    Inside g ⟨(t, g.targets t) :: (n, ts) :: rest, t :: found, cycles⟩ where
  found_mem m hm := by
    rcases List.mem_cons.mp hm with rfl | hm
    · exact h.target_mem hg
    · exact h.found_mem m hm
  chain_found f hf := by
    rcases List.mem_cons.mp hf with rfl | hf
    · exact List.mem_cons_self
    · exact List.mem_cons_of_mem _ ((h.drop cycles).chain_found f hf)
  chain_targets f hf u hu := by
    rcases List.mem_cons.mp hf with rfl | hf
    · exact hu
    · exact (h.drop cycles).chain_targets f hf u hu

end Inside

/-- Every move keeps to the nodes. -/
theorem Inside.of_move [DecidableEq ν] (hg : g.Contained) (h : Inside g s) (hm : Move g s s') :
    Inside g s' := by
  cases hm with
  | leave n rest found cycles => exact h.leave
  | itself n ts found rest cycles => exact h.drop cycles
  | close _ _ => exact h.drop _
  | pass _ _ => exact h.drop _
  | enter _ => exact h.enter hg

/-! ### Weights -/

/-- The steps that a node takes: one for each of its references, and one to leave it. -/
def weight (g : Graph ν) (n : ν) : ℕ := (g.targets n).length + 1

theorem total_filter_le (w : ν → ℕ) (p q : ν → Bool) (h : ∀ n, p n = true → q n = true) :
    ∀ ns : List ν, Number.total ((ns.filter p).map w) ≤ Number.total ((ns.filter q).map w)
  | [] => Nat.le_refl _
  | n :: ns => by
      have ih := total_filter_le w p q h ns
      by_cases hp : p n = true
      · rw [List.filter_cons_of_pos hp, List.filter_cons_of_pos (h n hp)]
        simp only [List.map_cons, Number.total]
        omega
      · rw [List.filter_cons_of_neg hp]
        by_cases hq : q n = true
        · rw [List.filter_cons_of_pos hq]
          simp only [List.map_cons, Number.total]
          omega
        · rw [List.filter_cons_of_neg hq]
          exact ih

/-- A node that leaves a selection takes its weight with it. -/
theorem total_filter_add_le (w : ν → ℕ) (p q : ν → Bool) (h : ∀ n, p n = true → q n = true)
    {t : ν} (hq : q t = true) (hp : p t = false) : ∀ {ns : List ν}, t ∈ ns →
    Number.total ((ns.filter p).map w) + w t ≤ Number.total ((ns.filter q).map w)
  | n :: ns, ht => by
      rcases List.mem_cons.mp ht with rfl | ht
      · have := total_filter_le w p q h ns
        rw [List.filter_cons_of_neg (by simp [hp]), List.filter_cons_of_pos hq]
        simp only [List.map_cons, Number.total]
        omega
      · have ih := total_filter_add_le w p q h hq hp ht
        by_cases hpn : p n = true
        · rw [List.filter_cons_of_pos hpn, List.filter_cons_of_pos (h n hpn)]
          simp only [List.map_cons, Number.total]
          omega
        · rw [List.filter_cons_of_neg hpn]
          by_cases hqn : q n = true
          · rw [List.filter_cons_of_pos hqn]
            simp only [List.map_cons, Number.total]
            omega
          · rw [List.filter_cons_of_neg hqn]
            exact ih

/-! ### Termination -/

variable [DecidableEq ν]

/-- The steps that are left: those of the chain, and those of the nodes not found yet. -/
def work (g : Graph ν) (s : Search ν) : ℕ :=
  Number.total (s.chain.map fun f => f.2.length + 1)
    + Number.total ((g.nodes.filter fun n => decide (n ∉ s.found)).map (weight g))

/-- Every move leaves less to do. -/
theorem Move.work_lt (hm : Move g s s') (h : Inside g s) (hg : g.Contained) :
    work g s' < work g s := by
  cases hm with
  | leave n rest found cycles =>
      simp only [work, List.map_cons, Number.total, List.length_nil]
      omega
  | itself n ts found rest cycles =>
      simp only [work, List.map_cons, Number.total, List.length_cons]
      omega
  | close _ _ =>
      simp only [work, List.map_cons, Number.total, List.length_cons]
      omega
  | pass _ _ =>
      simp only [work, List.map_cons, Number.total, List.length_cons]
      omega
  | @enter n t ts found rest cycles ht =>
      have hfresh : t ∉ found := fun hmem => ht t hmem rfl
      have hle := total_filter_add_le (weight g) (fun n => decide (n ∉ t :: found))
        (fun n => decide (n ∉ found)) (by simp) (t := t) (by simpa using hfresh) (by simp)
        (h.target_mem hg)
      simp only [work, List.map_cons, Number.total, List.length_cons, weight] at hle ⊢
      omega

theorem work_start_le (g : Graph ν) (root : ν) : work g (start g root) ≤ g.searchFuel root := by
  have h := total_filter_le (weight g) (fun n => decide (n ∉ (start g root).found))
    (fun _ => true) (fun _ _ => rfl) g.nodes
  rw [List.filter_true] at h
  have hc : Number.total ((start g root).chain.map fun f => f.2.length + 1) = weight g root := rfl
  have hs : g.searchFuel root = weight g root + Number.total (g.nodes.map (weight g)) := rfl
  rw [work, hc, hs]
  omega

theorem run_eq_iterate (g : Graph ν) : ∀ (k : ℕ) (s : Search ν),
    s.run g k = (advance g)^[k] s
  | 0, _ => rfl
  | k + 1, s => by
      rw [Function.iterate_succ_apply, ← run_eq_iterate g k, run]
      split
      · rename_i h
        obtain ⟨chain, found, cycles⟩ := s
        obtain rfl : chain = [] := List.isEmpty_iff.mp h
        cases k with
        | zero => rfl
        | succ k => rfl
      · rfl

/-- With enough fuel a search ends, and what the moves keep holds then. -/
theorem run_keeps (hg : g.Contained) {P : Search ν → Prop}
    (hmove : ∀ {s s'}, Inside g s → P s → Move g s s' → P s') : ∀ (k : ℕ) {s : Search ν},
    Inside g s → P s → work g s ≤ k → (s.run g k).chain = [] ∧ P (s.run g k)
  | 0, s, _, hp, hk => by
      refine ⟨?_, hp⟩
      obtain ⟨chain, found, cycles⟩ := s
      cases chain with
      | nil => rfl
      | cons f rest =>
          simp only [work, List.map_cons, Number.total] at hk
          omega
  | k + 1, s, h, hp, hk => by
      rw [Search.run]
      split
      · rename_i hs
        exact ⟨List.isEmpty_iff.mp hs, hp⟩
      · rename_i hs
        have hm := move g fun he => hs (by rw [he]; rfl)
        have := hm.work_lt h hg
        exact run_keeps hg hmove k (h.of_move hg hm) (hmove h hp hm) (by omega)

/-- A search goes over into another one by some steps, and that one has nothing left to do. -/
def Ends (g : Graph ν) (s s' : Search ν) : Prop :=
  (∃ k, (advance g)^[k] s = s') ∧ s'.chain = []

end Search

open Search in
/-- The search from a node ends; what it begins with and all moves keep holds then, and `reach` tells
what it has found. -/
theorem exists_reach [DecidableEq ν] {root : ν} (hg : g.Contained) (hr : root ∈ g.nodes)
    {P : Search ν → Prop} (hstart : P (start g root))
    (hmove : ∀ {s s'}, Inside g s → P s → Move g s s' → P s') :
    ∃ s, Ends g (start g root) s ∧ P s ∧ g.reach root = ⟨s.found.reverse, s.cycles.reverse⟩ := by
  obtain ⟨hc, hp⟩ := run_keeps hg hmove (g.searchFuel root) (Inside.start hr) hstart
    (work_start_le g root)
  exact ⟨_, ⟨⟨_, (run_eq_iterate g _ _).symm⟩, hc⟩, hp, rfl⟩

/-- The search finds the node that it begins with. -/
theorem root_mem_reach_nodes [DecidableEq ν] {root : ν} (hg : g.Contained) (hr : root ∈ g.nodes) :
    root ∈ (g.reach root).nodes := by
  obtain ⟨s, _, hs, he⟩ := exists_reach (P := fun s => root ∈ s.found) hg hr
    (List.mem_singleton_self root) fun _ hs hm => hm.mem_found hs
  rw [he]
  exact List.mem_reverse.mpr hs

/-! ### What a node leads to -/

namespace Search

/-- What a search of a closed graph that began at `root` keeps. -/
structure Inv (g : Graph ν) (root : ν) (s : Search ν) : Prop where
  leads : ∀ n ∈ s.found, Leads g root n
  /-- A reference of a node found is found, or it is still to be followed. -/
  followed : ∀ n ∈ s.found, ∀ t ∈ g.targets n, t ∈ s.found ∨ ∃ ts, (n, ts) ∈ s.chain ∧ t ∈ ts
  nodup : s.found.Nodup
  last : s.found.getLast? = some root

namespace Inv

variable {root n t : ν} {ts found : List ν} {rest : List (ν × List ν)} {cycles : List (List Text)}

theorem start (g : Graph ν) (root : ν) : Inv g root (start g root) where
  leads n hn := by
    rw [List.mem_singleton.mp hn]
    exact .refl root
  followed n hn t ht := by
    rw [List.mem_singleton.mp hn] at ht ⊢
    exact .inr ⟨g.targets root, List.mem_singleton_self _, ht⟩
  nodup := List.nodup_singleton root
  last := rfl

/-- Passing over a reference that has been found keeps the invariant. -/
theorem drop (cycles' : List (List Text)) (h : Inv g root ⟨(n, t :: ts) :: rest, found, cycles⟩)
    (ht : t ∈ found) : Inv g root ⟨(n, ts) :: rest, found, cycles'⟩ where
  leads := h.leads
  followed m hm u hu := by
    rcases h.followed m hm u hu with hu | ⟨us, hmem, hu⟩
    · exact .inl hu
    · rcases List.mem_cons.mp hmem with heq | hmem
      · obtain ⟨rfl, rfl⟩ := Prod.mk.inj heq
        rcases List.mem_cons.mp hu with rfl | hu
        · exact .inl ht
        · exact .inr ⟨ts, List.mem_cons_self, hu⟩
      · exact .inr ⟨us, List.mem_cons_of_mem _ hmem, hu⟩
  nodup := h.nodup
  last := h.last

theorem enter (h : Inv g root ⟨(n, t :: ts) :: rest, found, cycles⟩) (hn : n ∈ found)
    (hnt : t ∈ g.targets n) (ht : t ∉ found) :
    Inv g root ⟨(t, g.targets t) :: (n, ts) :: rest, t :: found, cycles⟩ where
  leads m hm := by
    rcases List.mem_cons.mp hm with rfl | hm
    · exact (h.leads n hn).tail hnt
    · exact h.leads m hm
  followed m hm u hu := by
    rcases List.mem_cons.mp hm with rfl | hm
    · exact .inr ⟨g.targets m, List.mem_cons_self, hu⟩
    · rcases h.followed m hm u hu with hu | ⟨us, hmem, hu⟩
      · exact .inl (List.mem_cons_of_mem _ hu)
      · rcases List.mem_cons.mp hmem with heq | hmem
        · obtain ⟨rfl, rfl⟩ := Prod.mk.inj heq
          rcases List.mem_cons.mp hu with rfl | hu
          · exact .inl List.mem_cons_self
          · exact .inr ⟨ts, List.mem_cons_of_mem _ List.mem_cons_self, hu⟩
        · exact .inr ⟨us, List.mem_cons_of_mem _ (List.mem_cons_of_mem _ hmem), hu⟩
  nodup := List.nodup_cons.mpr ⟨ht, h.nodup⟩
  last := by
    rw [List.getLast?_cons, h.last]
    rfl

theorem leave (h : Inv g root ⟨(n, []) :: rest, found, cycles⟩) :
    Inv g root ⟨rest, found, cycles⟩ where
  leads := h.leads
  followed m hm u hu := by
    rcases h.followed m hm u hu with hu | ⟨us, hmem, hu⟩
    · exact .inl hu
    · rcases List.mem_cons.mp hmem with heq | hmem
      · obtain ⟨rfl, rfl⟩ := Prod.mk.inj heq
        exact absurd hu List.not_mem_nil
      · exact .inr ⟨us, hmem, hu⟩
  nodup := h.nodup
  last := h.last

/-- Every move keeps the invariant. -/
theorem of_move [DecidableEq ν] {s s' : Search ν} (hg : g.Closed) (hs : Inside g s)
    (h : Inv g root s) (hm : Move g s s') : Inv g root s' := by
  -- what has the path of a node found is that node
  have hfound : ∀ {t m : ν}, t ∈ g.nodes → m ∈ s.found → g.path m = g.path t → t ∈ s.found := by
    intro t m ht hm hp
    rwa [← hg.path_inj m (hs.found_mem m hm) t ht hp]
  cases hm with
  | leave n rest found cycles => exact h.leave
  | itself n ts found rest cycles =>
      exact h.drop cycles (hs.chain_found _ List.mem_cons_self)
  | @close _ _ _ _ _ cycles _ hc =>
      obtain ⟨f, hf, hp⟩ := hc
      exact h.drop _ (hfound (hs.target_mem hg.targets_mem) ((hs.drop cycles).chain_found f hf) hp)
  | pass _ ht =>
      obtain ⟨m, hm, hp⟩ := ht
      exact h.drop _ (hfound (hs.target_mem hg.targets_mem) hm hp)
  | enter ht =>
      exact h.enter (hs.chain_found _ List.mem_cons_self)
        (hs.chain_targets _ List.mem_cons_self _ List.mem_cons_self) fun hmem => ht _ hmem rfl

end Inv
end Search

variable [DecidableEq ν] {root : ν}

open Search in
/-- The search from a node of a closed graph ends, and `reach` tells what it has then. -/
theorem reach_ends (hg : g.Closed) (hr : root ∈ g.nodes) :
    ∃ s, Ends g (start g root) s ∧ Inv g root s
      ∧ g.reach root = ⟨s.found.reverse, s.cycles.reverse⟩ :=
  exists_reach hg.targets_mem hr (Inv.start g root) fun hs h hm => h.of_move hg hs hm

theorem head_reach_nodes (hg : g.Closed) (hr : root ∈ g.nodes) :
    (g.reach root).nodes.head? = some root := by
  obtain ⟨s, _, hi, he⟩ := reach_ends hg hr
  rw [he, List.head?_reverse, hi.last]

theorem reach_nodes_nodup (hg : g.Closed) (hr : root ∈ g.nodes) :
    (g.reach root).nodes.Nodup := by
  obtain ⟨s, _, hi, he⟩ := reach_ends hg hr
  rw [he]
  exact List.nodup_reverse.mpr hi.nodup

/-- The nodes found are those that the root leads to. -/
theorem mem_reach_nodes (hg : g.Closed) (hr : root ∈ g.nodes) {n : ν} :
    n ∈ (g.reach root).nodes ↔ Leads g root n := by
  obtain ⟨s, ⟨_, hs⟩, hi, he⟩ := reach_ends hg hr
  rw [he, List.mem_reverse]
  constructor
  · exact hi.leads n
  · intro h
    rw [leads_iff_reflTransGen] at h
    induction h with
    | refl => exact List.mem_of_getLast? hi.last
    | @tail b c _ hc ih =>
        -- the chain is empty, so no reference is left to be followed
        rcases hi.followed b ih c hc with hc | ⟨ts, hmem, _⟩
        · exact hc
        · rw [hs] at hmem
          exact absurd hmem List.not_mem_nil

end Graph
end Registry
end Scopewright
