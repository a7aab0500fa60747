import Scopewright.Cursor.Basic
import Scopewright.Proofs.Block.Tree

/-! # Marked lines of block documents

A spot (`Block.Spot`) is a block document with one of its lines `key: value` marked, and every such
line can be marked (`Tree.exists_spot`).  The keys and the places of items that lead to the marked
line are its path; its way tells them line by line (`Spot.way`). -/

namespace Scopewright
namespace Block

open Cursor (Segment Path)

/-- A block with a marked line `key: value` in it. -/
inductive Spot : Kind → Type where
  | pair (before : Tree .mapping) (k : Key) (gap : ℕ) (w : Word) (after : Tree .mapping) :
      Spot .mapping
  | nest {m : Kind} (before : Tree .mapping) (k : Key) (step : ℕ) (inner : Spot m)
      (after : Tree .mapping) : Spot .mapping
  | item {m : Kind} (before : Tree .sequence) (gap : ℕ) (inner : Spot m)
      (after : Tree .sequence) : Spot .sequence

/-- Puts a step before the way of what it leads to, on the same line or on one of its own. -/
def lead (shared : Bool) (s : Segment) : List (List Segment) → List (List Segment)
  | [] => [[s]]
  | line :: lines => if shared then (s :: line) :: lines else [s] :: line :: lines

namespace Spot

variable {m : Kind}

/-- The block without the mark. -/
def tree : {m : Kind} → Spot m → Tree m
  | _, pair before k gap w after => before.append (.pair k gap w after)
  | _, nest before k step inner after => before.append (.nest k step inner.tree after)
  | _, item before gap inner after => before.append (.item gap inner.tree after)

/-- The number of members before the one that leads to the mark. -/
def place : {m : Kind} → Spot m → ℕ
  | _, pair before .. => before.length
  | _, nest before .. => before.length
  | _, item before .. => before.length

/-- The name of the marked key. -/
def key : {m : Kind} → Spot m → Text
  | _, pair _ k .. => k.name
  | _, nest _ _ _ inner _ => inner.key
  | _, item _ _ inner _ => inner.key

/-- The keys and places that lead to the mark. -/
def path : {m : Kind} → Spot m → Path
  | _, pair _ k .. => [.key k.name]
  | _, nest _ k _ inner _ => .key k.name :: inner.path
  | _, item before _ inner _ => .index before.length :: inner.path

/-- The path line by line.  What an item holds is told with the item when it begins on the line of
its dash. -/
def way : {m : Kind} → Spot m → List (List Segment)
  | _, pair _ k .. => [[.key k.name]]
  | _, nest _ k _ inner _ => [.key k.name] :: inner.way
  | _, item before _ inner _ => lead (inner.place = 0) (.index before.length) inner.way

/-- The lines above the marked one. -/
def above : {m : Kind} → Spot m → ℕ → List Row
  | _, pair before .., col => before.rows col
  | _, nest before k step inner _, col =>
      before.rows col ++ ⟨col, [], .head k⟩ :: inner.above (col + step + 1)
  | _, item before gap inner _, col =>
      before.rows col ++ onto col [gap] (inner.above (col + gap + 2))

/-- The marked line. -/
def row : {m : Kind} → Spot m → ℕ → Row
  | _, pair _ k gap w _, col => ⟨col, [], .pair k gap w⟩
  | _, nest _ _ step inner _, col => inner.row (col + step + 1)
  | _, item _ gap inner _, col =>
      if inner.above (col + gap + 2) = [] then
        ⟨col, gap :: (inner.row (col + gap + 2)).gaps, (inner.row (col + gap + 2)).body⟩
      else inner.row (col + gap + 2)

/-! ### The lines of a spot -/

/-- The lines below the marked one. -/
def beneath : {m : Kind} → Spot m → ℕ → List Row
  | _, pair _ _ _ _ after, col => after.rows col
  | _, nest _ _ step inner after, col => inner.beneath (col + step + 1) ++ after.rows col
  | _, item _ gap inner after, col => inner.beneath (col + gap + 2) ++ after.rows col

/-- The lines of the block are those above the mark, the marked one and those below. -/
theorem rows_tree (s : Spot m) : ∀ col : ℕ,
    s.tree.rows col = s.above col ++ s.row col :: s.beneath col := by
  induction s with
  | pair before k gap w after =>
      intro col
      rw [tree, Tree.rows_append]
      rfl
  | nest before k step inner after ih =>
      intro col
      rw [tree, Tree.rows_append, Tree.rows, ih]
      simp only [above, row, beneath, List.append_assoc, List.cons_append]
  | item before gap inner after ih =>
      intro col
      rw [tree, Tree.rows_append, Tree.rows, ih]
      cases ha : inner.above (col + gap + 2) with
      | nil =>
          simp only [above, row, beneath, ha, underDash, onto, List.nil_append, List.append_nil,
            List.cons_append, if_true]
      | cons r rs =>
          simp only [above, row, beneath, ha, underDash, onto, List.append_assoc, List.cons_append,
            List.nil_append, reduceCtorEq, if_false]

/-- The marked line holds the marked key and a value. -/
theorem exists_body (s : Spot m) : ∀ col : ℕ,
    ∃ (k : Key) (gap : ℕ) (w : Word), (s.row col).body = .pair k gap w ∧ k.name = s.key := by
  induction s with
  | pair before k gap w after => exact fun col => ⟨k, gap, w, rfl, rfl⟩
  | nest before k step inner after ih => exact fun col => ih (col + step + 1)
  | item before gap inner after ih =>
      intro col
      obtain ⟨k, g, w, hb, hk⟩ := ih (col + gap + 2)
      refine ⟨k, g, w, ?_, hk⟩
      rw [row]
      split
      · exact hb
      · exact hb

/-! ### Ways -/

theorem lead_ne_nil (shared : Bool) (x : Segment) (w : List (List Segment)) :
    lead shared x w ≠ [] := by
  cases w with
  | nil => exact List.cons_ne_nil _ _
  | cons line lines =>
      cases shared with
      | true => exact List.cons_ne_nil _ _
      | false => exact List.cons_ne_nil _ _

theorem way_ne_nil (s : Spot m) : s.way ≠ [] := by
  cases s with
  | pair before k gap w after => exact List.cons_ne_nil _ _
  | nest before k step inner after => exact List.cons_ne_nil _ _
  | item before gap inner after => exact lead_ne_nil _ _ _

/-- No step of a way is left out. -/
theorem flatten_way (s : Spot m) : s.way.flatten = s.path := by
  induction s with
  | pair before k gap w after => rfl
  | nest before k step inner after ih => rw [way, path, List.flatten_cons, ih]; rfl
  | item before gap inner after ih =>
      rw [way, path, ← ih]
      cases hw : inner.way with
      | nil => exact absurd hw inner.way_ne_nil
      | cons line lines =>
          simp only [lead]
          split <;> rfl

theorem ne_nil_of_mem_way (s : Spot m) : ∀ line ∈ s.way, line ≠ [] := by
  induction s with
  | pair before k gap w after =>
      intro line h
      obtain rfl := List.mem_singleton.mp h
      exact List.cons_ne_nil _ _
  | nest before k step inner after ih =>
      intro line h
      rcases List.mem_cons.mp h with rfl | h
      · exact List.cons_ne_nil _ _
      · exact ih line h
  | item before gap inner after ih =>
      intro line h
      rw [way] at h
      cases hw : inner.way with
      | nil => exact absurd hw inner.way_ne_nil
      | cons first lines =>
          rw [hw] at h ih
          simp only [lead] at h
          split at h
          · rcases List.mem_cons.mp h with rfl | h
            · exact List.cons_ne_nil _ _
            · exact ih line (List.mem_cons_of_mem _ h)
          · rcases List.mem_cons.mp h with rfl | h
            · exact List.cons_ne_nil _ _
            · exact ih line h

/-! ### The lines that a way takes -/

/-- The lines above the marked one, without the first line of the block when the way does not begin
there. -/
def inside : {m : Kind} → Spot m → ℕ → List Row
  | _, pair before .., col => (before.rows col).tail
  | _, nest before k step inner _, col =>
      (before.rows col).tail ++ ⟨col, [], .head k⟩ :: inner.above (col + step + 1)
  | _, item before gap inner _, col =>
      (before.rows col).tail ++ onto col [gap] (inner.above (col + gap + 2))

theorem above_of_place_eq (s : Spot m) (hp : s.place = 0) (col : ℕ) :
    s.above col = s.inside col := by
  cases s with
  | pair before k gap w after => rw [above, inside, (before.rows_eq_nil_iff col).mpr hp]; rfl
  | nest before k step inner after =>
      rw [above, inside, (before.rows_eq_nil_iff col).mpr hp]
      rfl
  | item before gap inner after =>
      rw [above, inside, (before.rows_eq_nil_iff col).mpr hp]
      rfl

/-- When the way does not begin on the first line of the block, that line holds another member. -/
theorem above_of_place_ne (s : Spot m) (hp : s.place ≠ 0) (col : ℕ) :
    ∃ r : Row, s.above col = r :: s.inside col ∧ r.indent = col ∧ r.Beyond m col ∧
      (m = .sequence → r.hasDashAt col = true) := by
  have hrows : ∀ {m : Kind} (before : Tree m), before.length ≠ 0 →
      ∃ r : Row, before.rows col = r :: (before.rows col).tail ∧ r.indent = col ∧
        r.Beyond m col ∧ (m = .sequence → r.hasDashAt col = true) := by
    intro m before hne
    have hcons := List.exists_cons_of_ne_nil (mt (before.rows_eq_nil_iff col).mp hne)
    obtain ⟨r, rs, hr⟩ := hcons
    refine ⟨r, by rw [hr]; rfl, Tree.indent_of_rows hr, ?_, fun hm => ?_⟩
    · exact before.beyond_of_mem_rows (by rw [hr]; exact List.mem_cons_self)
    · exact Tree.hasDashAt_of_rows hm hr
  cases s with
  | pair before k gap w after => exact hrows before hp
  | nest before k step inner after =>
      obtain ⟨r, hr, hrest⟩ := hrows before hp
      exact ⟨r, by rw [above, hr]; rfl, hrest⟩
  | item before gap inner after =>
      obtain ⟨r, hr, hrest⟩ := hrows before hp
      exact ⟨r, by rw [above, hr]; rfl, hrest⟩

/-- No dash put before the block changes nothing. -/
theorem onto_above (s : Spot m) (col : ℕ) : onto col [] (s.above col) = s.above col := by
  have hself : ∀ {r : Row} (rs : List Row), r.indent = col → onto col [] (r :: rs) = r :: rs := by
    rintro r rs rfl
    rfl
  by_cases hp : s.place = 0
  · cases s with
    | pair b k gap w after => rw [above, (b.rows_eq_nil_iff col).mpr hp]; rfl
    | nest b k step inner after => rw [above, (b.rows_eq_nil_iff col).mpr hp]; rfl
    | item b gap inner after =>
        rw [above, (b.rows_eq_nil_iff col).mpr hp]
        cases inner.above (col + gap + 2) with
        | nil => rfl
        | cons r rs => rfl
  · obtain ⟨r, ha, hi, _⟩ := s.above_of_place_ne hp col
    rw [ha, hself _ hi]

/-- With no line above, the way is the dashes of the marked line, each of a first item, and its
key. -/
theorem way_of_above_eq_nil (s : Spot m) : ∀ {col : ℕ}, s.above col = [] →
    s.place = 0 ∧ (s.row col).indent = col ∧
      s.way = [List.replicate (s.row col).gaps.length (.index 0) ++ [.key s.key]] := by
  induction s with
  | pair before k gap w after =>
      intro col h
      exact ⟨(before.rows_eq_nil_iff col).mp h, rfl, rfl⟩
  | nest before k step inner after ih =>
      intro col h
      exact absurd h (List.append_ne_nil_of_right_ne_nil _ (List.cons_ne_nil _ _))
  | item before gap inner after ih =>
      intro col h
      obtain ⟨hbefore, honto⟩ := List.append_eq_nil_iff.mp h
      have hinner : inner.above (col + gap + 2) = [] := by
        cases hi : inner.above (col + gap + 2) with
        | nil => rfl
        | cons r rs =>
            rw [hi] at honto
            cases honto
      have hlen := (before.rows_eq_nil_iff col).mp hbefore
      obtain ⟨hp, _, hw⟩ := ih hinner
      refine ⟨hlen, by rw [row, if_pos hinner], ?_⟩
      rw [way, hw, hp, hlen, row, if_pos hinner]
      rfl

/-- With lines above and none of another member first, the way takes several lines. -/
theorem exists_way_of_above_ne_nil (s : Spot m) : ∀ {col : ℕ}, s.above col ≠ [] → s.place = 0 →
    ∃ line next lines, s.way = line :: next :: lines := by
  induction s with
  | pair before k gap w after =>
      intro col h hp
      exact absurd ((before.rows_eq_nil_iff col).mpr hp) h
  | nest before k step inner after ih =>
      intro col h hp
      obtain ⟨line, lines, hw⟩ := List.exists_cons_of_ne_nil inner.way_ne_nil
      exact ⟨_, line, lines, by rw [way, hw]⟩
  | item before gap inner after ih =>
      intro col h hp
      rw [way]
      by_cases hi : inner.place = 0
      · have hinner : inner.above (col + gap + 2) ≠ [] := by
          intro ha
          rw [above, (before.rows_eq_nil_iff col).mpr hp, ha] at h
          exact h rfl
        obtain ⟨line, next, lines, hw⟩ := ih hinner hi
        exact ⟨_, next, lines, by rw [hw, hi]; rfl⟩
      · obtain ⟨line, lines, hw⟩ := List.exists_cons_of_ne_nil inner.way_ne_nil
        exact ⟨_, line, lines, by rw [hw, lead, if_neg (by simpa using hi)]⟩

end Spot

/-! ### Every line can be marked -/

/-- The mark stays where it is when members are put before all others. -/
def Spot.behind : {m : Kind} → Tree m → Spot m → Spot m
  | _, b, pair before k gap w after => pair (b.append before) k gap w after
  | _, b, nest before k step inner after => nest (b.append before) k step inner after
  | _, b, item before gap inner after => item (b.append before) gap inner after

theorem Spot.tree_behind {m : Kind} (b : Tree m) (s : Spot m) :
    (s.behind b).tree = b.append s.tree := by
  cases s with
  | pair before k gap w after => exact Tree.append_assoc _ _ _
  | nest before k step inner after => exact Tree.append_assoc _ _ _
  | item before gap inner after => exact Tree.append_assoc _ _ _

theorem Spot.above_behind {m : Kind} (b : Tree m) (s : Spot m) (col : ℕ) :
    (s.behind b).above col = b.rows col ++ s.above col := by
  cases s with
  | pair before k gap w after => exact Tree.rows_append _ _ _
  | nest before k step inner after =>
      simp only [behind, above, Tree.rows_append, List.append_assoc]
  | item before gap inner after =>
      simp only [behind, above, Tree.rows_append, List.append_assoc]

namespace Tree

variable {m : Kind}

/-- A mark in the later members is one in the whole block. -/
theorem exists_spot_behind (b : Tree m) {rest : Tree m} {col n : ℕ}
    (h : ∃ s : Spot m, s.tree = rest ∧ (s.above col).length = n) :
    ∃ s : Spot m, s.tree = b.append rest ∧ (s.above col).length = (b.rows col).length + n := by
  obtain ⟨s, rfl, rfl⟩ := h
  exact ⟨s.behind b, s.tree_behind b, by rw [Spot.above_behind, List.length_append]⟩

/-- A dash changes nothing of what stands behind it. -/
theorem getElem?_underDash {col gap n : ℕ} {rs : List Row} {r : Row}
    (h : (underDash col gap rs)[n]? = some r) (hb : r.body ≠ .nothing) :
    ∃ r', rs[n]? = some r' ∧ r'.body = r.body := by
  cases rs with
  | nil =>
      cases n with
      | zero =>
          obtain rfl := Option.some.inj h
          exact absurd rfl hb
      | succ n => cases h
  | cons r₀ rs =>
      cases n with
      | zero =>
          obtain rfl := Option.some.inj h
          exact ⟨r₀, rfl, rfl⟩
      | succ n => exact ⟨r, h, rfl⟩

/-- Every line `key: value` can be marked. -/
theorem exists_spot (b : Tree m) : ∀ {col n : ℕ} {r : Row} {k : Key} {gap : ℕ} {w : Word},
    (b.rows col)[n]? = some r → r.body = .pair k gap w →
    ∃ s : Spot m, s.tree = b ∧ (s.above col).length = n := by
  induction b with
  | nil => exact fun h => by cases h
  | pair k gap w rest ih =>
      intro col n r k' gap' w' h hr
      cases n with
      | zero => exact ⟨.pair .nil k gap w rest, rfl, rfl⟩
      | succ n =>
          obtain ⟨s, hs, hn⟩ := exists_spot_behind (.pair k gap w .nil) (ih h hr)
          exact ⟨s, hs, hn.trans (Nat.add_comm 1 n)⟩
  | nest k step inner rest ihInner ih =>
      intro col n r k' gap' w' h hr
      cases n with
      | zero =>
          obtain rfl := Option.some.inj h
          cases hr
      | succ n =>
          rw [rows, List.getElem?_cons_succ] at h
          rcases Nat.lt_or_ge n (inner.rows (col + step + 1)).length with hlt | hge
          · rw [List.getElem?_append_left hlt] at h
            obtain ⟨s, rfl, hn⟩ := ihInner h hr
            exact ⟨.nest .nil k step s rest, rfl, congrArg (· + 1) hn⟩
          · rw [List.getElem?_append_right hge] at h
            obtain ⟨s, hs, hn⟩ := exists_spot_behind (.nest k step inner .nil) (ih h hr)
            refine ⟨s, hs, ?_⟩
            rw [hn, rows, rows, List.append_nil, List.length_cons]
            omega
  | word gap w rest ih =>
      intro col n r k' gap' w' h hr
      cases n with
      | zero =>
          obtain rfl := Option.some.inj h
          cases hr
      | succ n =>
          obtain ⟨s, hs, hn⟩ := exists_spot_behind (.word gap w .nil) (ih h hr)
          exact ⟨s, hs, hn.trans (Nat.add_comm 1 n)⟩
  | item gap inner rest ihInner ih =>
      intro col n r k' gap' w' h hr
      rw [rows] at h
      rcases Nat.lt_or_ge n (underDash col gap (inner.rows (col + gap + 2))).length with hlt | hge
      · rw [List.getElem?_append_left hlt] at h
        obtain ⟨r', hr', hbody⟩ := getElem?_underDash h (by rw [hr]; exact Body.noConfusion)
        obtain ⟨s, rfl, hn⟩ := ihInner hr' (hbody.trans hr)
        refine ⟨.item .nil gap s rest, rfl, ?_⟩
        rw [Spot.above, List.length_append, length_onto, hn]
        exact Nat.zero_add n
      · rw [List.getElem?_append_right hge] at h
        obtain ⟨s, hs, hn⟩ := exists_spot_behind (.item gap inner .nil) (ih h hr)
        refine ⟨s, hs, ?_⟩
        rw [hn, rows, rows, List.append_nil]
        omega

end Tree
end Block
end Scopewright
