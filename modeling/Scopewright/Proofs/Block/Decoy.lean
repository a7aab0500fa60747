import Scopewright.Proofs.Block.Spot

/-! # Documents that lead astray

For each marked line there is a document with the same way in which other members hold what a
careless search for the path would take up (`Block.Spot.decoy`): before an item stand items with a
dash in the column of what the item holds, or with a key and a value. -/

namespace Scopewright
namespace Block

/-- A key that leads nowhere. -/
def Key.decoy : Key := ⟨[CodeUnit.ofBasic 'k'], by decide, by decide⟩

/-- A word that stands for nothing. -/
def Word.decoy : Word := ⟨[CodeUnit.ofBasic 'w'], by decide, by decide, by decide⟩

/-- So many entries of one line each. -/
def decoyPairs : ℕ → Tree .mapping
  | 0 => .nil
  | n + 1 => .pair .decoy 0 .decoy (decoyPairs n)

/-- So many items that all hold the same. -/
def decoyItems {m : Kind} (gap : ℕ) (inner : Tree m) : ℕ → Tree .sequence
  | 0 => .nil
  | n + 1 => .item gap inner (decoyItems gap inner n)

/-- Items to put before another one: items `-  - w` if it stands on the marked line, items `- k: w`
if not. -/
def decoyBefore (marked : Bool) (n : ℕ) : Tree .sequence :=
  if marked then decoyItems 1 (.word 0 .decoy .nil) n
  else decoyItems 0 (.pair .decoy 0 .decoy .nil) n

/-- A document with the same way. -/
def Spot.decoy : {m : Kind} → Spot m → Spot m
  | _, pair b k gap w _ => pair (decoyPairs b.length) k gap w .nil
  | _, nest b k step inner _ => nest (decoyPairs b.length) k step inner.decoy .nil
  | _, item b _ inner _ =>
      item (decoyBefore (inner.way.length = 1) b.length) 1 inner.decoy .nil

theorem length_decoyPairs (n : ℕ) : (decoyPairs n).length = n := by
  induction n with
  | zero => rfl
  | succ n ih => exact congrArg (· + 1) ih

theorem length_decoyItems {m : Kind} (gap : ℕ) (inner : Tree m) (n : ℕ) :
    (decoyItems gap inner n).length = n := by
  induction n with
  | zero => rfl
  | succ n ih => exact congrArg (· + 1) ih

theorem length_decoyBefore (marked : Bool) (n : ℕ) : (decoyBefore marked n).length = n := by
  cases marked with
  | true => exact length_decoyItems _ _ n
  | false => exact length_decoyItems _ _ n

theorem rows_decoyPairs_eq_nil_iff {n : ℕ} (col : ℕ) : (decoyPairs n).rows col = [] ↔ n = 0 := by
  rw [Tree.rows_eq_nil_iff, length_decoyPairs]

theorem rows_decoyBefore_eq_nil_iff (marked : Bool) {n : ℕ} (col : ℕ) :
    (decoyBefore marked n).rows col = [] ↔ n = 0 := by
  rw [Tree.rows_eq_nil_iff, length_decoyBefore]

/-- The last of some items that hold a line each. -/
theorem exists_rows_decoyItems {m : Kind} (gap col : ℕ) {inner : Tree m} {r : Row}
    (h : inner.rows (col + gap + 2) = [r]) {n : ℕ} (hn : n ≠ 0) :
    ∃ rs, (decoyItems gap inner n).rows col = rs ++ [⟨col, [gap] ++ r.gaps, r.body⟩] := by
  induction n with
  | zero => exact absurd rfl hn
  | succ n ih =>
      have hrows : (decoyItems gap inner (n + 1)).rows col =
          ⟨col, [gap] ++ r.gaps, r.body⟩ :: (decoyItems gap inner n).rows col := by
        rw [decoyItems, Tree.rows, h]
        rfl
      cases n with
      | zero => exact ⟨[], hrows⟩
      | succ n =>
          obtain ⟨rs, hrs⟩ := ih (Nat.succ_ne_zero n)
          exact ⟨_ :: rs, by rw [hrows, hrs]; rfl⟩

/-- The lines of the items put before another one end with such an item. -/
theorem exists_rows_decoyBefore (marked : Bool) {n : ℕ} (hn : n ≠ 0) {d col : ℕ} {gs : List ℕ}
    (hd : endCol d gs = col) :
    ∃ rs r es, onto d gs ((decoyBefore marked n).rows col) = rs ++ [r] ∧
      r.entries = es ++ .dash col ::
        (if marked then [.dash (col + 3)] else [.key (col + 2) Key.decoy.name true false]) := by
  cases marked with
  | true =>
      have hrow : Tree.rows (.word 0 .decoy .nil) (col + 1 + 2) =
          [⟨col + 3, [0], .word .decoy⟩] := rfl
      obtain ⟨rs, hrs⟩ := exists_rows_decoyItems 1 col hrow hn
      obtain ⟨rs', r', es, honto, hr'⟩ :=
        exists_onto_concat (r := ⟨col, [1] ++ [0], .word .decoy⟩) hd rs
      exact ⟨rs', r', es, (congrArg (onto d gs) hrs).trans honto, hr'⟩
  | false =>
      have hrow : Tree.rows (.pair .decoy 0 .decoy .nil) (col + 0 + 2) =
          [⟨col + 2, [], .pair .decoy 0 .decoy⟩] := rfl
      obtain ⟨rs, hrs⟩ := exists_rows_decoyItems 0 col hrow hn
      obtain ⟨rs', r', es, honto, hr'⟩ :=
        exists_onto_concat (r := ⟨col, [0] ++ [], .pair .decoy 0 .decoy⟩) hd rs
      exact ⟨rs', r', es, (congrArg (onto d gs) hrs).trans honto, hr'⟩

namespace Spot

variable {m : Kind}

theorem place_decoy (s : Spot m) : s.decoy.place = s.place := by
  cases s with
  | pair b k gap w after => exact length_decoyPairs _
  | nest b k step inner after => exact length_decoyPairs _
  | item b gap inner after => exact length_decoyBefore _ _

theorem way_decoy (s : Spot m) : s.decoy.way = s.way := by
  induction s with
  | pair b k gap w after => rfl
  | nest b k step inner after ih => rw [decoy, way, way, ih]
  | item b gap inner after ih => rw [decoy, way, way, ih, place_decoy, length_decoyBefore]

theorem path_decoy (s : Spot m) : s.decoy.path = s.path := by
  rw [← flatten_way, ← flatten_way, way_decoy]

theorem key_decoy (s : Spot m) : s.decoy.key = s.key := by
  induction s with
  | pair b k gap w after => rfl
  | nest b k step inner after ih => exact ih
  | item b gap inner after ih => exact ih

end Spot

end Block
end Scopewright
