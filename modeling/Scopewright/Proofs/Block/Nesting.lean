import Scopewright.Proofs.Block.Climb
import Scopewright.Proofs.Block.Spot

/-! # The walk up finds the path

The walk up takes one step a line, and counts the items of a sequence by dashes in one column.  A
way can be followed (`Block.Followable`) when each line above the marked one opens just one step of
it, and the marked line opens no more than one item unless the first of them is the first of its
sequence.  Then the walk up from the marked line finds the path (`Spot.follows`). -/

namespace Scopewright
namespace Block

open Yaml Cursor.Yaml
open Cursor (Segment Token)

/-- Each line but the last opens one step, and the last one opens no more than an item and a key,
or begins with the first item of a sequence. -/
def Followable (w : List (List Segment)) : Prop :=
  (∀ line ∈ w.dropLast, line.length = 1) ∧
    ∀ line ∈ w.getLast?, line.length ≤ 2 ∨ line.head? = some (.index 0)

instance : DecidablePred Followable := fun _ => inferInstanceAs (Decidable (_ ∧ _))

theorem followable_singleton {line : List Segment} :
    Followable [line] ↔ line.length ≤ 2 ∨ line.head? = some (.index 0) := by
  simp [Followable]

theorem followable_cons {line : List Segment} {w : List (List Segment)} (hw : w ≠ []) :
    Followable (line :: w) ↔ line.length = 1 ∧ Followable w := by
  obtain ⟨next, lines, rfl⟩ := List.exists_cons_of_ne_nil hw
  simp only [Followable, List.dropLast_cons_cons, List.mem_cons, forall_eq_or_imp,
    List.getLast?_cons_cons, and_assoc]

theorem Spot.followable_nest {m : Kind} (b : Tree .mapping) (k : Key) (step : ℕ) (inner : Spot m)
    (after : Tree .mapping) :
    Followable (Spot.nest b k step inner after).way ↔ Followable inner.way := by
  rw [Spot.way, followable_cons inner.way_ne_nil]
  exact ⟨And.right, fun hw => ⟨rfl, hw⟩⟩

/-- The dash of an item stands alone when what it holds begins with another member. -/
theorem Spot.followable_item {m : Kind} {b : Tree .sequence} {gap : ℕ} {inner : Spot m}
    {after : Tree .sequence} (hp : inner.place ≠ 0) :
    Followable (Spot.item b gap inner after).way ↔ Followable inner.way := by
  obtain ⟨line, lines, hway⟩ := List.exists_cons_of_ne_nil inner.way_ne_nil
  rw [Spot.way, hway, lead, if_neg (by simpa using hp), followable_cons (List.cons_ne_nil _ _)]
  exact ⟨And.right, fun hw => ⟨rfl, hw⟩⟩

/-- A way on the marked line alone can be followed when it begins with a first item. -/
theorem Spot.followable_of_above_eq_nil {m : Kind} {s : Spot m} {col : ℕ} (h : s.above col = []) :
    Followable s.way := by
  obtain ⟨_, _, hway⟩ := s.way_of_above_eq_nil h
  rw [hway, followable_singleton]
  cases (s.row col).gaps.length with
  | zero => exact .inl (Nat.le_succ 1)
  | succ n => exact .inr rfl

/-- What a cursor on a line walks up from. -/
def start (r : Row) : Need :=
  match dashCols r.indent r.gaps with
  | [] => Kind.mapping.need (endCol r.indent r.gaps)
  | col :: _ => Kind.sequence.need col

section Walk

variable (before : Text) (offset : ℕ) (token : Token)

/-- The walk up from a line that holds a key. -/
def walk (key : Text) (r : Row) (lines : List Text) : Found :=
  climb before offset (start r) true
    ⟨itemSteps (dashCols r.indent r.gaps) lines ++ [.key key], token, false⟩ lines

variable {m : Kind}

/-- The walk up from the marked line finds the path and looks for the owner of the block, if the
items above are counted right by then. -/
def Spot.Follows (s : Spot m) : Prop :=
  ∀ (col : ℕ) (lines : List Text),
    (s.place = 0 → ∀ c, col ≤ c → itemsAbove c lines = 0) →
    (s.place ≠ 0 → m = .sequence → itemsAbove col lines = 1) →
    ∃ first, walk before offset token s.key (s.row col) (under lines (s.inside col)) =
      climb before offset (m.need col) first ⟨s.path, token, false⟩ lines

variable {before offset token}

/-- A block that begins a line of its own. -/
theorem Spot.Follows.fresh {s : Spot m} (h : s.Follows before offset token) {col : ℕ}
    {lines : List Text} (hlines : ∀ c, col ≤ c → itemsAbove c lines = 0) :
    ∃ first, walk before offset token s.key (s.row col) (under lines (s.above col)) =
      climb before offset (m.need col) first ⟨s.path, token, false⟩ lines := by
  by_cases hp : s.place = 0
  · rw [s.above_of_place_eq hp]
    exact h col lines (fun _ => hlines) (fun hne => absurd hp hne)
  · obtain ⟨r, ha, _, hbeyond, hdash⟩ := s.above_of_place_ne hp col
    have hone : ∀ r' ∈ [r], r'.Beyond m col := by
      intro r' hr'
      obtain rfl := List.mem_singleton.mp hr'
      exact hbeyond
    obtain ⟨first, hf⟩ := h col (r.text :: lines) (fun h0 => absurd h0 hp) (by
      rintro _ rfl
      have hcount := itemsAbove_under [r] hone lines
      rw [under_cons, under_nil, List.filter_cons_of_pos (hdash rfl),
        hlines col (Nat.le_refl col)] at hcount
      exact hcount)
    refine ⟨first, ?_⟩
    rw [ha, under_cons, hf]
    exact climb_under before offset [r] hone _ _ lines

theorem beyond_of_mem_tail {b : Tree m} {col : ℕ} {r : Row} (h : r ∈ (b.rows col).tail) :
    r.Beyond m col :=
  b.beyond_of_mem_rows (List.mem_of_mem_tail h)

/-- The items before one of a sequence are counted. -/
theorem itemsAbove_tail (b : Tree .sequence) {col : ℕ} {lines : List Text}
    (h0 : b.length = 0 → itemsAbove col lines = 0)
    (h1 : b.length ≠ 0 → itemsAbove col lines = 1) :
    itemsAbove col (under lines (b.rows col).tail) = b.length := by
  rw [itemsAbove_under _ fun r hr => beyond_of_mem_tail hr]
  have hcount := b.length_filter_rows rfl col
  cases hr : b.rows col with
  | nil =>
      have hlen := (b.rows_eq_nil_iff col).mp hr
      rw [h0 hlen, hlen]
      rfl
  | cons r rs =>
      have hne : b.length ≠ 0 := by
        intro hlen
        rw [(b.rows_eq_nil_iff col).mpr hlen] at hr
        cases hr
      rw [hr, List.filter_cons_of_pos (Tree.hasDashAt_of_rows rfl hr), List.length_cons] at hcount
      rw [h1 hne, List.tail_cons, hcount]

/-- Nothing is counted for dashes in columns where nothing stands above. -/
theorem itemSteps_eq_replicate {gs : List ℕ} {col : ℕ} {lines : List Text}
    (h : ∀ c, col ≤ c → itemsAbove c lines = 0) :
    itemSteps (dashCols col gs) lines = List.replicate gs.length (.index 0) := by
  rw [← length_dashCols gs col]
  refine List.eq_replicate_iff.mpr ⟨List.length_map _, fun x hx => ?_⟩
  obtain ⟨c, hc, rfl⟩ := List.mem_map.mp hx
  rw [h c (lt_endCol_of_mem gs hc).1]

/-! ### One step of a way -/

theorem follows_pair (b : Tree .mapping) (k : Key) (gap : ℕ) (w : Word) (after : Tree .mapping) :
    (Spot.pair b k gap w after).Follows before offset token := by
  intro col lines _ _
  refine ⟨true, ?_⟩
  show climb before offset (Kind.mapping.need col) true _ (under lines (b.rows col).tail) = _
  exact climb_under before offset _ (fun _ => beyond_of_mem_tail) _ _ lines

theorem follows_nest {b : Tree .mapping} {k : Key} {step : ℕ} {inner : Spot m}
    {after : Tree .mapping} (h : inner.Follows before offset token) :
    (Spot.nest b k step inner after).Follows before offset token := by
  intro col lines _ _
  have hentries : Row.entries ⟨col, [], .head k⟩ = [] ++ .key col k.name false false :: [] := rfl
  have hcount : ∀ c, col + step + 1 ≤ c →
      itemsAbove c (Row.text ⟨col, [], .head k⟩ :: under lines (b.rows col).tail) = 0 := by
    intro c hc
    have hcols : ∀ d ∈ ([] : List ℕ), d < col := fun d hd => by cases hd
    exact itemsAbove_of_key hentries hcols (by omega) _
  obtain ⟨first, hf⟩ := h.fresh hcount
  have hlt : col < (m.need (col + step + 1)).col := by
    rw [Kind.col_need]
    omega
  refine ⟨false, ?_⟩
  show walk before offset token inner.key (inner.row (col + step + 1)) (under lines
    ((b.rows col).tail ++ ⟨col, [], .head k⟩ :: inner.above (col + step + 1))) = _
  rw [under_append, under_cons, hf, climb_of_key before offset hentries hlt (by simp)]
  exact climb_under before offset _ (fun _ => beyond_of_mem_tail) _ _ lines

/-- An item whose content stands on the marked line. -/
theorem walk_item_of_nil {b : Tree .sequence} {gap : ℕ} {inner : Spot m} {after : Tree .sequence}
    {col : ℕ} {lines : List Text} (hinner : inner.above (col + gap + 2) = [])
    (hw : Followable (Spot.item b gap inner after).way)
    (h0 : b.length = 0 → ∀ c, col ≤ c → itemsAbove c lines = 0)
    (h1 : b.length ≠ 0 → itemsAbove col lines = 1) :
    walk before offset token inner.key ((Spot.item b gap inner after).row col)
        (under lines (b.rows col).tail) =
      climb before offset (Kind.sequence.need col) true
        ⟨.index b.length :: inner.path, token, false⟩ lines := by
  obtain ⟨hp, hi, hway⟩ := inner.way_of_above_eq_nil hinner
  have hitem := itemsAbove_tail b (fun hb => h0 hb col (Nat.le_refl col)) h1
  have hsteps : itemSteps (dashCols (col + gap + 2) (inner.row (col + gap + 2)).gaps)
      (under lines (b.rows col).tail) =
        List.replicate (inner.row (col + gap + 2)).gaps.length (.index 0) := by
    rw [Spot.way, hp, hway] at hw
    rcases followable_singleton.mp hw with hlen | hhead
    · have hgaps : (inner.row (col + gap + 2)).gaps = [] := by
        simp only [List.length_cons, List.length_append, List.length_replicate,
          List.length_nil] at hlen
        exact List.length_eq_zero_iff.mp (by omega)
      rw [hgaps]
      rfl
    · have hb : b.length = 0 := by simpa using hhead
      rw [(b.rows_eq_nil_iff col).mpr hb, List.tail_nil, under_nil]
      exact itemSteps_eq_replicate fun c hc => h0 hb c (by omega)
  have hpath : inner.path = List.replicate (inner.row (col + gap + 2)).gaps.length (.index 0) ++
      [.key inner.key] := by
    rw [← inner.flatten_way, hway, List.flatten_singleton]
  rw [Spot.row, if_pos hinner, hpath, ← hsteps, ← hitem]
  show climb before offset (Kind.sequence.need col) true _ (under lines (b.rows col).tail) = _
  exact climb_under before offset _ (fun _ => beyond_of_mem_tail) _ _ lines

/-- The entries of a line that an item shares with another member of what it holds. -/
theorem entries_shared {r : Row} {d col gap : ℕ} {gs : List ℕ} (hd : endCol d gs = col)
    (hi : r.indent = col + gap + 2) :
    Row.entries ⟨d, gs ++ [gap] ++ r.gaps, r.body⟩ =
      (dashCols d gs).map .dash ++ .dash col :: r.entries := by
  have hcol : endCol d (gs ++ [gap]) = r.indent := by
    rw [endCol_append, hd, hi]
    rfl
  rw [Row.entries_onto hcol, dashCols_append, hd, List.map_append, List.append_assoc]
  rfl

/-- The dash of an item is the owner of what it holds. -/
theorem climb_shared {r : Row} {d col gap : ℕ} {gs : List ℕ} (hd : endCol d gs = col)
    (hi : r.indent = col + gap + 2) (hr : r.Beyond m (col + gap + 2)) (first : Bool) (f : Found)
    (lines : List Text) :
    climb before offset (m.need (col + gap + 2)) first f
        (Row.text ⟨d, gs ++ [gap] ++ r.gaps, r.body⟩ :: lines) =
      climb before offset (Kind.sequence.need col) false
        { f with path := .index (itemsAbove col lines) :: f.path } lines := by
  have hlt : col < (m.need (col + gap + 2)).col := by
    rw [Kind.col_need]
    omega
  exact climb_of_dash before offset (entries_shared hd hi) hlt
    (fun e he => hr.owns_eq_false he) first f lines

/-- Its own dash ends the counting of the items that an item holds. -/
theorem itemsAbove_shared {r : Row} {d col gap : ℕ} {gs : List ℕ} (hd : endCol d gs = col)
    (hi : r.indent = col + gap + 2) (hdash : r.hasDashAt (col + gap + 2) = true)
    (lines : List Text) :
    itemsAbove (col + gap + 2) (Row.text ⟨d, gs ++ [gap] ++ r.gaps, r.body⟩ :: lines) = 1 := by
  have hentries := entries_shared hd hi
  have hmem : LineEntry.dash col ∈ Row.entries ⟨d, gs ++ [gap] ++ r.gaps, r.body⟩ := by
    rw [hentries]
    exact List.mem_append_right _ List.mem_cons_self
  have hlt : (LineEntry.dash col).col < col + gap + 2 := by
    rw [LineEntry.col]
    omega
  rw [itemsAbove_of_lt hmem hlt, if_pos]
  rw [Row.hasDashAt, hentries, List.any_append, List.any_cons]
  exact Bool.or_eq_true_iff.mpr (.inr (Bool.or_eq_true_iff.mpr (.inr hdash)))

theorem follows_item {b : Tree .sequence} {gap : ℕ} {inner : Spot m} {after : Tree .sequence}
    (h : Followable inner.way → inner.Follows before offset token)
    (hw : Followable (Spot.item b gap inner after).way) :
    (Spot.item b gap inner after).Follows before offset token := by
  intro col lines h0 h1
  by_cases hinner : inner.above (col + gap + 2) = []
  · refine ⟨true, ?_⟩
    rw [Spot.inside, hinner, onto, List.append_nil]
    exact walk_item_of_nil hinner hw h0 fun hb => h1 hb rfl
  have hrow : (Spot.item b gap inner after).row col = inner.row (col + gap + 2) := by
    rw [Spot.row, if_neg hinner]
  by_cases hp : inner.place = 0
  · -- The item and what it holds share a line above.
    obtain ⟨line, next, more, hway⟩ := inner.exists_way_of_above_ne_nil hinner hp
    rw [Spot.way, hp, hway] at hw
    have hlen := ((followable_cons (List.cons_ne_nil _ _)).mp hw).1
    have hline : line ≠ [] := inner.ne_nil_of_mem_way line (by rw [hway]; exact List.mem_cons_self)
    exact absurd (List.length_eq_zero_iff.mp (Nat.succ.inj hlen)) hline
  · obtain ⟨r, ha, hi, hbeyond, hdash⟩ := inner.above_of_place_ne hp (col + gap + 2)
    have hd : endCol col [] = col := rfl
    obtain ⟨first, hf⟩ := h ((Spot.followable_item hp).mp hw) (col + gap + 2)
      (Row.text ⟨col, [gap] ++ r.gaps, r.body⟩ :: under lines (b.rows col).tail)
      (fun h0 => absurd h0 hp) fun _ hm => itemsAbove_shared hd hi (hdash hm) _
    refine ⟨false, ?_⟩
    rw [hrow, Spot.inside, ha, onto, under_append, under_cons]
    show walk before offset token inner.key _ _ = _
    rw [hf]
    refine (climb_shared hd hi hbeyond first _ _).trans ?_
    rw [itemsAbove_tail b (fun hb => h0 hb col (Nat.le_refl col)) (fun hb => h1 hb rfl)]
    exact climb_under before offset _ (fun _ => beyond_of_mem_tail) _ _ lines

/-! ### The whole way -/

theorem Spot.follows (s : Spot m) (hw : Followable s.way) : s.Follows before offset token := by
  induction s with
  | pair b k gap w after => exact follows_pair b k gap w after
  | nest b k step inner after ih =>
      exact follows_nest (ih ((Spot.followable_nest b k step inner after).mp hw))
  | item b gap inner after ih => exact follows_item ih hw

/-- Nothing but the block stands above. -/
theorem Spot.walk_eq (s : Spot m) (hw : Followable s.way) (col : ℕ) :
    walk before offset token s.key (s.row col) (under [] (s.above col)) =
      ⟨s.path, token, false⟩ := by
  have hfollows : s.Follows before offset token := s.follows hw
  have hnil : ∀ c, col ≤ c → itemsAbove c [] = 0 := fun _ _ => rfl
  obtain ⟨first, hf⟩ := hfollows.fresh hnil
  rw [hf]
  rfl

end Walk

end Block
end Scopewright
