import Mathlib.Data.List.Induction
import Scopewright.Proofs.Block.Decoy
import Scopewright.Proofs.Block.Resolve

/-! # Ways that cannot be followed

When a way cannot be followed, there is a document with the same way in which the path is not found
(`Spot.decoy`), though by luck it may be found in others.  Where a line above opens several steps,
the walk up takes the last of them and goes on above the line: at a key instead of an item, or at a
key with a value.  Where the marked line opens several items behind other items, the dash above is
taken for an earlier item.

So the ways that can be followed are those whose paths are found in all documents
(`Spot.resolve_iff_followable`). -/

namespace Scopewright
namespace Block

open Yaml Cursor.Yaml
open Cursor (Segment Path Token)

/-! ### Missing a path -/

/-- What has been found is not the path: the nesting could not be told, or the end is another. -/
def Misses (f : Found) (p : Path) : Prop :=
  f.malformed = true ∨ ∃ q, q <:+ f.path ∧ q.length ≤ p.length ∧ ¬ q <:+ p

theorem Misses.cons {f : Found} {p : Path} (h : Misses f p) (x : Segment) : Misses f (x :: p) := by
  rcases h with h | ⟨q, hq, hlen, hnot⟩
  · exact .inl h
  · refine .inr ⟨q, hq, Nat.le_succ_of_le hlen, fun hs => ?_⟩
    exact hnot (List.suffix_of_suffix_length_le hs (List.suffix_cons x p) hlen)

theorem Misses.not_eq {f : Found} {p : Path} (h : Misses f p) :
    ¬ (f.path = p ∧ f.malformed = false) := by
  rintro ⟨hp, hm⟩
  rcases h with h | ⟨q, hq, _, hnot⟩
  · rw [hm] at h
    cases h
  · exact hnot (hp ▸ hq)

/-- Ends of one length differ. -/
theorem misses_of_suffix {f : Found} {p q q' : Path} (hq : q <:+ f.path) (hq' : q' <:+ p)
    (hlen : q.length = q'.length) (hne : q ≠ q') : Misses f p := by
  refine .inr ⟨q, hq, hlen ▸ hq'.length_le, fun hs => ?_⟩
  exact hne ((List.suffix_of_suffix_length_le hs hq' (Nat.le_of_eq hlen)).eq_of_length hlen)

section Walk

variable {before : Text} {offset : ℕ} {token : Token}

/-- What has been found stays at the end of the path. -/
theorem suffix_climb (before : Text) (offset : ℕ) (A : List Row) :
    ∀ (n : Need) (first : Bool) (f : Found),
    f.path <:+ (climb before offset n first f (under [] A)).path := by
  induction A using List.reverseRecOn with
  | nil => exact fun _ _ f => List.suffix_refl f.path
  | append_singleton A r ih =>
      intro n first f
      rw [under_concat]
      by_cases hn : n.col = 0
      · have hzero := climb_zero before offset hn first f (r.text :: under [] A)
        exact hzero.symm ▸ List.suffix_refl f.path
      · rw [climb, if_neg hn, lineEntries_text]
        cases ho : owner? n r.entries with
        | none => exact ih n first f
        | some e =>
            have hmem : e ∈ r.entries :=
              (List.mem_filter.mp (List.mem_of_getLast? ho)).1
            cases e with
            | dash d =>
                exact (List.suffix_cons _ _).trans
                  (ih ⟨false, d⟩ false { f with path := .index _ :: f.path })
            | key d name hasValue blockScalar =>
                obtain rfl := Row.blockScalar_eq_false hmem
                cases hasValue with
                | true => exact List.suffix_refl _
                | false =>
                    exact (List.suffix_cons _ _).trans
                      (ih ⟨true, d⟩ false { f with path := .key name :: f.path })

/-! ### What becomes of a decoy -/

variable {m : Kind}

variable (before offset token) in
/-- The walk up from the marked line misses the path, or it goes on above the block with an end of
the path.  If that is not all of it, the step before is an item. -/
def Leaves (s : Spot m) (col : ℕ) (f : Found) (lines : List Text) : Prop :=
  Misses f s.path ∨ ∃ (n : Need) (first : Bool) (p : Path),
    f = climb before offset n first ⟨p, token, false⟩ lines ∧ col ≤ n.col ∧
      ((p = s.path ∧ Followable s.way) ∨ ∃ i, .index i :: p <:+ s.path)

variable (before offset token) in
/-- What the walk up from the marked line of a decoy finds, whatever dashes stand before it. -/
def Spot.astray (s : Spot m) (col d : ℕ) (gs : List ℕ) (A : List Row) : Found :=
  walk before offset token s.key (s.decoy.row col)
    (under (under [] A) (onto d gs (s.decoy.above col)))

variable (before offset token) in
/-- The walk up from the marked line of a decoy misses the path, or leaves the block with less than
the path, if the way cannot be followed. -/
def Spot.Strays (s : Spot m) : Prop :=
  ∀ (col d : ℕ) (gs : List ℕ) (A : List Row), endCol d gs = col →
    (s.place = 0 → s.decoy.above col ≠ [] →
      Leaves before offset token s col (s.astray before offset token col d gs A) (under [] A)) ∧
    (s.place ≠ 0 → ¬ Followable s.way →
      Misses (s.astray before offset token col d gs A) s.path)

/-- A decoy that begins a line of its own. -/
theorem Spot.Strays.fresh {s : Spot m} (h : s.Strays before offset token) {col : ℕ} {A : List Row}
    (hA : ∀ c, col ≤ c → itemsAbove c (under [] A) = 0) :
    Leaves before offset token s col (walk before offset token s.key (s.decoy.row col)
      (under (under [] A) (s.decoy.above col))) (under [] A) := by
  by_cases hw : Followable s.way
  · have hw' : Followable s.decoy.way := by rwa [s.way_decoy]
    have hfollows : s.decoy.Follows before offset token := s.decoy.follows hw'
    obtain ⟨first, hf⟩ := hfollows.fresh hA
    rw [s.key_decoy, s.path_decoy] at hf
    exact .inr ⟨m.need col, first, s.path, hf, Nat.le_of_eq (m.col_need col).symm,
      .inl ⟨rfl, hw⟩⟩
  · obtain ⟨h0, h1⟩ := h col col [] A rfl
    rw [Spot.astray, s.decoy.onto_above] at h0 h1
    by_cases hp : s.place = 0
    · refine h0 hp fun ha => hw ?_
      rw [← s.way_decoy]
      exact Spot.followable_of_above_eq_nil ha
    · exact .inl (h1 hp hw)

theorem strays_pair (b : Tree .mapping) (k : Key) (gap : ℕ) (w : Word) (after : Tree .mapping) :
    (Spot.pair b k gap w after).Strays before offset token := by
  intro col d gs A _
  refine ⟨fun hp ha => ?_, fun _ hw => ?_⟩
  · refine absurd ?_ ha
    exact (rows_decoyPairs_eq_nil_iff col).mpr hp
  · exact absurd (followable_singleton.mpr (.inl (by simp))) hw

/-- Above what is nested under a key, the key is found. -/
theorem leaves_nest {k : Key} {step : ℕ} {inner : Spot m}
    (h : inner.Strays before offset token) {col : ℕ} {r : Row} {cols : List ℕ}
    (hcols : ∀ c ∈ cols, c < col)
    (hr : r.entries = cols.map .dash ++ [.key col k.name false false]) {A : List Row} {f : Found}
    (hf : f = walk before offset token inner.key (inner.decoy.row (col + step + 1))
      (under (r.text :: under [] A) (inner.decoy.above (col + step + 1)))) :
    Misses f (.key k.name :: inner.path) ∨ ∃ first,
      f = climb before offset (Kind.mapping.need col) first
        ⟨.key k.name :: inner.path, token, false⟩ (under [] A) ∧ Followable inner.way := by
  have hcount : ∀ c, col + step + 1 ≤ c → itemsAbove c (under [] (A ++ [r])) = 0 := by
    intro c hc
    rw [under_concat]
    exact itemsAbove_of_key hr hcols (by omega) (under [] A)
  have hfresh := h.fresh hcount
  rw [under_concat, ← hf] at hfresh
  rcases hfresh with hmiss | ⟨n, first, p, hf, hcol, hp⟩
  · exact .inl (hmiss.cons _)
  · have hkey := climb_of_key before offset (n := n) hr (by omega) (by simp) first
      ⟨p, token, false⟩ (under [] A)
    rw [hkey] at hf
    rcases hp with ⟨rfl, hw⟩ | ⟨i, hi⟩
    · exact .inr ⟨false, hf, hw⟩
    · have hsuffix : .key k.name :: p <:+ f.path := by
        rw [hf]
        exact suffix_climb before offset A _ _ ⟨.key k.name :: p, token, false⟩
      exact .inl (misses_of_suffix hsuffix (hi.trans (List.suffix_cons _ _)) rfl (by simp))

theorem strays_nest {b : Tree .mapping} {k : Key} {step : ℕ} {inner : Spot m}
    {after : Tree .mapping} (h : inner.Strays before offset token) :
    (Spot.nest b k step inner after).Strays before offset token := by
  intro col d gs A hd
  have hway := Spot.followable_nest b k step inner after
  refine ⟨fun hp _ => ?_, fun hp hw => ?_⟩
  · have hb : (decoyPairs b.length).rows col = [] :=
      ((decoyPairs b.length).rows_eq_nil_iff col).mpr ((length_decoyPairs _).trans hp)
    have hr : Row.entries ⟨d, gs ++ [], .head k⟩ =
        (dashCols d gs).map .dash ++ [.key col k.name false false] :=
      Row.entries_onto (r := ⟨col, [], .head k⟩) hd
    have hcols : ∀ c ∈ dashCols d gs, c < col := by
      intro c hc
      have := (lt_endCol_of_mem gs hc).2
      omega
    have hf : (Spot.nest b k step inner after).astray before offset token col d gs A =
        walk before offset token inner.key (inner.decoy.row (col + step + 1))
          (under (Row.text ⟨d, gs ++ [], .head k⟩ :: under [] A)
            (inner.decoy.above (col + step + 1))) := by
      rw [Spot.astray, Spot.decoy, Spot.above, hb, List.nil_append, onto, under_cons]
      rfl
    rcases leaves_nest h hcols hr hf with hmiss | ⟨first, hf, hw⟩
    · exact .inl hmiss
    · exact .inr ⟨Kind.mapping.need col, first, _, hf, Nat.le_refl _, .inl ⟨rfl, hway.mpr hw⟩⟩
  · have hb : (decoyPairs b.length).rows col ≠ [] := mt (rows_decoyPairs_eq_nil_iff col).mp hp
    have hr : Row.entries ⟨col, [], .head k⟩ =
        ([] : List ℕ).map .dash ++ [.key col k.name false false] := rfl
    have hf : (Spot.nest b k step inner after).astray before offset token col d gs A =
        walk before offset token inner.key (inner.decoy.row (col + step + 1))
          (under (Row.text ⟨col, [], .head k⟩ ::
              under [] (A ++ onto d gs ((decoyPairs b.length).rows col)))
            (inner.decoy.above (col + step + 1))) := by
      rw [Spot.astray, Spot.decoy, Spot.above, onto_append hb, under_append, under_cons,
        ← under_append]
      rfl
    rcases leaves_nest h (by simp) hr hf with hmiss | ⟨first, hf, hw'⟩
    · exact hmiss
    · exact absurd (hway.mpr hw') hw

/-- Where the marked line opens several items, a dash on the line above in the column of the second
one is taken for an item before it. -/
theorem misses_of_dash {key : Text} {p : Path} {col g : ℕ} {gaps : List ℕ} {body : Body}
    {r : Row} {A : List Row} (hgaps : gaps ≠ [])
    (hp : List.replicate gaps.length (.index 0) ++ [.key key] <:+ p)
    (hcol : .dash col ∈ r.entries) (hdash : r.hasDashAt (col + g + 2) = true) :
    Misses (walk before offset token key ⟨col, g :: gaps, body⟩ (under [] (A ++ [r]))) p := by
  obtain ⟨g', gs, rfl⟩ := List.exists_cons_of_ne_nil hgaps
  have hone : itemsAbove (col + g + 2) (under [] (A ++ [r])) = 1 := by
    have hlt : (LineEntry.dash col).col < col + g + 2 := by
      rw [LineEntry.col]
      omega
    rw [under_concat, itemsAbove_of_lt hcol hlt, if_pos hdash]
  refine misses_of_suffix (q := itemSteps (dashCols (col + g + 2) (g' :: gs))
    (under [] (A ++ [r])) ++ [.key key]) ?_ hp ?_ ?_
  · have hsuffix := suffix_climb before offset (A ++ [r])
      (Kind.sequence.need col) true
      ⟨itemSteps (dashCols col (g :: g' :: gs)) (under [] (A ++ [r])) ++ [.key key], token, false⟩
    exact (List.suffix_cons _ _).trans hsuffix
  · simp [itemSteps, length_dashCols]
  · simp [itemSteps, dashCols, hone, List.replicate_succ]

section Item

variable {b : Tree .sequence} {gap : ℕ} {inner : Spot m} {after : Tree .sequence} {col d : ℕ}
  {gs : List ℕ} {A : List Row}

/-- The dashes before a first item stand before what it holds. -/
theorem astray_item_of_zero (hb : b.length = 0) (ha : inner.decoy.above (col + 1 + 2) ≠ []) :
    (Spot.item b gap inner after).astray before offset token col d gs A =
      inner.astray before offset token (col + 1 + 2) d (gs ++ [1]) A := by
  have hrows := (rows_decoyBefore_eq_nil_iff (inner.way.length = 1) col).mpr hb
  rw [Spot.astray, Spot.decoy, Spot.above, hrows, List.nil_append, onto_onto, Spot.row, if_neg ha]
  rfl

/-- The items before a later one stand above it. -/
theorem astray_item_of_ne (hd : endCol d gs = col) (hb : b.length ≠ 0)
    (ha : inner.decoy.above (col + 1 + 2) ≠ []) :
    ∃ B r es, (Spot.item b gap inner after).astray before offset token col d gs A =
        inner.astray before offset token (col + 1 + 2) col [1] (A ++ B ++ [r]) ∧
      r.entries = es ++ .dash col :: (if decide (inner.way.length = 1) then [.dash (col + 3)]
        else [.key (col + 2) Key.decoy.name true false]) := by
  obtain ⟨B, r, es, honto, hr⟩ := exists_rows_decoyBefore (inner.way.length = 1) hb hd
  refine ⟨B, r, es, ?_, hr⟩
  have hne := mt (rows_decoyBefore_eq_nil_iff (inner.way.length = 1) col).mp hb
  rw [Spot.astray, Spot.decoy, Spot.above, onto_append hne, honto, under_append,
    ← under_append [] A (B ++ [r]), ← List.append_assoc, Spot.row, if_neg ha]
  rfl

/-- What leaves what an item holds leaves the item. -/
theorem leaves_item {f : Found} {lines : List Text}
    (h : Leaves before offset token inner (col + 1 + 2) f lines) :
    Leaves before offset token (Spot.item b gap inner after) col f lines := by
  rcases h with hmiss | ⟨n, first, p, hf, hcol, hp⟩
  · exact .inl (hmiss.cons _)
  · refine .inr ⟨n, first, p, hf, by omega, .inr ?_⟩
    rcases hp with ⟨rfl, _⟩ | ⟨i, hi⟩
    · exact ⟨b.length, List.suffix_refl _⟩
    · exact ⟨i, hi.trans (List.suffix_cons _ _)⟩

/-- The item and what it holds begin on a line above: the item is passed by, and the item before it
holds a key with a value. -/
theorem strays_item_of_shared (h : inner.Strays before offset token) (hp : inner.place = 0)
    (ha : inner.decoy.above (col + 1 + 2) ≠ []) (hd : endCol d gs = col) :
    (b.length = 0 → Leaves before offset token (Spot.item b gap inner after) col
      ((Spot.item b gap inner after).astray before offset token col d gs A) (under [] A)) ∧
    (b.length ≠ 0 → Misses ((Spot.item b gap inner after).astray before offset token col d gs A)
      (Spot.item b gap inner after).path) := by
  refine ⟨fun hb => ?_, fun hb => ?_⟩
  · have hd' : endCol d (gs ++ [1]) = col + 1 + 2 := by rw [endCol_append, hd]; rfl
    rw [astray_item_of_zero hb ha]
    exact leaves_item ((h (col + 1 + 2) d (gs ++ [1]) A hd').1 hp ha)
  · obtain ⟨B, r, es, hf, hr⟩ := astray_item_of_ne hd hb ha
    rw [hf]
    have hinner := h (col + 1 + 2) col [1] (A ++ B ++ [r]) rfl
    rcases hinner.1 hp ha with hmiss | ⟨n, first, p, hf, hcol, _⟩
    · exact hmiss.cons _
    · have hway : inner.way.length ≠ 1 := by
        rw [← inner.place_decoy] at hp
        obtain ⟨line, next, lines, hw⟩ := inner.decoy.exists_way_of_above_ne_nil ha hp
        rw [← inner.way_decoy, hw]
        simp
      rw [if_neg (by simpa using hway), List.append_cons] at hr
      refine .inl ?_
      rw [hf, under_concat]
      exact climb_of_value before offset hr (by omega) (by simp) first _ _

/-- The item begins on a line of its own.  Its dash is found, and the items before it are counted
right or not. -/
theorem leaves_item_of_apart (hp : inner.place ≠ 0) (hw : Followable inner.way)
    (hd : endCol d gs = col) (hb : b.length = 0) (ha : inner.decoy.above (col + 1 + 2) ≠ []) :
    Leaves before offset token (Spot.item b gap inner after) col
      ((Spot.item b gap inner after).astray before offset token col d gs A) (under [] A) := by
  have hp' : inner.decoy.place ≠ 0 := by rwa [inner.place_decoy]
  have hw' : Followable inner.decoy.way := by rwa [inner.way_decoy]
  obtain ⟨r, hr, hi, hbeyond, hdash⟩ := inner.decoy.above_of_place_ne hp' (col + 1 + 2)
  have hfollows : inner.decoy.Follows before offset token := inner.decoy.follows hw'
  obtain ⟨first, hf⟩ := hfollows (col + 1 + 2)
    (Row.text ⟨d, gs ++ [1] ++ r.gaps, r.body⟩ :: under [] A) (fun h0 => absurd h0 hp')
    fun _ hm => itemsAbove_shared hd hi (hdash hm) _
  rw [climb_shared hd hi hbeyond, inner.path_decoy, inner.key_decoy] at hf
  have hf' : (Spot.item b gap inner after).astray before offset token col d gs A =
      climb before offset (Kind.sequence.need col) false
        ⟨.index (itemsAbove col (under [] A)) :: inner.path, token, false⟩ (under [] A) := by
    rw [astray_item_of_zero hb ha, Spot.astray, hr, onto, under_cons]
    exact hf
  by_cases hcount : itemsAbove col (under [] A) = b.length
  · refine .inr ⟨Kind.sequence.need col, false, _, hf', Nat.le_refl _, .inl ⟨?_, ?_⟩⟩
    · rw [hcount]
      rfl
    · exact (Spot.followable_item hp).mpr hw
  · have hsuffix : .index (itemsAbove col (under [] A)) :: inner.path <:+
        ((Spot.item b gap inner after).astray before offset token col d gs A).path := by
      rw [hf']
      exact suffix_climb before offset A _ _ ⟨.index _ :: inner.path, token, false⟩
    refine .inl (misses_of_suffix hsuffix (List.suffix_refl _) rfl ?_)
    simpa [Spot.path] using hcount

theorem strays_item_of_apart (h : inner.Strays before offset token) (hp : inner.place ≠ 0)
    (hd : endCol d gs = col) :
    (b.length = 0 → Leaves before offset token (Spot.item b gap inner after) col
      ((Spot.item b gap inner after).astray before offset token col d gs A) (under [] A)) ∧
    (b.length ≠ 0 → ¬ Followable (Spot.item b gap inner after).way →
      Misses ((Spot.item b gap inner after).astray before offset token col d gs A)
        (Spot.item b gap inner after).path) := by
  have ha : inner.decoy.above (col + 1 + 2) ≠ [] := by
    intro hnil
    have h0 := (inner.decoy.way_of_above_eq_nil hnil).1
    rw [inner.place_decoy] at h0
    exact hp h0
  refine ⟨fun hb => ?_, fun hb hw => ?_⟩
  · by_cases hw : Followable inner.way
    · exact leaves_item_of_apart hp hw hd hb ha
    · have hd' : endCol d (gs ++ [1]) = col + 1 + 2 := by rw [endCol_append, hd]; rfl
      rw [astray_item_of_zero hb ha]
      exact .inl (((h (col + 1 + 2) d (gs ++ [1]) A hd').2 hp hw).cons _)
  · obtain ⟨B, r, es, hf, _⟩ := astray_item_of_ne hd hb ha
    rw [hf]
    rw [Spot.followable_item hp] at hw
    exact ((h (col + 1 + 2) col [1] (A ++ B ++ [r]) rfl).2 hp hw).cons _

/-- What the item holds stands on the marked line. -/
theorem misses_item_of_nil (ha : inner.decoy.above (col + 1 + 2) = []) (hd : endCol d gs = col)
    (hb : b.length ≠ 0) (hw : ¬ Followable (Spot.item b gap inner after).way) :
    Misses ((Spot.item b gap inner after).astray before offset token col d gs A)
      (Spot.item b gap inner after).path := by
  obtain ⟨hp, _, hway⟩ := inner.decoy.way_of_above_eq_nil ha
  rw [inner.place_decoy] at hp
  rw [inner.way_decoy, inner.key_decoy] at hway
  have hlen : inner.way.length = 1 := by rw [hway]; rfl
  have hgaps : (inner.decoy.row (col + 1 + 2)).gaps ≠ [] := by
    intro hnil
    rw [hnil] at hway
    rw [Spot.way, hway, hp] at hw
    exact hw (followable_singleton.mpr (.inl (Nat.le_refl 2)))
  have hsuffix : List.replicate (inner.decoy.row (col + 1 + 2)).gaps.length (.index 0) ++
      [.key inner.key] <:+ (Spot.item b gap inner after).path := by
    rw [Spot.path, ← inner.flatten_way, hway, List.flatten_singleton]
    exact List.suffix_cons _ _
  obtain ⟨B, r, es, honto, hr⟩ := exists_rows_decoyBefore (inner.way.length = 1) hb hd
  rw [if_pos (decide_eq_true hlen)] at hr
  have hcol : .dash col ∈ r.entries := by
    rw [hr]
    exact List.mem_append_right _ List.mem_cons_self
  have hdash : r.hasDashAt (col + 1 + 2) = true := by
    rw [Row.hasDashAt, hr]
    simp [LineEntry.isDashAt]
  rw [Spot.astray, Spot.decoy, Spot.above, ha, onto, List.append_nil, honto,
    ← under_append, ← List.append_assoc, Spot.row, if_pos ha]
  exact misses_of_dash hgaps hsuffix hcol hdash

end Item

theorem strays_item {b : Tree .sequence} {gap : ℕ} {inner : Spot m} {after : Tree .sequence}
    (h : inner.Strays before offset token) :
    (Spot.item b gap inner after).Strays before offset token := by
  intro col d gs A hd
  by_cases ha : inner.decoy.above (col + 1 + 2) = []
  · refine ⟨fun hb habove => ?_, fun hb hw => misses_item_of_nil ha hd hb hw⟩
    refine absurd ?_ habove
    have hlen : b.length = 0 := hb
    have hrows := (rows_decoyBefore_eq_nil_iff (inner.way.length = 1) col).mpr hlen
    rw [Spot.decoy, Spot.above, hrows, ha]
    rfl
  · by_cases hp : inner.place = 0
    · obtain ⟨h0, h1⟩ := strays_item_of_shared h hp ha hd
      exact ⟨fun hb _ => h0 hb, fun hb _ => h1 hb⟩
    · obtain ⟨h0, h1⟩ := strays_item_of_apart h hp hd
      exact ⟨fun hb _ => h0 hb, h1⟩

theorem Spot.strays (s : Spot m) : s.Strays before offset token := by
  induction s with
  | pair b k gap w after => exact strays_pair b k gap w after
  | nest b k step inner after ih => exact strays_nest ih
  | item b gap inner after ih => exact strays_item ih

end Walk

/-! ### Exactly the ways that can be followed -/

namespace Spot

variable {m : Kind}

/-- In the decoy the path is not found if the way cannot be followed. -/
theorem found_decoy_ne (s : Spot m) (hw : ¬ Followable s.way) (col : ℕ) (token : Token) :
    ¬ ((s.decoy.found col token).path = s.path ∧ (s.decoy.found col token).malformed = false) := by
  have hnil : ∀ c, col ≤ c → itemsAbove c (under [] []) = 0 := fun _ _ => rfl
  have hstrays : s.Strays (s.decoy.row col).text (s.decoy.offset col) token := s.strays
  have hleaves := hstrays.fresh hnil
  rw [← s.key_decoy] at hleaves
  rcases hleaves with hmiss | ⟨n, first, p, hf, _, hp⟩
  · exact hmiss.not_eq
  · rintro ⟨hpath, _⟩
    rcases hp with ⟨_, hw'⟩ | ⟨i, hi⟩
    · exact hw hw'
    · have hfp : (s.decoy.found col token).path = p := congrArg Found.path hf
      rw [← hpath, hfp] at hi
      have := hi.length_le
      rw [List.length_cons] at this
      omega

/-- The ways that can be followed are those whose paths the cursor finds at the end of the marked
line in every document. -/
theorem resolve_iff_followable (s : Spot m) :
    (∀ (m' : Kind) (t : Spot m'), t.way = s.way → ∀ (col : ℕ) (rest : Text),
      (resolve (t.text col ++ rest) (t.offset col)).path = t.path ∧
      (resolve (t.text col ++ rest) (t.offset col)).malformed = false) ↔
    Followable s.way := by
  constructor
  · intro h
    by_contra hw
    obtain ⟨token, hpath, hmal⟩ := s.decoy.resolve_eq_walk 0 []
    have hfound := h m s.decoy s.way_decoy 0 []
    rw [hpath, hmal, s.path_decoy] at hfound
    exact s.found_decoy_ne hw 0 token hfound
  · intro hw m' t ht col rest
    exact t.resolve_of_followable (by rwa [ht]) col rest

/-- The document of the lines `k:`, `  - k:` and `      k: w`, the last of them marked. -/
def behindDash : Spot .mapping :=
  .nest .nil .decoy 1 (.item .nil 0 (.nest .nil .decoy 1 (.pair .nil .decoy 0 .decoy .nil) .nil)
    .nil) .nil

/-- The place of an item is missing when a key stands behind its dash on a line above. -/
theorem resolve_behindDash :
    ¬ Followable behindDash.way ∧
    behindDash.path = [.key ['k'], .index 0, .key ['k'], .key ['k']] ∧
    (resolve (behindDash.text 0) (behindDash.offset 0)).path =
      [.key ['k'], .key ['k'], .key ['k']] := by
  refine ⟨by decide, rfl, ?_⟩
  obtain ⟨token, hpath, _⟩ := behindDash.resolve_eq_walk 0 []
  rw [List.append_nil] at hpath
  rw [hpath]
  simp [behindDash, found, walk, start, under, above, row, key, onto, Tree.rows, climb,
    lineEntries_text, Row.entries, dashCols, endCol, Body.entry?, owner?, ownsCompactly,
    LineEntry.col, itemSteps, Kind.need, Key.decoy]

end Spot

end Block
end Scopewright
