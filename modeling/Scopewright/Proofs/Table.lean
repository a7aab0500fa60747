import Mathlib.Data.List.Nodup
import Scopewright.Table

/-! # Laws of tables

What `Table.get?` finds after each operation: `get?_set`, `get?_erase`, `get?_filter`, and
`get?_setAll` for many values one after the other, where the last value of a name counts.  The
operations keep the names apart (`set_nodup`, `setAll_nodup`), and then an entry of a table is what
`get?` finds (`mem_iff_get?`). -/

namespace Scopewright
namespace Table

variable {α : Type} {t : Table α}

theorem has_iff {name : Text} : has t name = true ↔ name ∈ names t := by
  simp only [has, names, List.any_eq_true, decide_eq_true_eq, List.mem_map]

theorem get?_cons (e : Text × α) (t : Table α) (name : Text) :
    get? (e :: t) name = if name = e.1 then some e.2 else get? t name := by
  unfold get?
  rw [List.lookup_cons]
  by_cases h : name = e.1
  · simp [h]
  · simp [h, beq_false_of_ne h]

theorem get?_isSome_iff {name : Text} : (get? t name).isSome ↔ name ∈ names t := by
  simp only [get?, List.lookup_isSome_iff, names, List.mem_map, beq_iff_eq]
  constructor
  · rintro ⟨e, he, rfl⟩
    exact ⟨e, he, rfl⟩
  · rintro ⟨e, he, rfl⟩
    exact ⟨e, he, rfl⟩

theorem get?_eq_none_iff {name : Text} : get? t name = none ↔ name ∉ names t := by
  rw [← get?_isSome_iff, Option.not_isSome_iff_eq_none]

/-- In a table whose names are apart, the entries are what `get?` finds. -/
theorem mem_iff_get? (h : (names t).Nodup) {name : Text} {value : α} :
    (name, value) ∈ t ↔ get? t name = some value := by
  induction t with
  | nil => simp [get?]
  | cons e t ih =>
      obtain ⟨hn, ht⟩ := List.nodup_cons.mp h
      rw [get?_cons, List.mem_cons, ih ht]
      by_cases he : name = e.1
      · subst he
        have hnone : get? t e.1 = none := get?_eq_none_iff.mpr hn
        simp [hnone, Prod.ext_iff, eq_comm]
      · simp [he, Prod.ext_iff]

theorem get?_map {β : Type} (f : α → β) (t : Table α) (name : Text) :
    get? (t.map fun e => (e.1, f e.2)) name = (get? t name).map f := by
  induction t with
  | nil => rfl
  | cons e t ih =>
      rw [List.map_cons, get?_cons, get?_cons, ih]
      by_cases he : name = e.1 <;> simp [he]

theorem mem_names_reverse {name : Text} : name ∈ names t.reverse ↔ name ∈ names t := by
  simp only [names, List.map_reverse, List.mem_reverse]

/-! ### Leaving entries out -/

theorem get?_filter (p : Text → Bool) (t : Table α) (name : Text) :
    get? (t.filter fun e => p e.1) name = if p name then get? t name else none := by
  induction t with
  | nil => simp [get?]
  | cons e t ih =>
      by_cases hp : p e.1 = true
      · rw [List.filter_cons_of_pos (by simpa using hp), get?_cons, get?_cons, ih]
        by_cases he : name = e.1
        · simp [he, hp]
        · simp [he]
      · rw [List.filter_cons_of_neg (by simpa using hp), get?_cons, ih]
        by_cases he : name = e.1
        · simp [he, hp]
        · simp [he]

theorem get?_erase (t : Table α) (name other : Text) :
    get? (erase t name) other = if other = name then none else get? t other := by
  rw [erase, get?_filter (fun n => decide (n ≠ name))]
  by_cases h : other = name <;> simp [h]

theorem filter_nodup (p : Text × α → Bool) (h : (names t).Nodup) :
    (names (t.filter p)).Nodup :=
  h.sublist (List.filter_sublist.map _)

theorem erase_nodup (name : Text) (h : (names t).Nodup) : (names (erase t name)).Nodup :=
  filter_nodup _ h

/-! ### Giving values -/

theorem get?_map_value (t : Table α) (name : Text) (value : α) (other : Text) :
    get? (t.map fun e => if e.1 = name then (name, value) else e) other
      = if other = name then (get? t name).map fun _ => value else get? t other := by
  induction t with
  | nil => simp [get?]
  | cons e t ih =>
      rw [List.map_cons, get?_cons, ih, get?_cons, get?_cons]
      by_cases he : e.1 = name
      · by_cases ho : other = name <;> simp [he, ho]
      · by_cases ho : other = name
        · have hne : ¬ name = e.1 := fun h => he h.symm
          simp [he, ho, hne]
        · simp [he, ho]

theorem get?_set (t : Table α) (name : Text) (value : α) (other : Text) :
    get? (set t name value) other = if other = name then some value else get? t other := by
  unfold set
  split
  · rename_i h
    rw [get?_map_value]
    have hs := get?_isSome_iff.mpr (has_iff.mp h)
    obtain ⟨v, hv⟩ := Option.isSome_iff_exists.mp hs
    rw [hv]
    rfl
  · rename_i h
    have hnone : get? t name = none := get?_eq_none_iff.mpr fun hn => h (has_iff.mpr hn)
    have happ : get? (t ++ [(name, value)]) other
        = (get? t other).or (get? [(name, value)] other) := List.lookup_append
    rw [happ, get?_cons]
    by_cases ho : other = name
    · simp [ho, hnone]
    · simp [ho, get?]

theorem names_set (t : Table α) (name : Text) (value : α) :
    names (set t name value) = if name ∈ names t then names t else names t ++ [name] := by
  unfold set
  by_cases h : name ∈ names t
  · rw [if_pos (has_iff.mpr h), if_pos h]
    simp only [names, List.map_map]
    refine List.map_congr_left fun e _ => ?_
    by_cases he : e.1 = name <;> simp [he]
  · rw [if_neg fun hn => h (has_iff.mp hn), if_neg h]
    simp [names]

theorem set_nodup (name : Text) (value : α) (h : (names t).Nodup) :
    (names (set t name value)).Nodup := by
  rw [names_set]
  split
  · exact h
  · rename_i hn
    exact List.nodup_append.mpr ⟨h, List.nodup_singleton name, fun a ha b hb hab =>
      hn (by rw [← List.mem_singleton.mp hb, ← hab]; exact ha)⟩

/-- Many values one after the other. -/
def setAll (t : Table α) (entries : List (Text × α)) : Table α :=
  entries.foldl (fun t e => set t e.1 e.2) t

theorem setAll_cons (t : Table α) (e : Text × α) (entries : List (Text × α)) :
    setAll t (e :: entries) = setAll (set t e.1 e.2) entries := rfl

theorem setAll_nodup (entries : List (Text × α)) : ∀ {t : Table α}, (names t).Nodup →
    (names (setAll t entries)).Nodup := by
  induction entries with
  | nil => exact id
  | cons e entries ih => exact fun h => ih (set_nodup e.1 e.2 h)

/-- The last of the new values of a name counts. -/
theorem get?_setAll (entries : List (Text × α)) : ∀ (t : Table α) (name : Text),
    get? (setAll t entries) name = (get? entries.reverse name).or (get? t name) := by
  induction entries with
  | nil => exact fun _ _ => rfl
  | cons e entries ih =>
      intro t name
      have happ : get? (entries.reverse ++ [e]) name
          = (get? entries.reverse name).or (get? [e] name) := List.lookup_append
      rw [setAll_cons, ih, List.reverse_cons, happ, get?_set, get?_cons, Option.or_assoc]
      by_cases he : name = e.1 <;> simp [he, get?]

theorem mem_of_mem_set {name : Text} {value : α} {e : Text × α} (h : e ∈ set t name value) :
    e = (name, value) ∨ e ∈ t := by
  unfold set at h
  split at h
  · obtain ⟨c, hc, rfl⟩ := List.mem_map.mp h
    split
    · exact .inl rfl
    · exact .inr hc
  · rcases List.mem_append.mp h with h | h
    · exact .inr h
    · exact .inl (List.mem_singleton.mp h)

theorem mem_of_mem_setAll (entries : List (Text × α)) : ∀ {t : Table α} {e : Text × α},
    e ∈ setAll t entries → e ∈ entries ∨ e ∈ t := by
  induction entries with
  | nil => exact fun h => .inr h
  | cons d entries ih =>
      intro t e he
      rcases ih he with he | he
      · exact .inl (List.mem_cons_of_mem _ he)
      · rcases mem_of_mem_set he with rfl | he
        · exact .inl List.mem_cons_self
        · exact .inr he

end Table
end Scopewright
