import Scopewright.Proofs.Registry.Indexing

/-! # The registry after any changes

What a registry holds is told from the changes that were made to it, the latest last.  A package
counts as scanned since the last scan has found it (`Scanned`), it is stored since it was
last given (`Stored`), and its records are those of the files last given for it (`Latest`).
`mem_scanned_apply` and the lemmas `get?_apply_*` tell what one change does to the two tables, and
`holds_history` puts them together by induction on the changes. -/

namespace Scopewright
namespace Registry
namespace Change

/-- The files that a change gives for a package; of two lists in one scan the last one. -/
def files? (p : Text) : Change → Option (List File)
  | .replace q files => if q = p then some files else none
  | .scan found => Table.get? found.reverse p
  | _ => none

/-- The change is a scan of the packages directories. -/
def IsScan : Change → Prop
  | .scan _ => True
  | _ => False

/-- The change is a scan that has found a package. -/
def Finds (p : Text) : Change → Prop
  | .scan found => p ∈ Table.names found
  | _ => False

/-- The change takes a package away: it drops the package, or it is a scan that misses one of
the packages of the scan before. -/
def Removes (scanned : Text → Prop) (p : Text) (c : Change) : Prop :=
  c = .invalidate p ∨ (c.IsScan ∧ ¬ c.Finds p ∧ scanned p)

theorem files?_isSome_of_finds {p : Text} {c : Change} (h : c.Finds p) : (c.files? p).isSome := by
  cases c with
  | scan found => exact Table.get?_isSome_iff.mpr (Table.mem_names_reverse.mpr h)
  | replace q files => exact h.elim
  | invalidate q => exact h.elim
  | fail f => exact h.elim

end Change

/-! ### One change -/

variable {r : Registry} {c : Change} {p : Text}

theorem get?_invalidate (r : Registry) (q p : Text) : Table.get? (r.invalidate q).1.packages p
    = if p = q then none else Table.get? r.packages p := by
  unfold invalidate
  simp only
  split
  · exact Table.get?_erase r.packages q p
  · rename_i h
    split
    · rename_i hp
      subst hp
      exact Table.get?_eq_none_iff.mpr fun hn => h (Table.has_iff.mpr hn)
    · rfl

theorem scanned_invalidate (r : Registry) (q : Text) :
    (r.invalidate q).1.scanned = r.scanned.filter fun p => decide (p ≠ q) := by
  unfold invalidate
  simp only
  split <;> rfl

/-- The packages that are stored after a scan. -/
theorem get?_replaceScanned (r : Registry) (found : Table (List File)) (p : Text) :
    Table.get? (r.replaceScanned found).1.packages p =
      ((Table.get? found.reverse p).map fun files => (indexFiles files).1).or
        (if p ∈ r.scanned ∧ p ∉ Table.names found then none else Table.get? r.packages p) := by
  have hpackages : (r.replaceScanned found).1.packages =
      Table.setAll (r.packages.filter fun e =>
          !(r.scanned.contains e.1 && !Table.has found e.1))
        (found.map fun e => (e.1, (indexFiles e.2).1)) := by
    simp only [replaceScanned, swap, Table.setAll, List.foldl_map]
  rw [hpackages, Table.get?_setAll, ← List.map_reverse,
    Table.get?_map fun files => (indexFiles files).1,
    Table.get?_filter fun n => !(r.scanned.contains n && !Table.has found n)]
  congr 1
  by_cases hs : p ∈ r.scanned <;> by_cases hf : p ∈ Table.names found <;>
    simp [hs, hf, Table.has_iff]

theorem mem_scanned_apply : p ∈ (r.apply c).1.scanned ↔
    c.Finds p ∨ ((¬ c.IsScan ∧ c ≠ .invalidate p) ∧ p ∈ r.scanned) := by
  cases c with
  | replace q files =>
      simp only [Change.Finds, Change.IsScan, ne_eq, reduceCtorEq, not_false_eq_true, true_and,
        false_or]
      exact Iff.rfl
  | invalidate q =>
      have h : (r.apply (.invalidate q)).1.scanned = r.scanned.filter fun p => decide (p ≠ q) :=
        scanned_invalidate r q
      have hne : Change.invalidate q ≠ .invalidate p ↔ p ≠ q := by
        rw [ne_eq, Change.invalidate.injEq, eq_comm]
      rw [h, List.mem_filter, decide_eq_true_eq, and_comm, hne]
      simp only [Change.Finds, Change.IsScan, not_false_eq_true, true_and, false_or]
  | scan found =>
      simp only [Change.Finds, Change.IsScan, not_true_eq_false, false_and, or_false]
      exact Iff.rfl
  | fail f =>
      simp only [Change.Finds, Change.IsScan, ne_eq, reduceCtorEq, not_false_eq_true, true_and,
        false_or]
      exact Iff.rfl

theorem get?_apply_of_files? {files : List File} (h : c.files? p = some files) :
    Table.get? (r.apply c).1.packages p = some (indexFiles files).1 := by
  cases c with
  | replace q fs =>
      simp only [Change.files?, Option.ite_none_right_eq_some, Option.some.injEq] at h
      obtain ⟨rfl, rfl⟩ := h
      exact (Table.get?_set _ _ _ _).trans (if_pos rfl)
  | invalidate q => cases h
  | scan found =>
      have hg : Table.get? found.reverse p = some files := h
      exact (get?_replaceScanned r found p).trans (by rw [hg]; rfl)
  | fail f => cases h

theorem get?_apply_of_removes (h : c.Removes (· ∈ r.scanned) p) :
    Table.get? (r.apply c).1.packages p = none := by
  rcases h with rfl | ⟨hs, hf, hm⟩
  · exact (get?_invalidate r p p).trans (if_pos rfl)
  · cases c with
    | scan found =>
        have hn : Table.get? found.reverse p = none :=
          Table.get?_eq_none_iff.mpr fun h => hf (Table.mem_names_reverse.mp h)
        exact (get?_replaceScanned r found p).trans (by rw [hn, if_pos ⟨hm, hf⟩]; rfl)
    | replace q files => exact hs.elim
    | invalidate q => exact hs.elim
    | fail f => exact hs.elim

/-- A change that neither gives nor takes a package leaves it as it is. -/
theorem get?_apply_of_not (hg : c.files? p = none) (hr : ¬ c.Removes (· ∈ r.scanned) p) :
    Table.get? (r.apply c).1.packages p = Table.get? r.packages p := by
  cases c with
  | replace q files =>
      simp only [Change.files?, ite_eq_right_iff, reduceCtorEq, imp_false] at hg
      exact (Table.get?_set _ _ _ _).trans (if_neg fun h => hg h.symm)
  | invalidate q =>
      exact (get?_invalidate r q p).trans (if_neg fun h => hr (.inl (by rw [h])))
  | scan found =>
      have hn : Table.get? found.reverse p = none := hg
      have hf : p ∉ Table.names found := fun h =>
        Table.get?_eq_none_iff.mp hn (Table.mem_names_reverse.mpr h)
      refine (get?_replaceScanned r found p).trans ?_
      rw [hn, if_neg fun h => hr (.inr ⟨trivial, hf, h.1⟩)]
      rfl
  | fail f => rfl

theorem apply_nodup (h : (Table.names r.packages).Nodup) :
    (Table.names (r.apply c).1.packages).Nodup := by
  cases c with
  | replace q files => exact Table.set_nodup _ _ h
  | invalidate q =>
      simp only [apply, invalidate]
      split
      · exact Table.erase_nodup q h
      · exact h
  | scan found =>
      simp only [apply, replaceScanned, swap]
      rw [← List.foldl_map (f := fun e : Text × List Record × Log => (e.1, e.2.1))
        (g := fun t e => Table.set t e.1 e.2)]
      exact Table.setAll_nodup _ (Table.filter_nodup _ h)
  | fail f => exact h

/-- The snapshot is that of the records of the stored packages. -/
def Consistent (r : Registry) : Prop :=
  r.snapshot = (Snapshot.ofRecords (r.packages.flatMap (·.2))).1

theorem consistent_empty : Registry.empty.Consistent := by
  have hs : Snapshot.sortRecords [] = [] := List.mergeSort_nil
  have hu : Text.sortUnique [] = [] := by
    rw [Text.sortUnique, Text.sort, List.mergeSort_nil]
    rfl
  simp [Consistent, empty, Snapshot.empty, Snapshot.ofRecords, hs, hu]

theorem Consistent.apply (h : r.Consistent) : (r.apply c).1.Consistent := by
  cases c with
  | replace q files => rfl
  | invalidate q =>
      simp only [Registry.apply, invalidate]
      split
      · rfl
      · exact h
  | scan found => rfl
  | fail f => exact h

/-! ### All changes -/

/-- The registry after some changes to a fresh one, the latest change last. -/
def after (cs : List Change) : Registry := (Registry.empty.applyAll cs).1

theorem applyAll_concat (cs : List Change) : ∀ (r : Registry) (c : Change),
    (r.applyAll (cs ++ [c])).1 = ((r.applyAll cs).1.apply c).1 := by
  induction cs with
  | nil => exact fun _ _ => rfl
  | cons d cs ih => exact fun r c => ih (r.apply d).1 c

theorem after_concat (cs : List Change) (c : Change) :
    after (cs ++ [c]) = ((after cs).apply c).1 := applyAll_concat cs .empty c

/-- The last scan has found the package, and it has not been dropped since. -/
def Scanned (cs : List Change) (p : Text) : Prop :=
  Since (Change.Finds p) (fun _ d => ¬ d.IsScan ∧ d ≠ .invalidate p) cs

/-- The package has been given and not been taken away since. -/
def Stored (cs : List Change) (p : Text) : Prop :=
  Since (fun c => (c.files? p).isSome) (fun before d => ¬ d.Removes (Scanned before) p) cs

/-- The files last given for a package. -/
def Latest (cs : List Change) (p : Text) (files : List File) : Prop :=
  Since (fun c => c.files? p = some files) (fun _ d => d.files? p = none) cs

theorem scanned_concat (cs : List Change) :
    Scanned (cs ++ [c]) p ↔ c.Finds p ∨ ((¬ c.IsScan ∧ c ≠ .invalidate p) ∧ Scanned cs p) :=
  since_concat

theorem stored_concat (cs : List Change) : Stored (cs ++ [c]) p ↔
    (c.files? p).isSome ∨ (¬ c.Removes (Scanned cs) p ∧ Stored cs p) :=
  since_concat

theorem latest_concat (cs : List Change) (files : List File) : Latest (cs ++ [c]) p files ↔
    c.files? p = some files ∨ (c.files? p = none ∧ Latest cs p files) :=
  since_concat

theorem mem_scanned_after (cs : List Change) : p ∈ (after cs).scanned ↔ Scanned cs p := by
  induction cs using List.reverseRecOn with
  | nil =>
      constructor
      · intro h
        exact absurd h List.not_mem_nil
      · intro h
        exact absurd h not_since_nil
  | append_singleton cs c ih => rw [after_concat, mem_scanned_apply, scanned_concat, ih]

/-- What is stored for a package are the records of the files last given for it. -/
theorem get?_after (cs : List Change) (records : List Record) :
    Table.get? (after cs).packages p = some records ↔
      Stored cs p ∧ ∃ files, Latest cs p files ∧ records = (indexFiles files).1 := by
  induction cs using List.reverseRecOn with
  | nil =>
      constructor
      · intro h
        cases h
      · rintro ⟨h, _⟩
        exact absurd h not_since_nil
  | append_singleton cs c ih =>
      have hs : (fun q => q ∈ (after cs).scanned) = Scanned cs :=
        funext fun q => propext (mem_scanned_after cs)
      rw [after_concat, stored_concat]
      simp only [latest_concat]
      cases hf : c.files? p with
      | some files =>
          rw [get?_apply_of_files? hf]
          simp [eq_comm]
      | none =>
          by_cases hr : c.Removes (Scanned cs) p
          · rw [get?_apply_of_removes (hs ▸ hr)]
            simp [hr]
          · rw [get?_apply_of_not hf (hs ▸ hr), ih]
            simp [hr]

theorem exists_latest {cs : List Change} (h : Stored cs p) : ∃ files, Latest cs p files := by
  induction cs using List.reverseRecOn with
  | nil => exact absurd h not_since_nil
  | append_singleton cs c ih =>
      simp only [latest_concat]
      cases hf : c.files? p with
      | some files => exact ⟨files, .inl rfl⟩
      | none =>
          rcases (stored_concat cs).mp h with h | ⟨_, h⟩
          · rw [hf] at h
            cases h
          · obtain ⟨files, hfiles⟩ := ih h
            exact ⟨files, .inr ⟨rfl, hfiles⟩⟩

theorem mem_names_after (cs : List Change) :
    p ∈ Table.names (after cs).packages ↔ Stored cs p := by
  rw [← Table.get?_isSome_iff, Option.isSome_iff_exists]
  simp only [get?_after]
  constructor
  · rintro ⟨_, h, _⟩
    exact h
  · intro h
    obtain ⟨files, hfiles⟩ := exists_latest h
    exact ⟨_, h, files, hfiles, rfl⟩

theorem after_nodup (cs : List Change) : (Table.names (after cs).packages).Nodup := by
  induction cs using List.reverseRecOn with
  | nil => exact List.nodup_nil
  | append_singleton cs c ih =>
      rw [after_concat]
      exact apply_nodup ih

theorem after_consistent (cs : List Change) : (after cs).Consistent := by
  induction cs using List.reverseRecOn with
  | nil => exact consistent_empty
  | append_singleton cs c ih =>
      rw [after_concat]
      exact ih.apply

theorem stored_of_scanned {cs : List Change} (h : Scanned cs p) : Stored cs p := by
  induction cs using List.reverseRecOn with
  | nil => exact absurd h not_since_nil
  | append_singleton cs c ih =>
      rw [stored_concat]
      rcases (scanned_concat cs).mp h with hf | ⟨⟨hs, hi⟩, h⟩
      · exact .inl (Change.files?_isSome_of_finds hf)
      · refine .inr ⟨?_, ih h⟩
        rintro (hd | ⟨hd, _⟩)
        · exact hi hd
        · exact hs hd

/-- **The registry after any changes.**  The snapshot is that of all stored records; the packages
marked as scanned are those that the last scan has found and that have not been dropped since, and
they are stored; a package is stored when it has been given and not been taken away since, with the
records of the last indexable file of each path among the files last given for it. -/
theorem holds_history (cs : List Change) :
    (after cs).snapshot = (Snapshot.ofRecords ((after cs).packages.flatMap (·.2))).1 ∧
    (∀ p, p ∈ (after cs).scanned ↔ Scanned cs p) ∧
    (∀ p ∈ (after cs).scanned, p ∈ Table.names (after cs).packages) ∧
    (Table.names (after cs).packages).Nodup ∧
    (∀ p, p ∈ Table.names (after cs).packages ↔ Stored cs p) ∧
    ∀ p records, (p, records) ∈ (after cs).packages → ∃ files, Latest cs p files ∧
      (records.map (·.resourcePath)).Nodup ∧ ∀ s, s ∈ records ↔ LastIndexed files s := by
  refine ⟨after_consistent cs, fun p => mem_scanned_after cs, fun p hp => ?_, after_nodup cs,
    fun p => mem_names_after cs, fun p records h => ?_⟩
  · exact (mem_names_after cs).mpr (stored_of_scanned ((mem_scanned_after cs).mp hp))
  · rw [Table.mem_iff_get? (after_nodup cs), get?_after] at h
    obtain ⟨_, files, hfiles, rfl⟩ := h
    exact ⟨files, hfiles, indexFiles_nodup files, fun s => mem_indexFiles_iff⟩

end Registry
end Scopewright
