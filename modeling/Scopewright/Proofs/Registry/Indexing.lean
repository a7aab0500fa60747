import Mathlib.Data.List.Induction
import Scopewright.Proofs.Table
import Scopewright.Registry.Basic

/-! # Indexing a list of files

A history is the list of what happened, the latest last.  `Since p q` says of a history that at some
time `p` happened and that each thing that happened later was `q`, which may look at all
that came before it.  The law `since_concat` tells what one more event changes.

The records that a package gets for a list of files (`Registry.indexFiles`) are those of the last
indexable files: a file contributes its record unless a later file with its path can be indexed as
well (`mem_indexFiles_iff`), and no path comes twice (`indexFiles_nodup`). -/

namespace Scopewright

/-! ### What has happened since -/

section since

variable {α : Type}

/-- At some time `p` happened, and all that happened later was `q` after what came before it. -/
def Since (p : α → Prop) (q : List α → α → Prop) (l : List α) : Prop :=
  ∃ before c after, l = before ++ c :: after ∧ p c ∧
    ∀ mid d rest, after = mid ++ d :: rest → q (before ++ c :: mid) d

theorem concat_eq_append_cons_iff {l before after : List α} {c d : α} :
    l ++ [c] = before ++ d :: after ↔
      (l = before ∧ c = d ∧ after = []) ∨
        ∃ rest, after = rest ++ [c] ∧ l = before ++ d :: rest := by
  induction after using List.reverseRecOn with
  | nil =>
      constructor
      · intro h
        obtain ⟨h₁, h₂⟩ := List.append_inj' h rfl
        exact .inl ⟨h₁, List.singleton_inj.mp h₂, rfl⟩
      · rintro (⟨rfl, rfl, _⟩ | ⟨rest, h, _⟩)
        · rfl
        · exact absurd h.symm (List.append_ne_nil_of_right_ne_nil _ (List.cons_ne_nil _ _))
  | append_singleton after e _ =>
      constructor
      · intro h
        rw [← List.cons_append, ← List.append_assoc] at h
        obtain ⟨h₁, h₂⟩ := List.append_inj' h rfl
        exact .inr ⟨after, by rw [List.singleton_inj.mp h₂], h₁⟩
      · rintro (⟨_, _, h⟩ | ⟨rest, h, rfl⟩)
        · exact absurd h (List.append_ne_nil_of_right_ne_nil _ (List.cons_ne_nil _ _))
        · rw [h, List.append_assoc, List.cons_append]

variable {p : α → Prop} {q : List α → α → Prop} {l : List α} {c : α}

theorem not_since_nil : ¬ Since p q [] := by
  rintro ⟨before, c, after, h, _⟩
  exact absurd h.symm (List.append_ne_nil_of_right_ne_nil _ (List.cons_ne_nil _ _))

theorem since_concat : Since p q (l ++ [c]) ↔ p c ∨ (q l c ∧ Since p q l) := by
  constructor
  · rintro ⟨before, d, after, h, hp, hq⟩
    rcases concat_eq_append_cons_iff.mp h with ⟨_, rfl, _⟩ | ⟨rest, rfl, rfl⟩
    · exact .inl hp
    · refine .inr ⟨hq rest c [] rfl, before, d, rest, rfl, hp, fun mid e tail he => ?_⟩
      exact hq mid e (tail ++ [c]) (by rw [he, List.append_assoc, List.cons_append])
  · rintro (hp | ⟨hq, before, d, after, rfl, hp, h⟩)
    · exact ⟨l, c, [], rfl, hp, fun mid e rest he =>
        absurd he.symm (List.append_ne_nil_of_right_ne_nil _ (List.cons_ne_nil _ _))⟩
    · refine ⟨before, d, after ++ [c], by rw [List.append_assoc, List.cons_append], hp, ?_⟩
      intro mid e rest he
      rcases concat_eq_append_cons_iff.mp he with ⟨rfl, rfl, _⟩ | ⟨tail, _, htail⟩
      · exact hq
      · exact h mid e tail htail

end since

namespace Registry

/-- A file that can be indexed holds a mapping, and its name tells which kind of record it gives. -/
theorem ofFile_cases {f : File} {r : Record} (h : Record.ofFile f = .ok r) :
    ∃ root : Document.Node, root.isObject = true ∧
      ((Dialect.ofFileName? f.resourcePath = some .sublimeSyntax ∧ r = definitionRecord f root) ∨
        (Dialect.ofFileName? f.resourcePath = some .tmLanguage ∧ r = grammarRecord f root)) := by
  unfold Record.ofFile at h
  simp only at h
  split at h
  · rename_i hname
    split at h
    · cases h
    · rename_i root _ _
      split at h
      · rename_i hroot
        exact ⟨root, hroot, .inl ⟨hname, (Except.ok.inj h).symm⟩⟩
      · cases h
    · cases h
  · rename_i hname
    split at h
    · cases h
    · rename_i root _ _
      split at h
      · rename_i hroot
        exact ⟨root, hroot, .inr ⟨hname, (Except.ok.inj h).symm⟩⟩
      · cases h
    · cases h
  · cases h

/-- A record has the path of its file. -/
theorem resourcePath_ofFile {f : File} {r : Record} (h : Record.ofFile f = .ok r) :
    r.resourcePath = f.resourcePath := by
  obtain ⟨_, _, ⟨_, rfl⟩ | ⟨_, rfl⟩⟩ := ofFile_cases h
  · rfl
  · rfl

/-- The record is that of the last file with its path that can be indexed. -/
def LastIndexed (files : List File) (r : Record) : Prop :=
  Since (fun f => Record.ofFile f = .ok r)
    (fun _ f => f.resourcePath = r.resourcePath → ∀ s, Record.ofFile f ≠ .ok s) files

/-- The records of some files by path, in the order of the files. -/
def keyed (files : List File) : List (Text × Record) :=
  ((files.map Record.ofFile).filterMap Except.toOption).map fun r => (r.resourcePath, r)

theorem keyed_concat (files : List File) (f : File) : keyed (files ++ [f]) =
    keyed files ++ (Record.ofFile f).toOption.toList.map fun r => (r.resourcePath, r) := by
  simp only [keyed, List.map_append, List.filterMap_append, List.map_cons, List.map_nil,
    List.filterMap_cons, List.filterMap_nil]
  cases (Record.ofFile f).toOption with
  | none => rfl
  | some r => rfl

theorem get?_keyed_reverse_iff (r : Record) (files : List File) :
    Table.get? (keyed files).reverse r.resourcePath = some r ↔ LastIndexed files r := by
  induction files using List.reverseRecOn with
  | nil =>
      constructor
      · intro h
        cases h
      · intro h
        exact absurd h not_since_nil
  | append_singleton files f ih =>
      rw [LastIndexed, since_concat, ← LastIndexed, ← ih, keyed_concat, List.reverse_append]
      cases hf : Record.ofFile f with
      | error e =>
          simp only [Except.toOption, Option.toList_none, List.map_nil, List.reverse_nil,
            List.nil_append, reduceCtorEq, ne_eq, not_false_eq_true, implies_true, true_and,
            false_or]
      | ok s =>
          have hs := resourcePath_ofFile hf
          simp only [Except.toOption, Option.toList_some, List.map_cons, List.map_nil,
            List.reverse_singleton, List.singleton_append, Table.get?_cons, Except.ok.injEq]
          by_cases hp : r.resourcePath = s.resourcePath
          · rw [if_pos hp, Option.some.injEq]
            constructor
            · exact .inl
            · rintro (h | ⟨h, _⟩)
              · exact h
              · exact absurd rfl (h (hs.symm.trans hp.symm) s)
          · rw [if_neg hp]
            have hne : s ≠ r := fun h => hp (by rw [h])
            have hpath : f.resourcePath ≠ r.resourcePath := fun h => hp (h.symm.trans hs.symm)
            simp only [hne, hpath, false_or, false_imp_iff, true_and]

theorem indexFiles_eq (files : List File) :
    (indexFiles files).1 = (Table.setAll [] (keyed files)).map (·.2) := rfl

theorem fst_of_mem_setAll_keyed {files : List File} {e : Text × Record}
    (h : e ∈ Table.setAll [] (keyed files)) : e.1 = e.2.resourcePath := by
  rcases Table.mem_of_mem_setAll _ h with h | h
  · obtain ⟨r, _, rfl⟩ := List.mem_map.mp h
    rfl
  · exact absurd h List.not_mem_nil

theorem setAll_keyed_nodup (files : List File) :
    (Table.names (Table.setAll [] (keyed files))).Nodup :=
  Table.setAll_nodup _ List.nodup_nil

theorem indexFiles_nodup (files : List File) :
    ((indexFiles files).1.map (·.resourcePath)).Nodup := by
  have h : (indexFiles files).1.map (·.resourcePath)
      = Table.names (Table.setAll [] (keyed files)) := by
    rw [indexFiles_eq, List.map_map, Table.names]
    exact List.map_congr_left fun e he => (fst_of_mem_setAll_keyed he).symm
  rw [h]
  exact setAll_keyed_nodup files

theorem mem_indexFiles_iff {files : List File} {r : Record} :
    r ∈ (indexFiles files).1 ↔ LastIndexed files r := by
  have hentry : r ∈ (indexFiles files).1 ↔
      (r.resourcePath, r) ∈ Table.setAll [] (keyed files) := by
    rw [indexFiles_eq, List.mem_map]
    constructor
    · rintro ⟨e, he, rfl⟩
      rw [← fst_of_mem_setAll_keyed he]
      exact he
    · intro h
      exact ⟨_, h, rfl⟩
  rw [hentry, Table.mem_iff_get? (setAll_keyed_nodup files), Table.get?_setAll,
    ← get?_keyed_reverse_iff]
  simp [Table.get?]

end Registry
end Scopewright
