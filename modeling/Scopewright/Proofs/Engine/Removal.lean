import Scopewright.Engine.Basic
import Scopewright.Proofs.Registry.Multiplicity

/-! # What a notice of removal leaves

Package notices that are handled one after the other change the registry one by one
(`afterNotices_registry`).  A notice of removal drops what was given *for* the package; a file says
by itself, however, to which package it belongs, and it may be given for another one.  So entries
of the removed package are left exactly when another package still has such a file
(`removed_iff_foreign`). -/

namespace Scopewright

open Disk (Reading)
open Registry (Change File Record LastIndexed)

namespace Disk.Reading

variable {α β : Type}

theorem run_bind (d : Disk) (r : Reading α) (f : α → Reading β) :
    (r >>= f).run d = (f (r.run d)).run d := by
  show (r.andThen f).run d = _
  induction r with
  | done a => rfl
  | ask q next ih =>
      rw [andThen, run, run]
      exact ih (d.answer q)

end Disk.Reading

namespace Package.Event

variable (e : Package.Event) (d : Disk)

/-- The files that a notice gives for its package: those that come with it, then those that it names
and that can be read. -/
def filesOn : List File :=
  e.supplied ++ ((Package.readFiles e.packageId e.packagePath e.named).run d).files

/-- The change that a notice makes. -/
def changeOn : Change :=
  if e.kind = .removed then .invalidate e.packageId else .replace e.packageId (e.filesOn d)

theorem change_run_readEvent : ((Engine.readEvent e).run d).change = e.changeOn d := by
  unfold Engine.readEvent changeOn
  split
  · rfl
  · rw [Reading.run_bind]
    rfl

end Package.Event

namespace Registry

/-- The packages that the entries name are those that the records name. -/
theorem exists_entry_of_package (cs : List Change) (p : Text) :
    (∃ e ∈ (after cs).snapshot.entries, e.packageId = p) ↔
      ∃ q ∈ (after cs).packages, ∃ r ∈ q.2, r.packageId = p ∧ r.ownScopes ≠ [] := by
  rw [after_consistent cs]
  simp only [(entries_perm _).mem_iff, List.mem_flatMap, (sortRecords_perm _).mem_iff]
  constructor
  · rintro ⟨e, ⟨r, ⟨q, hq, hr⟩, he⟩, rfl⟩
    obtain ⟨name, hname, rfl⟩ := List.mem_map.mp he
    exact ⟨q, hq, r, hr, rfl, List.ne_nil_of_mem hname⟩
  · rintro ⟨q, hq, r, hr, rfl, hscopes⟩
    obtain ⟨name, hname⟩ := List.exists_mem_of_ne_nil _ hscopes
    exact ⟨_, ⟨r, ⟨q, hq, hr⟩, List.mem_map.mpr ⟨name, hname, rfl⟩⟩, rfl⟩

end Registry

namespace Engine

/-- A package notice and the disk that its files are read from. -/
abbrev Notice := Package.Event × Disk

/-- The engine after a notice. -/
def handle (e : Engine) (n : Notice) : Engine := ((e.submit (.package n.1)).settle n.2).1

/-- A new engine after notices that are handled one after the other, the latest last. -/
def afterNotices (s : Settings) (ns : List Notice) : Engine := ns.foldl handle (start s)

/-- The change that a notice makes. -/
def Notice.change (n : Notice) : Change := n.1.changeOn n.2

theorem handle_of_idle {e : Engine} (h : e.queue = []) (n : Notice) :
    e.handle n = { e with registry := (e.registry.apply n.change).1 } := by
  obtain ⟨registry, settings, queue⟩ := e
  obtain rfl : queue = [] := h
  rw [Notice.change, ← Package.Event.change_run_readEvent]
  rfl

/-- Notices make their changes one after the other, and leave nothing to do. -/
theorem afterNotices_registry (s : Settings) (ns : List Notice) :
    (afterNotices s ns).registry = Registry.after (ns.map Notice.change) ∧
      (afterNotices s ns).queue = [] := by
  induction ns using List.reverseRecOn with
  | nil => exact ⟨rfl, rfl⟩
  | append_singleton ns n ih =>
      obtain ⟨hregistry, hqueue⟩ := ih
      have hstep : afterNotices s (ns ++ [n]) = (afterNotices s ns).handle n := by
        rw [afterNotices, List.foldl_append]
        rfl
      rw [hstep, handle_of_idle hqueue, List.map_append, List.map_singleton,
        Registry.after_concat, ← hregistry]
      exact ⟨rfl, hqueue⟩

/-- The last notice about a package has given these files for it. -/
def Given (ns : List Notice) (p : Text) (files : List File) : Prop :=
  Since (fun n => n.1.packageId = p ∧ n.1.kind ≠ .removed ∧ n.1.filesOn n.2 = files)
    (fun _ n => n.1.packageId ≠ p) ns

theorem given_concat {ns : List Notice} {n : Notice} {p : Text} {files : List File} :
    Given (ns ++ [n]) p files ↔
      (n.1.packageId = p ∧ n.1.kind ≠ .removed ∧ n.1.filesOn n.2 = files) ∨
        (n.1.packageId ≠ p ∧ Given ns p files) :=
  since_concat

/-- What a notice does to what is stored for a package. -/
theorem get?_apply_change (r : Registry) (n : Notice) (p : Text) :
    Table.get? (r.apply n.change).1.packages p =
      if n.1.packageId = p then
        if n.1.kind = .removed then none else some (Registry.indexFiles (n.1.filesOn n.2)).1
      else Table.get? r.packages p := by
  unfold Notice.change Package.Event.changeOn
  by_cases hp : n.1.packageId = p
  · rw [if_pos hp]
    by_cases hk : n.1.kind = .removed
    · rw [if_pos hk, if_pos hk, hp]
      exact Registry.get?_apply_of_removes (.inl rfl)
    · rw [if_neg hk, if_neg hk, hp]
      exact Registry.get?_apply_of_files? (if_pos rfl)
  · rw [if_neg hp]
    by_cases hk : n.1.kind = .removed
    · rw [if_pos hk]
      refine Registry.get?_apply_of_not rfl ?_
      rintro (h | ⟨h, _⟩)
      · exact hp (Change.invalidate.inj h)
      · exact h
    · rw [if_neg hk]
      refine Registry.get?_apply_of_not (if_neg hp) ?_
      rintro (h | ⟨h, _⟩)
      · cases h
      · exact h

/-- What is stored for a package are the records of the files given for it. -/
theorem get?_afterNotices (s : Settings) (ns : List Notice) (p : Text) (records : List Record) :
    Table.get? (afterNotices s ns).registry.packages p = some records ↔
      ∃ files, Given ns p files ∧ records = (Registry.indexFiles files).1 := by
  rw [(afterNotices_registry s ns).1]
  induction ns using List.reverseRecOn with
  | nil =>
      constructor
      · intro h
        cases h
      · rintro ⟨files, h, _⟩
        exact absurd h not_since_nil
  | append_singleton ns n ih =>
      rw [List.map_append, List.map_singleton, Registry.after_concat, get?_apply_change]
      simp only [given_concat]
      by_cases hp : n.1.packageId = p
      · by_cases hk : n.1.kind = .removed
        · simp [hp, hk]
        · simp [hp, hk, eq_comm]
      · simp [hp, ih]

/-- The notice that a package is removed; it may list files, which do not count. -/
def removal (p : Text) (path : Option Text) (files : List Package.SyntaxFile) (d : Disk) : Notice :=
  (⟨.removed, p, path, files⟩, d)

theorem given_removal {ns : List Notice} {p q : Text} {path : Option Text}
    {listed : List Package.SyntaxFile} {d : Disk} {files : List File} :
    Given (ns ++ [removal p path listed d]) q files ↔ q ≠ p ∧ Given ns q files := by
  rw [given_concat]
  simp [removal, eq_comm]

/-- **What a removal leaves.**  After a notice that a package is removed nothing is stored for it,
and no entry names it exactly when no other package has been given, in the last notice about it, a
file with scopes that names the removed package. -/
theorem removed_iff_foreign (s : Settings) (ns : List Notice) (p : Text) (path : Option Text)
    (listed : List Package.SyntaxFile) (d : Disk) :
    Table.get? (afterNotices s (ns ++ [removal p path listed d])).registry.packages p = none ∧
    ((∀ e ∈ (afterNotices s (ns ++ [removal p path listed d])).registry.snapshot.entries,
        e.packageId ≠ p) ↔
      ∀ q files, q ≠ p → Given ns q files →
        ∀ r, LastIndexed files r → r.packageId = p → r.ownScopes = []) := by
  have hget := get?_afterNotices s (ns ++ [removal p path listed d])
  have hregistry := (afterNotices_registry s (ns ++ [removal p path listed d])).1
  constructor
  · rw [Option.eq_none_iff_forall_ne_some]
    intro records hrecords
    obtain ⟨files, hfiles, _⟩ := (hget p records).mp hrecords
    exact (given_removal.mp hfiles).1 rfl
  · have hentries := Registry.exists_entry_of_package
      ((ns ++ [removal p path listed d]).map Notice.change) p
    rw [← hregistry] at hentries
    have hnodup := Registry.after_nodup ((ns ++ [removal p path listed d]).map Notice.change)
    rw [← hregistry] at hnodup
    constructor
    · intro hnone q files hq hfiles r hr hrp
      by_contra hscopes
      have hstored := (hget q _).mpr ⟨files, given_removal.mpr ⟨hq, hfiles⟩, rfl⟩
      obtain ⟨e, he, hep⟩ := hentries.mpr ⟨(q, _), (Table.mem_iff_get? hnodup).mpr hstored, r,
        Registry.mem_indexFiles_iff.mpr hr, hrp, hscopes⟩
      exact hnone e he hep
    · intro hforeign e he hep
      obtain ⟨⟨q, records⟩, hq, r, hr, hrp, hscopes⟩ := hentries.mp ⟨e, he, hep⟩
      obtain ⟨files, hfiles, rfl⟩ := (hget q records).mp ((Table.mem_iff_get? hnodup).mp hq)
      obtain ⟨hne, hgiven⟩ := given_removal.mp hfiles
      exact hscopes (hforeign q files hne hgiven r (Registry.mem_indexFiles_iff.mp hr) hrp)

/-- A notice about one package with a file that names another one. -/
def foreignNotice : Payload :=
  .object [("kind", .string "added"), ("packageId", .string "A"), ("syntaxFiles", .array [.object
    [("resourcePath", .string "Packages/B/B.sublime-syntax"), ("packageId", .string "B"),
      ("text", .string "scope: b")]])]

/-- A notice that a package is removed. -/
def removalNotice : Payload :=
  .object [("kind", .string "removed"), ("packageId", .string "B")]

/-- After the removal of a package an entry names it, since another package has brought its file. -/
theorem removed_foreign_stays :
    ∃ added, Package.Event.ofPayload? foreignNotice = some added ∧
      Package.Event.ofPayload? removalNotice = some (removal "B" none [] .empty).1 ∧
      ∃ e ∈ (afterNotices .initial
        [(added, .empty), removal "B" none [] .empty]).registry.snapshot.entries,
        e.packageId = Text.ofString "B" := by
  refine ⟨⟨.added, "A", none, [.supplied ⟨"Packages/B/B.sublime-syntax", "B", "scope: b"⟩]⟩, ?_⟩
  decide +kernel

end Engine
end Scopewright
