import Scopewright.Proofs.Registry.Multiplicity
import Scopewright.Proofs.Sort

/-! # Sorted entries

The entries of some records in order (`sortedEntries`).  The order compares keys, and records with
different paths (`Distinct`) have no key twice, so two such lists are equal when they are made from
the same records with the same visibility (`sortedEntries_eq_iff`). -/

namespace Scopewright
namespace Registry

theorem Entry.le_eq :
    Entry.le = byKey Entry.name Text.le fun a b => Text.le a.source b.source := rfl

theorem Entry.le_total (a b : Entry) : (a.le b || b.le a) = true := by
  rw [le_eq]
  exact byKey_total (fun x y _ => Text.le_total x y) (fun x y => Text.le_total x.source y.source) a b

theorem Entry.le_trans (a b c : Entry) (hab : a.le b = true) (hbc : b.le c = true) :
    a.le c = true := by
  have hsource (x y z : Entry) (hxy : Text.le x.source y.source) (hyz : Text.le y.source z.source) :
      Text.le x.source z.source := Text.le_trans hxy hyz
  rw [le_eq] at *
  exact byKey_trans (fun _ _ => Text.le_antisymm) (fun _ _ _ => Text.le_trans) hsource a b c hab hbc

theorem Entry.key_eq_of_le {a b : Entry} (hab : a.le b = true) (hba : b.le a = true) :
    a.key = b.key := by
  unfold Entry.le at hab hba
  by_cases h : a.name = b.name
  · rw [if_pos h] at hab
    rw [if_pos h.symm] at hba
    exact Prod.ext h (Text.le_antisymm hab hba)
  · rw [if_neg h] at hab
    rw [if_neg (Ne.symm h)] at hba
    exact absurd (Text.le_antisymm hab hba) h

/-- The entries of some records in order. -/
def sortedEntries (rs : List Record) (internal : Record → Bool) : List Entry :=
  (rs.flatMap fun r => r.entries (internal r)).mergeSort Entry.le

theorem mem_sortedEntries_iff {rs : List Record} {internal : Record → Bool} {e : Entry} :
    e ∈ sortedEntries rs internal ↔ ∃ r ∈ rs, e.name ∈ r.ownScopes ∧
      e.source = r.resourcePath ∧ e.packageId = r.packageId ∧ e.internal = internal r := by
  simp only [sortedEntries, List.mem_mergeSort, List.mem_flatMap, Record.entries, List.mem_map]
  refine exists_congr fun r => and_congr_right fun _ => ⟨?_, ?_⟩
  · rintro ⟨name, hname, rfl⟩
    exact ⟨hname, rfl, rfl, rfl⟩
  · rintro ⟨hname, hsource, hpackage, hinternal⟩
    exact ⟨e.name, hname, by rw [← hsource, ← hpackage, ← hinternal]⟩

theorem sortedEntries_pairwise (rs : List Record) (internal : Record → Bool) :
    (sortedEntries rs internal).Pairwise (Entry.le · ·) :=
  List.pairwise_mergeSort Entry.le_trans Entry.le_total _

/-- Records with different paths and no repeated scopes. -/
structure Distinct (rs : List Record) : Prop where
  paths : (rs.map (·.resourcePath)).Nodup
  scopes : ∀ r ∈ rs, r.ownScopes.Nodup

theorem Distinct.keys_nodup {rs : List Record} (h : Distinct rs) (internal : Record → Bool) :
    ((sortedEntries rs internal).map Entry.key).Nodup := by
  refine (((List.mergeSort_perm _ _).map _).nodup_iff).mpr ?_
  refine List.nodup_iff_count_le_one.mpr fun k => ?_
  rw [count_flatMap_entries h.scopes, countP_declares h.paths]
  split
  · exact Nat.le_refl 1
  · exact Nat.zero_le 1

theorem Distinct.inj {rs : List Record} (h : Distinct rs) {a b : Record} (ha : a ∈ rs)
    (hb : b ∈ rs) (he : a.resourcePath = b.resourcePath) : a = b :=
  List.inj_on_of_nodup_map h.paths ha hb he

theorem Distinct.of_subset {rs qs : List Record} (h : Distinct rs) (hsub : qs ⊆ rs)
    (hqs : qs.Nodup) : Distinct qs where
  paths := hqs.map_on fun _ ha _ hb he => h.inj (hsub ha) (hsub hb) he
  scopes r hr := h.scopes r (hsub hr)

section equality

variable {rs ps qs : List Record} {f g : Record → Bool}

theorem mem_of_sortedEntries_eq (h : Distinct rs) (hps : ps ⊆ rs) (hqs : qs ⊆ rs)
    (he : sortedEntries ps f = sortedEntries qs g) {s : Record} (hs : s ∈ ps)
    (hscopes : s.ownScopes ≠ []) : s ∈ qs ∧ f s = g s := by
  obtain ⟨name, hname⟩ := List.exists_mem_of_ne_nil _ hscopes
  have hmem : ⟨name, s.resourcePath, s.packageId, f s⟩ ∈ sortedEntries qs g :=
    he ▸ mem_sortedEntries_iff.mpr ⟨s, hs, hname, rfl, rfl, rfl⟩
  obtain ⟨t, ht, _, hpath, _, hflag⟩ := mem_sortedEntries_iff.mp hmem
  obtain rfl := h.inj (hps hs) (hqs ht) hpath
  exact ⟨ht, hflag⟩

/-- Sorted entries tell the records that they are made from, but for those without scopes. -/
theorem sortedEntries_eq_iff (h : Distinct rs) (hps : ps ⊆ rs) (hqs : qs ⊆ rs) (hp : ps.Nodup)
    (hq : qs.Nodup) : sortedEntries ps f = sortedEntries qs g ↔
      ∀ s ∈ rs, s.ownScopes ≠ [] → (s ∈ ps ↔ s ∈ qs) ∧ (s ∈ ps → f s = g s) := by
  constructor
  · intro he s _ hscopes
    have hleft := fun hs : s ∈ ps => mem_of_sortedEntries_eq h hps hqs he hs hscopes
    have hright := fun hs : s ∈ qs => mem_of_sortedEntries_eq h hqs hps he.symm hs hscopes
    exact ⟨⟨fun hs => (hleft hs).1, fun hs => (hright hs).1⟩, fun hs => (hleft hs).2⟩
  · intro hsame
    have hmem : ∀ e, e ∈ sortedEntries ps f ↔ e ∈ sortedEntries qs g := by
      intro e
      rw [mem_sortedEntries_iff, mem_sortedEntries_iff]
      constructor
      · rintro ⟨s, hs, hname, hsource, hpackage, hflag⟩
        obtain ⟨hiff, hflags⟩ := hsame s (hps hs) (List.ne_nil_of_mem hname)
        exact ⟨s, hiff.mp hs, hname, hsource, hpackage, hflag.trans (hflags hs)⟩
      · rintro ⟨s, hs, hname, hsource, hpackage, hflag⟩
        obtain ⟨hiff, hflags⟩ := hsame s (hqs hs) (List.ne_nil_of_mem hname)
        exact ⟨s, hiff.mpr hs, hname, hsource, hpackage,
          hflag.trans (hflags (hiff.mpr hs)).symm⟩
    have hkeys := (h.of_subset hps hp).keys_nodup f
    have hperm : (sortedEntries ps f).Perm (sortedEntries qs g) :=
      (List.perm_ext_iff_of_nodup hkeys.of_map ((h.of_subset hqs hq).keys_nodup g).of_map).mpr hmem
    -- entries with one key are one entry, as no key comes twice
    refine hperm.eq_of_pairwise (fun a b ha hb hab hba => ?_) (sortedEntries_pairwise ps f)
      (sortedEntries_pairwise qs g)
    exact List.inj_on_of_nodup_map hkeys ha ((hmem b).mpr hb) (Entry.key_eq_of_le hab hba)

end equality

end Registry
end Scopewright
