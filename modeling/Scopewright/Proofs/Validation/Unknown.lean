import Scopewright.Proofs.Selector
import Scopewright.Proofs.Validation.Checks

/-! # When a scope is called unknown

The selectors of a document (`Validation.selectors`) are the texts in which scopes are looked up.
A registry accepts a selector when it knows each of its names (`Validation.Accepts`), and a document
has an unknown scope exactly when one of its selectors is not accepted (`exists_unknownScope_iff`). -/

namespace Scopewright
namespace Validation

open Document (Node)
open Schema (Position)

/-- Each name of a selector is known. -/
def Accepts (r : Registry) (selector : Text) : Prop :=
  ∀ name ∈ Selector.names selector, Scope.isKnown r name = true

/-- The texts below and at a node where the schema has selectors. -/
def nodeSelectors (root : Node) (schema : Position) : List Text :=
  (visited root schema).filterMap fun (n, p) => if p.kind = .scopeSelector then n.text? else none

/-- The selectors of the assertions in a syntax test. -/
def assertionSelectors (t : Text) : List Text :=
  (SyntaxTest.header? t).toList.flatMap fun h =>
    (lineStarts 0 t).filterMap fun lineStart => (assertion? t h lineStart).map (·.1)

/-- The selectors of a document. -/
def selectors (t : Text) (d : Dialect) : List Text :=
  if d = .syntaxTest then assertionSelectors t
  else (Document.read t d.format).root.toList.flatMap fun root =>
    nodeSelectors root (Schema.root d)

theorem map_fst_locate (t : Text) (fallback : Span) (start : ℕ) (names : List Text) :
    (locate t fallback start names).map (·.1) = names := by
  induction names generalizing start with
  | nil => rfl
  | cons name names ih =>
      rw [locate]
      split
      · rw [List.map_cons, ih]
      · rw [List.map_cons, ih]

section findings

variable {t : Text} {r : Registry}

theorem exists_atomFindings_iff {selector : Text} {start : ℕ} {fallback : Span} :
    (∃ f, f ∈ atomFindings t selector start fallback r) ↔ ¬ Accepts r selector := by
  have hlocated : (locate t fallback start ((Selector.atoms selector).map Selector.Atom.name)).map
      (·.1) = Selector.names selector := map_fst_locate _ _ _ _
  simp only [atomFindings, Accepts, ← hlocated, List.mem_map, List.mem_filter, not_forall,
    exists_prop, Bool.not_eq_true', Bool.not_eq_true]
  constructor
  · rintro ⟨_, a, ⟨ha, hunknown⟩, rfl⟩
    exact ⟨a.1, ⟨a, ha, rfl⟩, hunknown⟩
  · rintro ⟨_, ⟨a, ha, rfl⟩, hunknown⟩
    exact ⟨_, a, ⟨ha, hunknown⟩, rfl⟩

theorem exists_selectorFindings_iff {root : Node} {schema : Position} :
    (∃ f, f ∈ selectorFindings t root schema r) ↔
      r.isEmpty = false ∧ ∃ selector ∈ nodeSelectors root schema, ¬ Accepts r selector := by
  unfold selectorFindings nodeSelectors
  cases r.isEmpty with
  | true => simp
  | false =>
      simp only [Bool.false_eq_true, if_false, List.mem_flatMap, List.mem_filterMap, true_and]
      constructor
      · rintro ⟨f, ⟨n, p⟩, hn, hf⟩
        simp only at hf
        split at hf
        · rename_i selector hselector
          split at hf
          · rename_i hkind
            exact ⟨selector, ⟨(n, p), hn, by rw [if_pos hkind, hselector]⟩,
              exists_atomFindings_iff.mp ⟨f, hf⟩⟩
          · cases hf
        · cases hf
      · rintro ⟨selector, ⟨⟨n, p⟩, hn, hselector⟩, hunknown⟩
        obtain ⟨hkind, hselector⟩ := Option.ite_none_right_eq_some.mp hselector
        obtain ⟨f, hf⟩ := exists_atomFindings_iff.mpr hunknown
        exact ⟨f, (n, p), hn, by simpa only [hselector, if_pos hkind] using hf⟩

theorem exists_assertionFindings_iff :
    (∃ f ∈ assertionFindings t r, f.code = .unknownScope) ↔
      r.isEmpty = false ∧ ∃ selector ∈ assertionSelectors t, ¬ Accepts r selector := by
  unfold assertionFindings assertionSelectors
  cases SyntaxTest.header? t with
  | none => simp
  | some h =>
      cases r.isEmpty with
      | true => simp
      | false =>
          simp only [Bool.false_eq_true, if_false, List.mem_append, List.mem_flatMap,
            Option.toList_some, List.flatMap_singleton, List.mem_filterMap, true_and]
          constructor
          · rintro ⟨f, hf | ⟨i, hi, hf⟩, hcode⟩
            · rw [code_headerFindings hf] at hcode
              cases hcode
            · unfold assertionLineFindings at hf
              split at hf
              · rename_i selector _ _ hline
                exact ⟨selector, ⟨i, hi, by rw [hline]; rfl⟩, exists_atomFindings_iff.mp ⟨f, hf⟩⟩
              · cases hf
          · rintro ⟨selector, ⟨i, hi, hline⟩, hunknown⟩
            obtain ⟨⟨_, offset, fallback⟩, hassertion, rfl⟩ := Option.map_eq_some_iff.mp hline
            obtain ⟨f, hf⟩ := exists_atomFindings_iff.mpr hunknown
            have hmem : f ∈ assertionLineFindings t h r i := by
              rw [assertionLineFindings, hassertion]
              exact hf
            exact ⟨f, .inr ⟨i, hi, hmem⟩, code_assertionLineFindings hmem⟩

theorem mem_when'_iff {on : Bool} {findings : List Finding} {f : Finding} :
    f ∈ when' on findings ↔ on = true ∧ f ∈ findings := by
  cases on <;> simp [when']

theorem exists_treeFindings_iff {d : Dialect} {checks : Checks} :
    (∃ f ∈ treeFindings t d r checks, f.code = .unknownScope) ↔ checks.unknownScopes = true ∧
      ∃ root ∈ (Document.read t d.format).root,
        ∃ f, f ∈ selectorFindings t root (Schema.root d) r := by
  unfold treeFindings
  constructor
  · rintro ⟨f, hf, hcode⟩
    have hother {c : Code} (hc : f.code = c) (hne : c ≠ .unknownScope) : False :=
      hne (hc.symm.trans hcode)
    rcases List.mem_append.mp hf with hf | hf
    · exact (hother (code_parseFindings hf) nofun).elim
    · split at hf
      · cases hf
      · rename_i root hroot
        simp only [List.mem_append, mem_when'_iff] at hf
        rcases hf with (((hf | ⟨_, hf⟩) | ⟨hon, hf⟩) | ⟨_, hf⟩) | ⟨_, hf⟩
        · exact (hother (code_duplicateFindings hf) nofun).elim
        · exact (hother (code_unknownKeyFindings hf) nofun).elim
        · exact ⟨hon, root, hroot, f, hf⟩
        · exact (hother (code_valueFindings hf) nofun).elim
        · exact (hother (code_referenceFindings hf) nofun).elim
  · rintro ⟨hon, root, hroot, f, hf⟩
    refine ⟨f, List.mem_append_right _ ?_, code_selectorFindings hf⟩
    rw [Option.mem_def.mp hroot]
    simp only [List.mem_append, mem_when'_iff]
    exact .inl (.inl (.inr ⟨hon, hf⟩))

/-- A document has an unknown scope when one of its selectors is not accepted. -/
theorem exists_unknownScope_iff {d : Dialect} {checks : Checks} :
    (∃ f ∈ validate t d r checks, f.code = .unknownScope) ↔ checks.unknownScopes = true ∧
      r.isEmpty = false ∧ ∃ selector ∈ selectors t d, ¬ Accepts r selector := by
  by_cases hd : d = .syntaxTest
  · subst hd
    simp only [validate, if_true, selectors, List.mem_mergeSort, when']
    cases checks.unknownScopes with
    | true => simp only [if_true, true_and, exists_assertionFindings_iff]
    | false => simp
  · simp only [validate, if_neg hd, selectors, List.mem_mergeSort, exists_treeFindings_iff,
      exists_selectorFindings_iff, List.mem_flatMap, Option.mem_toList]
    constructor
    · rintro ⟨hon, root, hroot, hr, selector, hselector, hunknown⟩
      exact ⟨hon, hr, selector, ⟨root, hroot, hselector⟩, hunknown⟩
    · rintro ⟨hon, hr, selector, ⟨root, hroot, hselector⟩, hunknown⟩
      exact ⟨hon, root, hroot, hr, selector, hselector, hunknown⟩

end findings

end Validation
end Scopewright
