import Scopewright.Proofs.Registry.History
import Scopewright.Proofs.Sort
import Scopewright.Validation.Validate

/-! # What turning a check off leaves out

Each check gives findings of one code, but that of syntax tests, which also tells of an unknown
syntax under test.  In all other documents a check that is turned off takes away exactly the findings
of its code, and sorting does not depend on when they are taken away (`validate_eq_select`).
In a syntax test the check of scopes brings and takes both codes (`validate_syntaxTest`), so the codes
are turned off as elsewhere exactly when the syntax under test is known or both checks are on or both
off (`validate_syntaxTest_eq_select_iff`). -/

namespace Scopewright
namespace Validation

open Document (Node)
open Schema (Position)

/-- The findings of a code are wanted. -/
def Checks.wants (checks : Checks) : Code → Bool
  | .unknownKey => checks.unknownKeys
  | .unknownScope => checks.unknownScopes
  | .invalidValue => checks.invalidValues
  | .parseError | .duplicateKey => true

/-- The findings that are wanted, in their order. -/
def Checks.select (checks : Checks) (findings : List Finding) : List Finding :=
  findings.filter fun f => checks.wants f.code

/-! ### The codes of each check -/

section codes

variable {t : Text} {root : Node} {schema : Position} {r : Registry} {f : Finding}

theorem code_parseFindings {problems : List Document.Problem} (h : f ∈ parseFindings problems) :
    f.code = .parseError := by
  obtain ⟨_, _, rfl⟩ := List.mem_map.mp h
  rfl

theorem code_duplicateFindings (h : f ∈ duplicateFindings root schema) :
    f.code = .duplicateKey := by
  obtain ⟨_, _, h⟩ := List.mem_flatMap.mp h
  obtain ⟨_, _, rfl⟩ := List.mem_map.mp h
  rfl

theorem code_unknownKeyFindings (h : f ∈ unknownKeyFindings root schema) :
    f.code = .unknownKey := by
  obtain ⟨⟨n, p⟩, _, h⟩ := List.mem_flatMap.mp h
  simp only at h
  split at h
  · obtain ⟨_, _, rfl⟩ := List.mem_map.mp h
    rfl
  · cases h

theorem code_atomFindings {selector : Text} {start : ℕ} {fallback : Span}
    (h : f ∈ atomFindings t selector start fallback r) : f.code = .unknownScope := by
  obtain ⟨_, _, rfl⟩ := List.mem_map.mp h
  rfl

theorem code_selectorFindings (h : f ∈ selectorFindings t root schema r) :
    f.code = .unknownScope := by
  unfold selectorFindings at h
  split at h
  · cases h
  · obtain ⟨⟨n, p⟩, _, h⟩ := List.mem_flatMap.mp h
    simp only at h
    split at h
    · split at h
      · exact code_atomFindings h
      · cases h
    · cases h

theorem code_valueFindings (h : f ∈ valueFindings root schema) : f.code = .invalidValue := by
  obtain ⟨⟨n, p⟩, _, h⟩ := List.mem_filterMap.mp h
  split at h
  · cases h
  · obtain ⟨_, _, rfl⟩ := Option.map_eq_some_iff.mp h
    rfl
  · cases h

theorem code_referenceFindings (h : f ∈ referenceFindings root schema r) :
    f.code = .invalidValue := by
  unfold referenceFindings at h
  split at h
  · cases h
  · obtain ⟨⟨n, p⟩, _, h⟩ := List.mem_filterMap.mp h
    obtain ⟨path, _, h⟩ := Option.bind_eq_some_iff.mp h
    split at h
    · obtain rfl := Option.some.inj h
      rfl
    · cases h

theorem code_assertionLineFindings {h : SyntaxTest.Header} {start : ℕ}
    (hf : f ∈ assertionLineFindings t h r start) : f.code = .unknownScope := by
  unfold assertionLineFindings at hf
  split at hf
  · exact code_atomFindings hf
  · cases hf

theorem code_headerFindings (h : f ∈ headerFindings t r) : f.code = .invalidValue := by
  unfold headerFindings at h
  split at h
  · split at h
    · cases h
    · obtain rfl := List.mem_singleton.mp h
      rfl
  · cases h

end codes

/-! ### Documents with a structure -/

variable (checks : Checks)

/-- Selecting takes or leaves all findings of one code. -/
theorem select_of_code {findings : List Finding} {c : Code} (h : ∀ f ∈ findings, f.code = c) :
    checks.select findings = when' (checks.wants c) findings := by
  unfold Checks.select when'
  split
  · rename_i hc
    exact List.filter_eq_self.mpr fun f hf => (congrArg checks.wants (h f hf)).trans hc
  · rename_i hc
    exact List.filter_eq_nil_iff.mpr fun f hf hw => hc ((congrArg checks.wants (h f hf)) ▸ hw)

theorem treeFindings_eq_select (t : Text) (d : Dialect) (r : Registry) :
    treeFindings t d r checks = checks.select (treeFindings t d r .all) := by
  have happend (a b : List Finding) :
      checks.select (a ++ b) = checks.select a ++ checks.select b := List.filter_append _ _
  unfold treeFindings
  simp only [happend]
  congr 1
  · exact (select_of_code checks fun _ => code_parseFindings).symm
  · cases (Document.read t d.format).root with
    | none => rfl
    | some root =>
        simp only [happend, Checks.all, when', if_true]
        rw [select_of_code checks fun _ => code_duplicateFindings,
          select_of_code checks fun _ => code_unknownKeyFindings,
          select_of_code checks fun _ => code_selectorFindings,
          select_of_code checks fun _ => code_valueFindings,
          select_of_code checks fun _ => code_referenceFindings]
        rfl

theorem Finding.le_trans (a b c : Finding) (hab : a.le b = true) (hbc : b.le c = true) :
    a.le c = true := by
  simp only [Finding.le, Span.le, Bool.or_eq_true, Bool.and_eq_true, decide_eq_true_eq] at *
  omega

theorem Finding.le_total (a b : Finding) : (a.le b || b.le a) = true := by
  simp only [Finding.le, Span.le, Bool.or_eq_true, Bool.and_eq_true, decide_eq_true_eq]
  omega

theorem select_mergeSort (findings : List Finding) :
    checks.select (findings.mergeSort Finding.le) =
      (checks.select findings).mergeSort Finding.le :=
  filter_mergeSort Finding.le_trans Finding.le_total _ _

theorem validate_eq_select {d : Dialect} (hd : d ≠ .syntaxTest) (t : Text) (r : Registry) :
    validate t d r checks = checks.select (validate t d r .all) := by
  simp only [validate, if_neg hd]
  rw [select_mergeSort, ← treeFindings_eq_select]

/-! ### Syntax tests -/

/-- The text is a syntax test, and of the syntaxes that there are none has the path that it puts
between quotes. -/
def NamesUnknownSyntax (t : Text) (r : Registry) : Prop :=
  (SyntaxTest.header? t).isSome ∧ r.isEmpty = false ∧
    ∃ start path, quotedText? 0 t = some (start, path) ∧ r.snapshot.hasSyntax path = false

theorem exists_headerFindings_iff {t : Text} {r : Registry} : (∃ f, f ∈ headerFindings t r) ↔
    ∃ start path, quotedText? 0 t = some (start, path) ∧ r.snapshot.hasSyntax path = false := by
  unfold headerFindings
  cases quotedText? 0 t with
  | none => simp
  | some q =>
      obtain ⟨start, path⟩ := q
      cases hpath : r.snapshot.hasSyntax path <;> simp [hpath]

/-- A syntax test has no findings but those of scopes and the one of its syntax. -/
theorem code_assertionFindings {t : Text} {r : Registry} {f : Finding}
    (hf : f ∈ assertionFindings t r) :
    f.code = .unknownScope ∨ (f.code = .invalidValue ∧ f ∈ headerFindings t r) := by
  unfold assertionFindings at hf
  split at hf
  · cases hf
  · split at hf
    · cases hf
    · rcases List.mem_append.mp hf with hf | hf
      · exact .inr ⟨code_headerFindings hf, hf⟩
      · obtain ⟨_, _, hf⟩ := List.mem_flatMap.mp hf
        exact .inl (code_assertionLineFindings hf)

theorem exists_invalidValue_iff {t : Text} {r : Registry} :
    (∃ f ∈ assertionFindings t r, f.code = .invalidValue) ↔ NamesUnknownSyntax t r := by
  unfold NamesUnknownSyntax
  rw [← exists_headerFindings_iff]
  constructor
  · rintro ⟨f, hf, hcode⟩
    rcases code_assertionFindings hf with h | ⟨_, hheader⟩
    · rw [hcode] at h
      cases h
    · unfold assertionFindings at hf
      split at hf
      · cases hf
      · rename_i header
        split at hf
        · cases hf
        · rename_i hempty
          exact ⟨by rw [header]; rfl, Bool.eq_false_iff.mpr hempty, f, hheader⟩
  · rintro ⟨hsome, hempty, f, hf⟩
    obtain ⟨header, hheader⟩ := Option.isSome_iff_exists.mp hsome
    refine ⟨f, ?_, code_headerFindings hf⟩
    simp only [assertionFindings, hheader, hempty, Bool.false_eq_true, if_false]
    exact List.mem_append_left _ hf

theorem validate_syntaxTest (t : Text) (r : Registry) : validate t .syntaxTest r checks =
    if checks.unknownScopes then validate t .syntaxTest r .all else [] := by
  simp only [validate, if_true, when', Checks.all]
  split
  · rfl
  · exact List.mergeSort_nil

theorem mem_validate_syntaxTest {t : Text} {r : Registry} {f : Finding} :
    f ∈ validate t .syntaxTest r .all ↔ f ∈ assertionFindings t r := List.mem_mergeSort

theorem validate_syntaxTest_eq_select_iff (t : Text) (r : Registry) :
    validate t .syntaxTest r checks = checks.select (validate t .syntaxTest r .all) ↔
      (NamesUnknownSyntax t r → checks.unknownScopes = checks.invalidValues) := by
  rw [validate_syntaxTest, ← exists_invalidValue_iff]
  have hcode : ∀ f ∈ validate t .syntaxTest r .all,
      f.code = .unknownScope ∨ f.code = .invalidValue := fun f hf =>
    (code_assertionFindings (mem_validate_syntaxTest.mp hf)).imp_right And.left
  cases hon : checks.unknownScopes with
  | true =>
      rw [if_pos rfl, eq_comm, Checks.select, List.filter_eq_self]
      constructor
      · rintro h ⟨f, hf, hinvalid⟩
        have := h f (mem_validate_syntaxTest.mpr hf)
        rw [hinvalid] at this
        exact this.symm
      · intro h f hf
        rcases hcode f hf with hscope | hinvalid
        · rw [hscope]
          exact hon
        · rw [hinvalid]
          exact (h ⟨f, mem_validate_syntaxTest.mp hf, hinvalid⟩).symm
  | false =>
      rw [if_neg Bool.false_ne_true, eq_comm, Checks.select, List.filter_eq_nil_iff]
      constructor
      · rintro h ⟨f, hf, hinvalid⟩
        have := h f (mem_validate_syntaxTest.mpr hf)
        rw [hinvalid] at this
        exact (Bool.eq_false_iff.mpr this).symm
      · intro h f hf
        rcases hcode f hf with hscope | hinvalid
        · rw [hscope]
          exact Bool.eq_false_iff.mp hon
        · rw [hinvalid]
          exact Bool.eq_false_iff.mp (h ⟨f, mem_validate_syntaxTest.mp hf, hinvalid⟩).symm

/-- **Turning checks off.**  The findings under some checks are the findings under all checks without
those of the codes that are turned off, in the same order, but for a syntax test of an unknown syntax
when just one of the checks of scopes and of values is on: in a syntax test the check of scopes alone
decides about all findings. -/
theorem validate_select (t : Text) (d : Dialect) (r : Registry) :
    (validate t d r checks = checks.select (validate t d r .all) ↔
      ¬ (d = .syntaxTest ∧ NamesUnknownSyntax t r ∧
        checks.unknownScopes ≠ checks.invalidValues)) ∧
    validate t .syntaxTest r checks =
      if checks.unknownScopes then validate t .syntaxTest r .all else [] := by
  refine ⟨?_, validate_syntaxTest checks t r⟩
  by_cases hd : d = .syntaxTest
  · subst hd
    rw [validate_syntaxTest_eq_select_iff]
    simp only [true_and, not_and, not_not]
  · simp only [hd, false_and, not_false_eq_true, iff_true]
    exact validate_eq_select checks hd t r

/-- A syntax test of a syntax that there is not. -/
def orphanTest : Text := "# SYNTAX TEST \"s\""

/-- Turning the check of scopes off takes the finding about the unknown syntax away, and turning the
check of values off leaves it. -/
theorem validate_orphanTest :
    let r := Registry.after [.replace "A" [⟨"a.sublime-syntax", "A", "scope: a"⟩]]
    validate orphanTest .syntaxTest r ⟨true, false, true⟩ ≠
        Checks.select ⟨true, false, true⟩ (validate orphanTest .syntaxTest r .all) ∧
      validate orphanTest .syntaxTest r ⟨true, true, false⟩ ≠
        Checks.select ⟨true, true, false⟩ (validate orphanTest .syntaxTest r .all) := by
  decide +kernel

end Validation
end Scopewright
