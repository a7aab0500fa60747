import Scopewright.Completion.Suggestion
import Scopewright.Proofs.Registry.BaseScopes
import Scopewright.Proofs.Selector
import Scopewright.Proofs.Validation.Unknown

/-! # Offered scopes are known

Every scope that is offered in a selector is the name of an entry or one of the conventions, so it is
known (`isKnown_of_offered`).  Validation looks up the names that it reads in a selector.  An
offered scope without combinators that does not begin with a minus sign is its own only name, so it is
accepted alone and between the names of an accepted selector (`offered_accepted`).  Names in a
definition end at white space only, so a scope may be offered that is read as several names
(`offered_comma`). -/

namespace Scopewright
namespace Completion

open Registry (Change after BeginsWith)
open Selector (Fits Plain names)
open Validation (Accepts assertionFindings selectors validate)

/-- A scope is offered for some word in a selector, after some changes of the registry. -/
def Offered (cs : List Change) (label : Text) : Prop :=
  ∃ word start, ∃ s ∈ (suggestScopes word start (after cs)).suggestions, s.label = label

theorem mem_entries_of_mem_query {s : Registry.Snapshot} {word : Text} {includeInternal : Bool}
    {e : Registry.Entry} (h : e ∈ s.query word includeInternal) : e ∈ s.entries :=
  (List.mem_filter.mp ((Registry.query_perm s word includeInternal).mem_iff.mp h)).1

theorem isKnown_of_offered {cs : List Change} {label : Text} (h : Offered cs label) :
    Scope.isKnown (after cs) label = true := by
  obtain ⟨word, start, s, hs, rfl⟩ := h
  rw [Registry.isKnown_after_iff]
  rcases List.mem_append.mp hs with hs | hs
  · obtain ⟨e, he, rfl⟩ := List.mem_map.mp hs
    exact .inr ⟨e, mem_entries_of_mem_query he, .inl rfl⟩
  · obtain ⟨name, hname, rfl⟩ := List.mem_map.mp hs
    exact .inl hname

theorem accepts_of_plain {cs : List Change} {label : Text} (h : Offered cs label)
    (hplain : Selector.Plain label) : Accepts (after cs) label := by
  intro name hname
  rw [Selector.eq_of_mem_names hplain hname]
  exact isKnown_of_offered h

theorem accepts_between {r : Registry} {before behind label : Text} (h : Fits before behind)
    (hbefore : Accepts r before) (hbehind : Accepts r behind) (hlabel : Accepts r label) :
    Accepts r (before ++ label ++ behind) := by
  intro name hname
  rw [Selector.names_between h, List.mem_append, List.mem_append] at hname
  rcases hname with (hname | hname) | hname
  · exact hbefore name hname
  · exact hlabel name hname
  · exact hbehind name hname

/-- **Offered scopes are known.**  After any changes of the registry every scope that is offered in
a selector is known.  One without combinators that does not begin with a minus sign is its own only
name; it is accepted, and put where it fits in an accepted selector it leaves that one
accepted.  Any other one is accepted when each of the names that are read in it is one of the
conventions or begins a name of the registry.  A document in which every name of a selector is
known or offered has no unknown scope. -/
theorem offered_accepted (cs : List Change) :
    (∀ label, Offered cs label →
      Scope.isKnown (after cs) label = true ∧
      (names label = [label] ↔ Plain label ∧ label ≠ []) ∧
      (Plain label → Accepts (after cs) label ∧ ∀ before behind, Fits before behind →
        Accepts (after cs) before → Accepts (after cs) behind →
          Accepts (after cs) (before ++ label ++ behind)) ∧
      (Accepts (after cs) label ↔ ∀ name ∈ names label, name ∈ Scope.conventional ∨
        ∃ e ∈ (after cs).snapshot.entries, BeginsWith e.name name)) ∧
    ∀ t d checks, (∀ selector ∈ selectors t d, ∀ name ∈ names selector,
        Scope.isKnown (after cs) name = true ∨ Offered cs name) →
      ∀ f ∈ validate t d (after cs) checks, f.code ≠ .unknownScope := by
  refine ⟨fun label h => ⟨isKnown_of_offered h, Selector.names_eq_singleton_iff, fun hplain => ?_,
    ?_⟩, fun t d checks hselectors f hf hcode => ?_⟩
  · have hlabel := accepts_of_plain h hplain
    exact ⟨hlabel, fun before behind hfits hbefore hbehind =>
      accepts_between hfits hbefore hbehind hlabel⟩
  · simp only [Accepts, Registry.isKnown_after_iff]
  · obtain ⟨_, _, selector, hselector, hunknown⟩ :=
      Validation.exists_unknownScope_iff.mp ⟨f, hf, hcode⟩
    refine hunknown fun name hname => ?_
    rcases hselectors selector hselector name hname with h | h
    · exact h
    · exact isKnown_of_offered h

/-- A package with one syntax, which declares a scope. -/
def declaring (scope : Text) : List Change :=
  [.replace "A" [⟨"Packages/A/A.sublime-syntax", "A", ("scope: " : Text) ++ scope⟩]]

/-- A syntax test with one assertion. -/
def asserting (selector : Text) : Text :=
  ("# SYNTAX TEST \"Packages/A/A.sublime-syntax\"\nx\n# ^ " : Text) ++ selector

/-- A declared scope is accepted behind one of the conventions, and an assertion of it has no unknown
scope. -/
theorem offered_accepted_source :
    let cs := declaring "source.a-b"
    Offered cs "source.a-b" ∧ Plain "source.a-b" ∧
    Accepts (after cs) (("text " : Text) ++ ("source.a-b" : Text) ++ ("" : Text)) ∧
    ∀ f ∈ validate (asserting "source.a-b") .syntaxTest (after cs) .all,
      f.code ≠ .unknownScope := by
  intro cs
  have hoffered : Offered cs "source.a-b" := ⟨[], 0, by decide +kernel⟩
  have hplain : Plain "source.a-b" := by decide
  have hfits : Fits "text " "" := ⟨by decide, by decide⟩
  have hbefore : Accepts (after cs) "text " := by
    unfold Accepts
    decide +kernel
  have hbehind : Accepts (after cs) "" := List.forall_mem_nil _
  have hnames : ∀ selector ∈ selectors (asserting "source.a-b") .syntaxTest,
      ∀ name ∈ names selector, name = "source.a-b" := by
    decide +kernel
  obtain ⟨hlabels, hdocuments⟩ := offered_accepted cs
  obtain ⟨_, _, haccepted, _⟩ := hlabels "source.a-b" hoffered
  refine ⟨hoffered, hplain, (haccepted hplain).2 _ _ hfits hbefore hbehind,
    hdocuments _ _ _ fun selector h name hname => .inr ?_⟩
  rw [hnames selector h name hname]
  exact hoffered

/-- A comma belongs to a declared name and separates names in a selector, so the declared scope is
offered, and an assertion of it has two unknown scopes. -/
theorem offered_comma :
    let cs := declaring "a,b"
    Offered cs "a,b" ∧ names "a,b" = Text.ofStrings ["a", "b"] ∧
    (∀ a ∈ Selector.atoms "a,b", Scope.isKnown (after cs) a.name = false) ∧
    (assertionFindings (asserting "a,b") (after cs)).map (·.code) =
      [.unknownScope, .unknownScope] := by
  refine ⟨⟨[], 0, ?_⟩, ?_, ?_, ?_⟩ <;> decide +kernel

end Completion
end Scopewright
