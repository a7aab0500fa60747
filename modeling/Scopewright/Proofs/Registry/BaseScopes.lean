import Scopewright.Proofs.Registry.Harvest
import Scopewright.Proofs.Registry.Multiplicity
import Scopewright.Proofs.Text.Find
import Scopewright.Proofs.Text.Split
import Scopewright.Proofs.Text.Words
import Scopewright.Scope

/-! # Known scopes

The beginnings of a name are the name and what stands before one of its points
(`mem_dottedPrefixes_iff`).  So the registry has a scope when it is the name of an entry or stands
before a point of such a name (`hasScope_after_iff`); the conventions are known besides
(`isKnown_after_iff`).

A scope value is split into names (`IsName`), and the base scope of a syntax is the value at its
root as a whole.  A grammar declares its base scope as it stands (`mem_ownScopes_grammar`), a
definition only the names that its values are split into (`isName_of_mem_definition`).  So a
definition declares its base scope when that is a name, and any other one is known only when a
grammar has a base scope that begins with it (`baseScope_known_iff`). -/

namespace Scopewright
namespace Registry

open Document (Key Node)
open Harvest (collect shown definitionRule grammarRule)
open Snapshot (sortRecords)

/-! ### Scopes that the registry has -/

/-- A name begins with a scope: it is the scope, or it goes on behind the scope with a point. -/
def BeginsWith (name scope : Text) : Prop := name = scope ∨ (scope ++ ("." : Text)) <+: name

theorem mem_dottedPrefixes_iff {s n : Text} : s ∈ dottedPrefixes n ↔ BeginsWith n s := by
  simp only [dottedPrefixes, List.mem_map, List.mem_range]
  constructor
  · rintro ⟨i, hi, rfl⟩
    rcases Nat.lt_or_ge (i + 1) (Text.splitOn '.' n).length with hlt | hge
    · have hfront : (Text.splitOn '.' n).take (i + 1) ≠ [] :=
        List.ne_nil_of_length_pos (by rw [List.length_take]; omega)
      have hback : (Text.splitOn '.' n).drop (i + 1) ≠ [] :=
        List.ne_nil_of_length_pos (by rw [List.length_drop]; omega)
      have hn := Text.join_append (c := '.') hfront hback
      rw [List.take_append_drop, Text.join_splitOn] at hn
      exact .inr ⟨_, (List.append_assoc _ _ _).trans hn.symm⟩
    · exact .inl (by rw [List.take_of_length_le hge]; exact (Text.join_splitOn n).symm)
  · have hlast : ∀ t : Text, (Text.splitOn '.' t).length - 1 + 1 = (Text.splitOn '.' t).length :=
      fun t => Nat.succ_pred_eq_of_pos (List.length_pos_iff.mpr (Text.splitOn_ne_nil t))
    rintro (rfl | ⟨t, rfl⟩)
    · have := hlast n
      refine ⟨(Text.splitOn '.' n).length - 1, by omega, ?_⟩
      rw [this, List.take_length]
      exact Text.join_splitOn n
    · have hsplit : Text.splitOn '.' (s ++ ("." : Text) ++ t)
          = Text.splitOn '.' s ++ Text.splitOn '.' t := by
        rw [List.append_assoc]
        exact Text.splitOn_append_cons s t
      have := hlast s
      refine ⟨(Text.splitOn '.' s).length - 1, ?_, ?_⟩
      · rw [hsplit, List.length_append]
        omega
      · rw [hsplit, this, List.take_left]
        exact Text.join_splitOn s

/-- The names of the entries are the scopes that the records declare. -/
theorem exists_entry_iff {records : List Record} {p : Text → Prop} :
    (∃ e ∈ (Snapshot.ofRecords records).1.entries, p e.name) ↔
      ∃ r ∈ sortRecords records, ∃ name ∈ r.ownScopes, p name := by
  simp only [(entries_perm records).mem_iff, List.mem_flatMap, Record.entries, List.mem_map]
  constructor
  · rintro ⟨_, ⟨r, hr, name, hname, rfl⟩, hp⟩
    exact ⟨r, hr, name, hname, hp⟩
  · rintro ⟨r, hr, name, hname, hp⟩
    exact ⟨_, ⟨r, hr, name, hname, rfl⟩, hp⟩

theorem hasScope_iff {records : List Record} {s : Text} :
    (Snapshot.ofRecords records).1.hasScope s = true ↔
      ∃ e ∈ (Snapshot.ofRecords records).1.entries, BeginsWith e.name s := by
  have hknown : (Snapshot.ofRecords records).1.knownScopes = Text.sortUnique
    (((sortRecords records).flatMap Record.ownScopes).flatMap dottedPrefixes) := rfl
  rw [exists_entry_iff (p := fun name => BeginsWith name s), Snapshot.hasScope,
    List.contains_iff_mem, hknown, Text.mem_sortUnique]
  simp only [List.mem_flatMap, mem_dottedPrefixes_iff]
  constructor
  · rintro ⟨name, ⟨r, hr, hname⟩, hs⟩
    exact ⟨r, hr, name, hname, hs⟩
  · rintro ⟨r, hr, name, hname, hs⟩
    exact ⟨name, ⟨r, hr, hname⟩, hs⟩

/-- **Known scopes.**  After any changes the registry has a scope exactly when the scope is the name
of an entry, internal or not, or such a name goes on behind it with a point. -/
theorem hasScope_after_iff (cs : List Change) (s : Text) :
    (after cs).snapshot.hasScope s = true ↔
      ∃ e ∈ (after cs).snapshot.entries, e.name = s ∨ (s ++ ("." : Text)) <+: e.name := by
  rw [after_consistent cs]
  exact hasScope_iff

/-- A scope is known when it is one of the conventions or a name of the registry begins with it. -/
theorem isKnown_after_iff {cs : List Change} {s : Text} : Scope.isKnown (after cs) s = true ↔
    s ∈ Scope.conventional ∨ ∃ e ∈ (after cs).snapshot.entries, BeginsWith e.name s := by
  rw [Scope.isKnown, Bool.or_eq_true, List.contains_iff_mem, after_consistent cs, hasScope_iff]

/-! ### Names in scope values -/

/-- A text that a scope value may be split into. -/
structure IsName (t : Text) : Prop where
  ne_nil : t ≠ []
  notBlank : ∀ c ∈ t, c.isBlank = false
  noDollar : CodeUnit.ofBasic '$' ∉ t
  noBraces : ¬ ("\x7b\x7b" : Text) <:+: t

variable {s t value : Text}

theorem mem_splitScopes_iff : s ∈ splitScopes value ↔
    s ∈ value.words ∧ CodeUnit.ofBasic '$' ∉ s ∧ ¬ ("\x7b\x7b" : Text) <:+: s := by
  rw [splitScopes, List.mem_filter, Bool.not_eq_true', Bool.or_eq_false_iff, Bool.eq_false_iff,
    Bool.eq_false_iff, Ne, Ne, Text.contains_iff, Text.has_iff]

theorem isName_of_mem_splitScopes (h : s ∈ splitScopes value) : IsName s := by
  obtain ⟨hword, hdollar, hbraces⟩ := mem_splitScopes_iff.mp h
  obtain ⟨hne, hblank⟩ := Text.of_mem_words hword
  exact ⟨hne, hblank, hdollar, hbraces⟩

/-- A value that is one name between its ends is split into that name. -/
theorem trim_mem_splitScopes (h : IsName value.trim) : value.trim ∈ splitScopes value := by
  refine mem_splitScopes_iff.mpr ⟨?_, h.noDollar, h.noBraces⟩
  rw [← Text.words_trim, Text.words_of_not_blank h.ne_nil h.notBlank]
  exact List.mem_singleton_self _

theorem IsName.of_prefix (h : IsName t) (hs : s <+: t) (hne : s ≠ []) : IsName s where
  ne_nil := hne
  notBlank c hc := h.notBlank c (hs.subset hc)
  noDollar hc := h.noDollar (hs.subset hc)
  noBraces hi := h.noBraces (hi.trans hs.isInfix)

theorem BeginsWith.isPrefix (h : BeginsWith t s) : s <+: t := by
  rcases h with rfl | h
  · exact List.prefix_rfl
  · exact (List.prefix_append s _).trans h

/-! ### The scopes of a document -/

theorem isName_ofScopes {values : List Text} :
    ∀ s ∈ (Harvest.ofScopes values).scopes, IsName s := by
  intro s hs
  obtain ⟨_, _, hs⟩ := List.mem_flatMap.mp hs
  exact isName_of_mem_splitScopes hs

theorem isName_of_mem_collect {rule : Harvest.Rule}
    (h : ∀ atRoot key n, ∀ s ∈ (rule atRoot key n).shown.scopes, IsName s) (atRoot : Bool)
    (stack : List Node) : ∀ s ∈ (collect rule atRoot stack).scopes, IsName s := by
  fun_induction collect rule atRoot stack with
  | case1 => exact List.forall_mem_nil _
  | case2 atRoot n stack ih =>
      intro s hs
      rcases List.mem_append.mp hs with hs | hs
      · rw [shown, Harvest.scopes_concat, List.flatMap_map] at hs
        obtain ⟨c, _, hs⟩ := List.mem_flatMap.mp hs
        exact h atRoot c.1 c.2 s hs
      · exact ih s hs

theorem isName_of_mem_definitionRule (atRoot : Bool) (key : Option Text) (n : Node) :
    ∀ s ∈ (definitionRule atRoot key n).shown.scopes, IsName s := by
  unfold definitionRule
  split
  · exact List.forall_mem_nil _
  · split_ifs
    · exact List.forall_mem_nil _
    · exact isName_ofScopes
    · exact isName_ofScopes
    · exact List.forall_mem_nil _
    · exact List.forall_mem_nil _

theorem isName_of_mem_grammarRule (atRoot : Bool) (key : Option Text) (n : Node) :
    ∀ s ∈ (grammarRule atRoot key n).shown.scopes, IsName s := by
  unfold grammarRule
  split
  · split_ifs
    · exact isName_ofScopes
    · exact List.forall_mem_nil _
    · exact List.forall_mem_nil _
  · exact List.forall_mem_nil _

/-! ### The scopes of records -/

theorem isName_of_mem_definition {file : File} {root : Node}
    (h : s ∈ (definitionRecord file root).ownScopes) : IsName s :=
  isName_of_mem_collect isName_of_mem_definitionRule true [root] s (Text.mem_sortUnique.mp h)

theorem mem_grammar_cases {file : File} {root : Node}
    (h : s ∈ (grammarRecord file root).ownScopes) :
    IsName s ∨ (grammarRecord file root).baseScope = some s := by
  rcases List.mem_append.mp (Text.mem_sortUnique.mp h) with h | h
  · exact .inl (isName_of_mem_collect isName_of_mem_grammarRule true [root] s h)
  · exact .inr (Option.mem_toList.mp h)

/-- A grammar declares its base scope. -/
theorem mem_ownScopes_grammar {file : File} {root : Node}
    (h : (grammarRecord file root).baseScope = some s) :
    s ∈ (grammarRecord file root).ownScopes :=
  Text.mem_sortUnique.mpr (List.mem_append_right _ (Option.mem_toList.mpr h))

theorem exists_of_scalarText? {n : Option Node} (h : scalarText? n = some s) :
    ∃ span value, n = some (.scalar span (.string value)) ∧ value.trim = s := by
  obtain ⟨htrim, _⟩ := Option.filter_eq_some_iff.mp h
  obtain ⟨value, hvalue, rfl⟩ := Option.map_eq_some_iff.mp htrim
  obtain ⟨m, rfl, hm⟩ := Option.bind_eq_some_iff.mp hvalue
  unfold Node.text? at hm
  split at hm
  · exact ⟨_, _, rfl, congrArg Text.trim (Option.some.inj hm)⟩
  · cases hm

/-- The value of a key stands one level down under that key. -/
theorem mem_children_of_child? {n m : Node} {key : Text} (h : n.child? key = some m) :
    (some key, m) ∈ n.children := by
  obtain ⟨e, he, rfl⟩ := Option.map_eq_some_iff.mp h
  rw [Node.member?] at he
  have hmem := List.mem_of_find?_eq_some he
  have hkey := List.find?_some he
  rw [decide_eq_true_eq] at hkey
  cases n with
  | object span ms => exact List.mem_map.mpr ⟨e, hmem, by rw [hkey]⟩
  | array span ns => cases hmem
  | scalar span v => cases hmem
  | unknown span => cases hmem

/-- A definition declares its base scope when that is a name. -/
theorem mem_ownScopes_definition {file : File} {root : Node} (hname : IsName s)
    (h : (definitionRecord file root).baseScope = some s) :
    s ∈ (definitionRecord file root).ownScopes := by
  obtain ⟨span, value, hchild, rfl⟩ := exists_of_scalarText? h
  have hrule : (definitionRule true (some ("scope" : Text)) (.scalar span (.string value))).shown =
      Harvest.ofScopes [value] := rfl
  refine Text.mem_sortUnique.mpr ?_
  rw [Harvest.collect_cons]
  refine List.mem_append_left _ ?_
  rw [shown, Harvest.scopes_concat, List.flatMap_map]
  refine List.mem_flatMap.mpr ⟨_, mem_children_of_child? hchild, ?_⟩
  rw [hrule]
  exact List.mem_flatMap.mpr ⟨value, List.mem_singleton_self _, trim_mem_splitScopes hname⟩

/-! ### The registry after any changes -/

/-- The record is that of a grammar. -/
def Record.IsGrammar (r : Record) : Prop :=
  Dialect.ofFileName? r.resourcePath = some .tmLanguage

theorem mem_baseScopes_iff {snapshot : Snapshot} : s ∈ snapshot.baseScopes ↔
    s ≠ [] ∧ ∃ r ∈ snapshot.records, r.hidden = false ∧ r.baseScope = some s := by
  simp only [Snapshot.baseScopes, Text.mem_sortUnique, List.mem_filterMap, List.mem_filter,
    Option.filter_eq_some_iff, Bool.not_eq_eq_eq_not, Bool.not_true, List.isEmpty_eq_false_iff]
  constructor
  · rintro ⟨r, ⟨hr, hv⟩, hb, hne⟩
    exact ⟨hne, r, hr, hv, hb⟩
  · rintro ⟨hne, r, hr, hv, hb⟩
    exact ⟨r, ⟨hr, hv⟩, hb, hne⟩

variable {cs : List Change}

theorem exists_file_of_mem {r : Record} (hr : r ∈ (after cs).snapshot.records) :
    ∃ f, Record.ofFile f = .ok r := by
  rw [records_after] at hr
  exact exists_file_after cs ((sortRecords_perm _).mem_iff.mp hr)

theorem hasScope_iff_declared : (after cs).snapshot.hasScope s = true ↔
    ∃ r ∈ (after cs).snapshot.records, ∃ name ∈ r.ownScopes, BeginsWith name s := by
  rw [after_consistent cs, hasScope_iff]
  exact exists_entry_iff (p := fun name => BeginsWith name s)

/-- What a stored record declares is a name, or the base scope of a grammar. -/
theorem declared_cases {r : Record} (hr : r ∈ (after cs).snapshot.records)
    (h : t ∈ r.ownScopes) : IsName t ∨ (r.IsGrammar ∧ r.baseScope = some t) := by
  obtain ⟨f, hf⟩ := exists_file_of_mem hr
  obtain ⟨_, _, ⟨_, rfl⟩ | ⟨hdialect, rfl⟩⟩ := ofFile_cases hf
  · exact .inl (isName_of_mem_definition h)
  · exact (mem_grammar_cases h).imp_right fun hbase => ⟨hdialect, hbase⟩

/-- Names and the base scopes of grammars are declared where they are base scopes. -/
theorem declares_base {r : Record} (hr : r ∈ (after cs).snapshot.records)
    (hbase : r.baseScope = some t) (h : IsName t ∨ r.IsGrammar) : t ∈ r.ownScopes := by
  obtain ⟨f, hf⟩ := exists_file_of_mem hr
  obtain ⟨_, _, ⟨hdialect, rfl⟩ | ⟨_, rfl⟩⟩ := ofFile_cases hf
  · rcases h with h | h
    · exact mem_ownScopes_definition h hbase
    · have hsame : some Dialect.sublimeSyntax = some .tmLanguage := hdialect.symm.trans h
      cases hsame
  · exact mem_ownScopes_grammar hbase

theorem of_hasScope (h : (after cs).snapshot.hasScope t = true) (hne : t ≠ []) :
    IsName t ∨ ∃ r ∈ (after cs).snapshot.records, r.IsGrammar ∧
      ∃ base, r.baseScope = some base ∧ BeginsWith base t := by
  obtain ⟨r, hr, name, hname, hbegins⟩ := hasScope_iff_declared.mp h
  rcases declared_cases hr hname with hn | ⟨hg, hb⟩
  · exact .inl (hn.of_prefix hbegins.isPrefix hne)
  · exact .inr ⟨r, hr, hg, name, hb, hbegins⟩

/-- **Known base scopes.**  After any changes of the registry a base scope of a syntax that is not
hidden is known exactly when it is a name, or a grammar has a base scope that begins with it. -/
theorem baseScope_known_iff (cs : List Change) (t : Text)
    (h : t ∈ (after cs).snapshot.baseScopes) : (after cs).snapshot.hasScope t = true ↔
      IsName t ∨ ∃ r ∈ (after cs).snapshot.records, r.IsGrammar ∧
        ∃ base, r.baseScope = some base ∧ BeginsWith base t := by
  obtain ⟨hne, r, hr, _, hbase⟩ := mem_baseScopes_iff.mp h
  refine ⟨fun hknown => of_hasScope hknown hne, ?_⟩
  rw [hasScope_iff_declared]
  rintro (hn | ⟨q, hq, hg, base, hb, hbegins⟩)
  · exact ⟨r, hr, t, declares_base hr hbase (.inl hn), .inl rfl⟩
  · exact ⟨q, hq, base, declares_base hq hb (.inr hg), hbegins⟩

/-- A definition in a package. -/
def defining (scope : Text) : List Change :=
  [.replace "A" [⟨"Packages/A/A.sublime-syntax", "A", ("scope: " : Text) ++ scope⟩]]

/-- A base scope that is one name is known. -/
theorem baseScope_known_source :
    ("source.a" : Text) ∈ (after (defining "source.a")).snapshot.baseScopes ∧
      (after (defining "source.a")).snapshot.hasScope "source.a" = true := by
  have h : ("source.a" : Text) ∈ (after (defining "source.a")).snapshot.baseScopes := by
    decide +kernel
  refine ⟨h, (baseScope_known_iff _ _ h).mpr (.inl ⟨?_, ?_, ?_, ?_⟩)⟩ <;> decide

/-- A base scope of two names is told as one, and is not known. -/
theorem baseScope_unknown :
    ("a b" : Text) ∈ (after (defining "a b")).snapshot.baseScopes ∧
      (after (defining "a b")).snapshot.hasScope "a b" = false := by
  have hgrammar : ∀ r ∈ (after (defining "a b")).snapshot.records,
      Dialect.ofFileName? r.resourcePath ≠ some .tmLanguage := by
    decide +kernel
  refine ⟨by decide +kernel, Bool.eq_false_iff.mpr fun hknown => ?_⟩
  rcases of_hasScope hknown (by decide) with hn | ⟨r, hr, hg, _⟩
  · exact absurd (hn.notBlank ' ' (by decide)) (by decide)
  · exact hgrammar r hr hg

end Registry
end Scopewright
