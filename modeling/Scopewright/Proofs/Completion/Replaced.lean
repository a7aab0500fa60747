import Mathlib
import Scopewright.Completion.Complete
import Scopewright.Proofs.Completion.Labels
import Scopewright.Proofs.Cursor.Source
import Scopewright.Proofs.Json.Verbatim

/-! # The word that a candidate replaces

The word of a value, and the name of a variable in a reference, are found in what the token at the
cursor stands for, while the place of the word is counted in the document.  In JSON a string stands
for what its body reads as, and each escape in it takes more units than it stands for.

The last word of a value stands in the document where it is reckoned just when no escape begins in
the string in front of that place; the word itself may have escapes.  The name in a reference is
counted back from the cursor, so there it is the name that must be written without escapes
(`Completion.replaces_iff`). -/

namespace Scopewright
namespace Completion

open Cursor (Token)
open Json.Quoted (Verbatim backslash unescape)

/-- The part of a document from where the word begins to the cursor. -/
def SuggestionSet.source (set : SuggestionSet) (t : Text) (k : Token) : Text :=
  t.between set.wordStart k.stop

/-- What a candidate replaces in a string reads as the word that has been typed. -/
def SuggestionSet.Replaces (set : SuggestionSet) (t : Text) (k : Token) : Prop :=
  unescape (set.source t k) = set.word

instance (set : SuggestionSet) (t : Text) (k : Token) : Decidable (set.Replaces t k) :=
  inferInstanceAs (Decidable (_ = _))

/-! ### The words that are completed -/

/-- The last word of several. -/
def lastWord (t : Text) : Text := (t.reverse.takeWhile fun c => !c.isBlank).reverse

theorem exists_lastWord (t : Text) : ∃ front, t = front ++ lastWord t ∧
    ∀ c ∈ front.getLast?, c.isBlank = true := by
  refine ⟨(t.reverse.dropWhile fun c => !c.isBlank).reverse, ?_, fun c hc => ?_⟩
  · rw [lastWord, ← List.reverse_append, List.takeWhile_append_dropWhile, List.reverse_reverse]
  · rw [List.getLast?_reverse] at hc
    have hhead := List.head?_dropWhile_not (fun c : CodeUnit => !c.isBlank) t.reverse
    rw [Option.mem_def.mp hc] at hhead
    simpa using hhead

theorem ne_backslash_of_isNameUnit {c : CodeUnit} (h : Color.isNameUnit c = true) :
    c ≠ backslash := by
  rintro rfl
  revert h
  decide

theorem ne_backslash_of_isBareUnit {c : CodeUnit} (h : Cursor.Json.isBareUnit c = true) :
    c ≠ backslash := by
  rintro rfl
  revert h
  decide

/-- The name in a reference that is being typed ends the text. -/
theorem suffix_of_reference? {t name : Text} (h : Color.reference? t = some name) :
    name <:+ t ∧ backslash ∉ name := by
  unfold Color.reference? at h
  simp only at h
  split at h
  · obtain rfl := Option.some.inj h
    refine ⟨Cursor.reverse_takeWhile_suffix Color.isNameUnit t, fun hmem => ?_⟩
    exact ne_backslash_of_isNameUnit (List.mem_takeWhile_imp (List.mem_reverse.mp hmem)) rfl
  · cases h

section classified

variable {token : Token} {names : Names} {word : Text} {start : ℤ} {variableNames : List Text}

theorem reference?_of_referenceOr {other : Context}
    (h : referenceOr token names other = .cssVariable word start variableNames)
    (hother : other ≠ .cssVariable word start variableNames) :
    reference? token = some (word, start) := by
  unfold referenceOr at h
  split at h
  · rename_i w s hreference
    rw [hreference]
    cases h
    rfl
  · exact absurd h hother

theorem reference?_of_classifyValue {node : Option Schema.Position} {path : Cursor.Path}
    (h : classifyValue node path token names = .cssVariable word start variableNames) :
    reference? token = some (word, start) := by
  unfold classifyValue at h
  split at h
  · split at h
    · split at h <;> cases h
    · cases h
  · split at h
    · cases h
    · cases h
    · exact reference?_of_referenceOr h nofun
    · exact reference?_of_referenceOr h nofun
    · cases h
    · cases h
    · cases h
    · split at h <;> cases h

/-- A reference to a variable is completed only where the token ends with one. -/
theorem reference?_of_classify {r : Cursor.Resolution} {d : Dialect}
    (h : classify r d names = .cssVariable word start variableNames) :
    reference? r.token = some (word, start) := by
  unfold classify at h
  split at h
  · cases h
  · split at h
    · cases h
    · exact reference?_of_classifyValue h
    · split at h
      · cases h
      · split at h
        · cases h
        · split at h
          · cases h
          · exact reference?_of_classifyValue h

end classified

/-! ### Candidates -/

theorem replaced_of_candidate? {set : SuggestionSet} {token : Token} {format : Format}
    {s : Suggestion} {c : Candidate} (h : candidate? set token format s = some c) :
    c.replaced = ⟨set.wordStart, token.stop⟩ := by
  obtain ⟨_, _, rfl⟩ := Option.map_eq_some_iff.mp h
  rfl

/-- Every candidate replaces what stands between the start of the word and the cursor. -/
theorem replaced_of_mem_complete {t : Text} {offset : ℤ} {d : Dialect} {r : Registry}
    {set : SuggestionSet} {limit : ℤ} {c : Candidate}
    (hset : suggest? (contextAt t offset d) (Cursor.resolve t offset d).token r = some set)
    (h : c ∈ (complete t offset d r limit).1) :
    c.replaced = ⟨set.wordStart, (Cursor.resolve t offset d).token.stop⟩ := by
  have hgenerated : c ∈ generate (contextAt t offset d) (Cursor.resolve t offset d).token
      d.format r := by
    simp only [complete, limited] at h
    split at h <;> exact List.mem_of_mem_take h
  rw [generate, hset] at hgenerated
  obtain ⟨s, -, hs⟩ := List.mem_filterMap.mp (mem_of_mem_rank hgenerated)
  exact replaced_of_candidate? hs

/-! ### Words in JSON -/

section covered

variable {t raw : Text} {n : ℕ} {k : Token}

/-- The last word of a value stands where it is reckoned, just when no escape begins in front of that
place. -/
theorem suggestValues_replaces_iff (hn : n ≤ t.length) (h : k.Covers t n raw raw)
    (htext : k.text = unescape raw) (node : Schema.Position) :
    (suggestValues node k).Replaces t k ↔
      Verbatim (t.between k.start (suggestValues node k).wordStart) := by
  obtain ⟨front, hfront, hblank⟩ := exists_lastWord k.text
  have hlength : front.length ≤ raw.length := by
    have hread := Json.Quoted.length_unescape_le raw
    rw [← htext, hfront, List.length_append] at hread
    omega
  have hstart : (suggestValues node k).wordStart = (n - raw.length : ℕ) + (front.length : ℤ) := by
    show k.start + ((k.text.length - (lastWord k.text).length : ℕ) : ℤ) = _
    rw [h.start, show k.text.length - (lastWord k.text).length = front.length by
      rw [congrArg List.length hfront, List.length_append, Nat.add_sub_cancel]]
  have hlast : front.getLast? ≠ some backslash := by
    intro hback
    have := hblank backslash hback
    revert this
    decide
  rw [SuggestionSet.Replaces, SuggestionSet.source, hstart, h.start, h.stop,
    Cursor.between_suffix hn h.suffix hlength, Cursor.between_prefix hn h.suffix hlength]
  exact Json.Quoted.unescape_drop_iff (htext.symm.trans hfront) hlast

/-- The name in a reference stands where it is reckoned, just when the token ends with it as it is
written. -/
theorem suggestVariables_replaces_iff (hn : n ≤ t.length) (h : k.Covers t n raw raw)
    (htext : k.text = unescape raw) {word : Text} {start : ℤ}
    (hreference : reference? k = some (word, start)) (names : List Text) :
    (suggestVariables word start names).Replaces t k ↔ word <:+ k.source t := by
  obtain ⟨name, hname, heq⟩ := Option.map_eq_some_iff.mp hreference
  obtain ⟨rfl, rfl⟩ := Prod.mk.inj heq
  obtain ⟨hsuffix, hback⟩ := suffix_of_reference? hname
  have hlength : name.length ≤ raw.length := by
    have hread := Json.Quoted.length_unescape_le raw
    rw [← htext] at hread
    exact hsuffix.length_le.trans hread
  have hraw : raw.length ≤ n := by
    have := h.suffix.length_le
    rwa [List.length_take_of_le hn] at this
  have hstart : (k.stop - name.length : ℤ) =
      (n - raw.length : ℕ) + ((raw.length - name.length : ℕ) : ℤ) := by
    rw [h.stop]
    omega
  obtain ⟨-, -, -, -, hsource, -⟩ := h.exists_word hn
  show unescape (t.between (k.stop - name.length) k.stop) = name ↔ _
  rw [hstart, h.stop, Cursor.between_suffix hn h.suffix (Nat.sub_le _ _), hsource]
  exact Json.Quoted.unescape_end_iff hlength hback

end covered

/-- **What a candidate replaces in JSON.**  Every candidate replaces what stands between the start of
the word and the cursor.  For the last word of a value that reads as the word exactly when no escape
begins between the start of the token and the start of the word; for the name in a reference, exactly
when the token ends with the name as it is written. -/
theorem replaces_iff (t : Text) (offset : ℤ) (d : Dialect) (r : Registry) (set : SuggestionSet)
    (hformat : d.format = .json)
    (hset : suggest? (contextAt t offset d) (Cursor.resolve t offset d).token r = some set) :
    let k := (Cursor.resolve t offset d).token
    (∀ node, contextAt t offset d = .valueEnum node →
      (set.Replaces t k ↔ Verbatim (t.between k.start set.wordStart))) ∧
    (∀ word start names, contextAt t offset d = .cssVariable word start names →
      (set.Replaces t k ↔ set.word <:+ k.source t)) ∧
    ∀ limit, ∀ c ∈ (complete t offset d r limit).1, c.replaced = ⟨set.wordStart, k.stop⟩ := by
  intro k
  have hn : t.clamp offset ≤ t.length := Nat.min_le_right _ _
  have hk : k = (Cursor.Json.resolve t (t.clamp offset)).token := by
    show (Cursor.resolve t offset d).token = _
    rw [Cursor.resolve]
    simp only [hformat]
  obtain ⟨-, raw, hcovers, htext⟩ := Cursor.Json.resolve_covers hn
  rw [← hk] at hcovers htext
  have hread : k.text = unescape raw := by
    rcases htext with htext | ⟨htext, hunits⟩
    · exact htext
    · refine htext.trans (Json.Quoted.unescape_eq_self_iff.mpr (.of_notMem fun hmem => ?_)).symm
      exact ne_backslash_of_isBareUnit (hunits _ hmem) rfl
  refine ⟨fun node hnode => ?_, fun word start names hcss => ?_, fun limit c hc => ?_⟩
  · rw [hnode] at hset
    obtain rfl := Option.some.inj hset
    exact suggestValues_replaces_iff hn hcovers hread node
  · rw [hcss] at hset
    obtain rfl := Option.some.inj hset
    exact suggestVariables_replaces_iff hn hcovers hread (reference?_of_classify hcss) names
  · exact replaced_of_mem_complete hset hc

/-! ### Strings with escapes -/

theorem exists_suggestValues {context : Context} (h : context.name = Text.ofString "value-enum")
    (token : Token) (r : Registry) : ∃ node, context = .valueEnum node ∧
      suggest? context token r = some (suggestValues node token) := by
  have hne {name : String} (hname : Text.ofString name ≠ Text.ofString "value-enum")
      (h : Text.ofString name = Text.ofString "value-enum") {p : Prop} : p := absurd h hname
  cases context with
  | valueEnum node => exact ⟨node, rfl, rfl⟩
  | keyName => exact hne (by decide) h
  | scopeSelector => exact hne (by decide) h
  | cssVariable => exact hne (by decide) h
  | actionName => exact hne (by decide) h
  | color => exact hne (by decide) h
  | freeText => exact hne (by decide) h

/-- The last word of a value may be written with an escape: none begins in front of it. -/
theorem replaces_iff_escaped :
    let t := Text.ofString "\x7b\"rules\":[\x7b\"font_style\":\"bold \\u0069t"
    let k := (Cursor.resolve t 37 .colorScheme).token
    ∃ node set, contextAt t 37 .colorScheme = .valueEnum node ∧
      suggest? (contextAt t 37 .colorScheme) k .empty = some set ∧
      set.word = Text.ofString "it" ∧ set.source t k = Text.ofString "\\u0069t" ∧
      set.Replaces t k := by
  intro t k
  have hlocate : Json.locate t 37 = ⟨[.key "font_style", .index 0, .key "rules"],
      some ⟨24, 13, false⟩, false⟩ := by
    subst t
    cbv
  have hresolve : Cursor.resolve t 37 .colorScheme = ⟨[.key "rules", .index 0, .key "font_style"],
      ⟨"bold it", 25, 37, some .double, none, .value, Selector.scan "bold \\u0069t" 25⟩,
      [], false⟩ := by
    show Cursor.Json.resolve t 37 = _
    rw [Cursor.Json.resolve, hlocate]
    rfl
  have hk : k = _ := congrArg Cursor.Resolution.token hresolve
  have hname : (contextAt t 37 .colorScheme).name = Text.ofString "value-enum" := by
    rw [contextAt, hresolve]
    decide +kernel
  obtain ⟨node, hnode, hset⟩ := exists_suggestValues hname k .empty
  have hword : (suggestValues node k).word = Text.ofString "it" := by
    rw [hk]
    rfl
  have hstart : (suggestValues node k).wordStart = 30 := by
    rw [hk]
    rfl
  have hsource : (suggestValues node k).source t k = Text.ofString "\\u0069t" := by
    rw [SuggestionSet.source, hstart, hk]
    rfl
  have hfront : Verbatim (t.between k.start (suggestValues node k).wordStart) := by
    rw [hstart, hk]
    decide +kernel
  exact ⟨node, suggestValues node k, hnode, hset, hword, hsource,
    ((replaces_iff t 37 .colorScheme .empty _ rfl hset).1 node hnode).mpr hfront⟩

/-- In front of the word `it` stands the escape of a tab, and what is replaced begins inside it. -/
theorem not_replaces_value :
    let t := Text.ofString "\x7b\"rules\":[\x7b\"font_style\":\"bold\\tit"
    let k := (Cursor.resolve t 33 .colorScheme).token
    ∃ node set, k.quote = some .double ∧ contextAt t 33 .colorScheme = .valueEnum node ∧
      suggest? (contextAt t 33 .colorScheme) k .empty = some set ∧
      set.word = Text.ofString "it" ∧ set.source t k = Text.ofString "tit" ∧
      ¬ set.Replaces t k := by
  intro t k
  have hlocate : Json.locate t 33 = ⟨[.key "font_style", .index 0, .key "rules"],
      some ⟨24, 9, false⟩, false⟩ := by
    subst t
    cbv
  have hresolve : Cursor.resolve t 33 .colorScheme = ⟨[.key "rules", .index 0, .key "font_style"],
      ⟨"bold\tit", 25, 33, some .double, none, .value, Selector.scan "bold\\tit" 25⟩,
      [], false⟩ := by
    show Cursor.Json.resolve t 33 = _
    rw [Cursor.Json.resolve, hlocate]
    rfl
  have hk : k = _ := congrArg Cursor.Resolution.token hresolve
  have hname : (contextAt t 33 .colorScheme).name = Text.ofString "value-enum" := by
    rw [contextAt, hresolve]
    decide +kernel
  obtain ⟨node, hnode, hset⟩ := exists_suggestValues hname k .empty
  have hword : (suggestValues node k).word = Text.ofString "it" := by
    rw [hk]
    rfl
  have hsource : (suggestValues node k).source t k = Text.ofString "tit" := by
    rw [hk]
    rfl
  refine ⟨node, suggestValues node k, congrArg Token.quote hk, hnode, hset, hword, hsource, ?_⟩
  rw [SuggestionSet.Replaces, hsource, hword]
  decide

/-- Of the name `a` that is written with an escape only the last digit is replaced. -/
theorem not_replaces_name :
    let t := Text.ofString "\x7b\"globals\":\x7b\"caret\":\"var(\\u0061"
    let k := (Cursor.resolve t 31 .colorScheme).token
    ∃ names set, contextAt t 31 .colorScheme = .cssVariable "a" 30 names ∧
      suggest? (contextAt t 31 .colorScheme) k .empty = some set ∧
      set.source t k = Text.ofString "1" ∧ ¬ set.Replaces t k := by
  intro t k
  have hlocate : Json.locate t 31 = ⟨[.key "caret", .key "globals"],
      some ⟨20, 11, false⟩, false⟩ := by
    subst t
    cbv
  have hresolve : Cursor.resolve t 31 .colorScheme = ⟨[.key "globals", .key "caret"],
      ⟨"var(a", 21, 31, some .double, none, .value, Selector.scan "var(\\u0061" 21⟩,
      [], false⟩ := by
    show Cursor.Json.resolve t 31 = _
    rw [Cursor.Json.resolve, hlocate]
    rfl
  have hk : k = _ := congrArg Cursor.Resolution.token hresolve
  have hcontext : contextAt t 31 .colorScheme =
      .cssVariable "a" 30 (Names.ofDocument t .colorScheme).variableNames := by
    rw [contextAt, hresolve]
    rfl
  have hsource (names : List Text) :
      (suggestVariables "a" 30 names).source t k = Text.ofString "1" := by
    rw [hk]
    rfl
  refine ⟨_, suggestVariables "a" 30 _, hcontext, congrArg (suggest? · k .empty) hcontext,
    hsource _, ?_⟩
  rw [SuggestionSet.Replaces, hsource]
  show ¬ unescape (Text.ofString "1") = Text.ofString "a"
  decide

end Completion
end Scopewright
