import Scopewright.Proofs.SyntaxTest.Returns
import Scopewright.Proofs.Validation.Assertion

/-! # Messages about a test with carriage returns

Line breaks may be written with a carriage return in front (`Text.withReturns`), and then every line
but the last one ends with it (`Text.splitOn_withReturns`).  The word that closes a comment is found
without it; in the names of a selector it is a unit like others, and the last name goes on with it
(`Selector.names_addReturn`).  So the messages about a test stay the same only when each selector is
closed, or when its last name is known in both spellings (`messages_withReturns_iff`). -/

namespace Scopewright

namespace Selector

theorem names_addReturn_from (name selector : Text) (i : ℕ) :
    ∃ front, (atomsFrom name i selector).map (·.name) =
        front ++ (if openFrom name selector = [] then [] else [openFrom name selector]) ∧
      (atomsFrom name i (Text.addReturn selector)).map (·.name) =
        front ++ [Text.addReturn (openFrom name selector)] := by
  induction selector generalizing name i with
  | nil =>
      have hreturn : (isCombinator (CodeUnit.ofBasic '\r') ||
          (decide (CodeUnit.ofBasic '\r' = '-') && name.isEmpty)) = false := by
        rw [show isCombinator (CodeUnit.ofBasic '\r') = false by decide,
          show decide (CodeUnit.ofBasic '\r' = CodeUnit.ofBasic '-') = false by decide]
        rfl
      refine ⟨[], ?_, ?_⟩
      · rw [atomsFrom, atomBefore, openFrom]
        cases name <;> rfl
      · rw [Text.addReturn, List.nil_append, atomsFrom, hreturn, if_neg Bool.false_ne_true,
          atomsFrom, atomBefore, if_neg (by simp)]
        rfl
  | cons c r ih =>
      rw [atomsFrom, openFrom, Text.addReturn, List.cons_append, atomsFrom, ← Text.addReturn]
      split
      · obtain ⟨front, hnames, hreturned⟩ := ih [] (i + 1)
        refine ⟨(atomBefore name i).map (·.name) ++ front, ?_, ?_⟩
        · rw [List.map_append, hnames, List.append_assoc]
        · rw [List.map_append, hreturned, List.append_assoc]
      · exact ih (name ++ [c]) (i + 1)

/-- A carriage return goes on with the last name of a selector, or is a name of its own. -/
theorem names_addReturn (selector : Text) :
    ∃ front, names selector =
        front ++ (if openName selector = [] then [] else [openName selector]) ∧
      names (Text.addReturn selector) = front ++ [Text.addReturn (openName selector)] :=
  names_addReturn_from [] selector 0

theorem mem_of_mem_atomsFrom {c : CodeUnit} {selector name : Text} {i : ℕ} {a : Atom}
    (ha : a ∈ atomsFrom name i selector) (hc : c ∈ a.name) : c ∈ name ++ selector := by
  have hbefore {name : Text} {i : ℕ} (ha : a ∈ atomBefore name i) : c ∈ name := by
    unfold atomBefore at ha
    split at ha
    · cases ha
    · rwa [List.mem_singleton.mp ha] at hc
  induction selector generalizing name i with
  | nil => exact List.mem_append_left _ (hbefore ha)
  | cons d r ih =>
      rw [atomsFrom] at ha
      split at ha
      · rcases List.mem_append.mp ha with ha | ha
        · exact List.mem_append_left _ (hbefore ha)
        · exact List.mem_append_right _ (List.mem_cons_of_mem d (ih ha))
      · have := ih ha
        rwa [List.append_assoc] at this

/-- A name is written with units of its selector. -/
theorem mem_of_mem_name {c : CodeUnit} {selector name : Text} (hname : name ∈ names selector)
    (hc : c ∈ name) : c ∈ selector := by
  obtain ⟨a, ha, rfl⟩ := List.mem_map.mp hname
  exact List.nil_append selector ▸ mem_of_mem_atomsFrom ha hc

end Selector

namespace Validation

open SyntaxTest (Header header? selectorOf?)

/-- A selector ends with what closes the comment, but for white space. -/
def Closes (closing : Option Text) (selector : Text) : Prop :=
  ∃ word, closing = some word ∧ word <:+ selector.trimEnd

/-- The last name of a selector is known, if there is one, and is known with a carriage return, or is
one. -/
def KnowsReturned (r : Registry) (selector : Text) : Prop :=
  Scope.isKnown r (Text.addReturn (Selector.openName selector)) = true ∧
    (Selector.openName selector ≠ [] → Scope.isKnown r (Selector.openName selector) = true)

section selectors

variable {r : Registry} {closing : Option Text} {selector : Text}

theorem dropClosing_of_not_closes (h : ¬ Closes closing selector) :
    dropClosing closing selector = selector := by
  unfold dropClosing
  cases closing with
  | none => rfl
  | some word =>
      refine if_neg fun hword => h ⟨word, rfl, ?_⟩
      exact List.reverse_prefix.mp (List.isPrefixOf_iff_prefix.mp hword)

theorem closes_addReturn : Closes closing (Text.addReturn selector) ↔ Closes closing selector := by
  rw [Closes, Closes, Text.trimEnd_addReturn]

theorem dropClosing_of_closes (h : Closes closing selector) :
    dropClosing closing (Text.addReturn selector) = dropClosing closing selector := by
  obtain ⟨word, rfl, hword⟩ := h
  have hreverse := List.isPrefixOf_iff_prefix.mpr (List.reverse_prefix.mpr hword)
  simp only [dropClosing, Text.trimEnd_addReturn, if_pos hreverse]

theorem unknownMessages_addReturn_of_known (h : KnowsReturned r selector) :
    unknownMessages r (Text.addReturn selector) = unknownMessages r selector := by
  obtain ⟨front, hnames, hreturned⟩ := Selector.names_addReturn selector
  rw [unknownMessages, unknownMessages, hnames, hreturned, List.filter_append, List.filter_append]
  have hlast : (if Selector.openName selector = [] then [] else [Selector.openName selector]).filter
      (fun name => !Scope.isKnown r name) = [] := by
    split
    · rfl
    · rename_i hne
      rw [List.filter_singleton, h.2 hne]
      rfl
  rw [hlast, List.filter_singleton, h.1]
  rfl

/-- If the last name is not known in both spellings, then something is told about it with the carriage
return, or only without. -/
theorem unknownMessages_addReturn_of_not_known (h : ¬ KnowsReturned r selector) :
    (∃ m ∈ unknownMessages r (Text.addReturn selector), CodeUnit.ofBasic '\r' ∈ m) ∨
      (unknownMessages r (Text.addReturn selector)).length <
        (unknownMessages r selector).length := by
  obtain ⟨front, hnames, hreturned⟩ := Selector.names_addReturn selector
  by_cases hknown : Scope.isKnown r (Text.addReturn (Selector.openName selector)) = true
  · obtain ⟨hne, hunknown⟩ := Classical.not_imp.mp fun hopen => h ⟨hknown, hopen⟩
    rw [Bool.not_eq_true] at hunknown
    right
    rw [unknownMessages, unknownMessages, hnames, hreturned, if_neg hne]
    simp [hknown, hunknown]
  · rw [Bool.not_eq_true] at hknown
    refine .inl ⟨"Unknown scope " ++ quoted (Text.addReturn (Selector.openName selector)),
      List.mem_map.mpr ⟨_, List.mem_filter.mpr ⟨?_, ?_⟩, rfl⟩, ?_⟩
    · rw [hreturned]
      exact List.mem_append_right _ (List.mem_singleton_self _)
    · rw [hknown]
      rfl
    · simp [quoted, Text.addReturn]

end selectors

section lines

variable {r : Registry} {h : Header} {line : Text}

/-- The line is about the same scopes with a carriage return at its end. -/
def TakesReturn (r : Registry) (h : Header) (line : Text) : Prop :=
  ∀ selector, selectorOf? h line = some selector →
    Closes h.stop selector ∨ KnowsReturned r selector

variable (hstart : h.start ≠ [] ∧ ∀ c ∈ h.start, c.isBlank = false)

include hstart

theorem lineMessages_addReturn (hline : TakesReturn r h line) :
    lineMessages h r (Text.addReturn line) = lineMessages h r line := by
  rw [lineMessages, lineMessages, SyntaxTest.selectorOf_addReturn hstart]
  cases hselector : selectorOf? h line with
  | none => rfl
  | some selector =>
      simp only [Option.map_some]
      by_cases hcloses : Closes h.stop selector
      · rw [dropClosing_of_closes hcloses]
      · have hknown := (hline selector hselector).resolve_left hcloses
        rw [dropClosing_of_not_closes hcloses,
          dropClosing_of_not_closes fun hreturned => hcloses (closes_addReturn.mp hreturned),
          unknownMessages_addReturn_of_known hknown]

theorem lineMessages_addReturn_of_not (hline : ¬ TakesReturn r h line) :
    (∃ m ∈ lineMessages h r (Text.addReturn line), CodeUnit.ofBasic '\r' ∈ m) ∨
      (lineMessages h r (Text.addReturn line)).length < (lineMessages h r line).length := by
  simp only [TakesReturn, not_forall, not_or] at hline
  obtain ⟨selector, hselector, hcloses, hknown⟩ := hline
  rw [lineMessages, lineMessages, SyntaxTest.selectorOf_addReturn hstart, hselector]
  simp only [Option.map_some]
  rw [dropClosing_of_not_closes hcloses,
    dropClosing_of_not_closes fun hreturned => hcloses (closes_addReturn.mp hreturned)]
  exact unknownMessages_addReturn_of_not_known hknown

end lines

/-- The messages about a line have no carriage return, if the line has none. -/
theorem notMem_lineMessages {r : Registry} {h : Header} {line : Text}
    (hline : CodeUnit.ofBasic '\r' ∉ line) {m : Text} (hm : m ∈ lineMessages h r line) :
    CodeUnit.ofBasic '\r' ∉ m := by
  unfold lineMessages at hm
  split at hm
  · rename_i selector hselector
    obtain ⟨name, hname, rfl⟩ := List.mem_map.mp hm
    obtain ⟨column, -, rfl⟩ := Option.map_eq_some_iff.mp hselector
    have hnames : CodeUnit.ofBasic '\r' ∉ name := fun hmem =>
      hline <| (List.drop_suffix column line).subset <|
        (dropClosing_isPrefix h.stop _).subset <|
          Selector.mem_of_mem_name (List.mem_of_mem_filter hname) hmem
    have htext : CodeUnit.ofBasic '\r' ∉ Text.ofString "Unknown scope " := by decide
    have hquote : CodeUnit.ofBasic '\r' ∉ Text.ofString "'" := by decide
    simp only [quoted, List.mem_append, not_or]
    exact ⟨htext, ⟨hquote, hnames⟩, hquote⟩
  · cases hm

theorem length_flatMap_le {α β : Type} {f g : α → List β} {l : List α}
    (h : ∀ a ∈ l, (f a).length ≤ (g a).length) :
    (l.flatMap f).length ≤ (l.flatMap g).length := by
  induction l with
  | nil => exact Nat.le_refl _
  | cons a l ih =>
      obtain ⟨ha, hl⟩ := List.forall_mem_cons.mp h
      rw [List.flatMap_cons, List.flatMap_cons, List.length_append, List.length_append]
      exact Nat.add_le_add ha (ih hl)

/-- Of lists put together from parts, one of each pair shorter than the other or marked where the
other is not, the whole is the same only when each part is. -/
theorem flatMap_eq_flatMap_iff {α β : Type} {f g : α → List β} {marked : β → Prop} {l : List α}
    (hg : ∀ a ∈ l, ∀ b ∈ g a, ¬ marked b)
    (h : ∀ a ∈ l, f a = g a ∨ (∃ b ∈ f a, marked b) ∨ (f a).length < (g a).length) :
    l.flatMap f = l.flatMap g ↔ ∀ a ∈ l, f a = g a := by
  refine ⟨fun heq => ?_, List.flatMap_congr⟩
  have hle : ∀ a ∈ l, (f a).length ≤ (g a).length := by
    intro a ha
    rcases h a ha with hsame | ⟨b, hb, hmarked⟩ | hlt
    · exact Nat.le_of_eq (congrArg List.length hsame)
    · have hmem : b ∈ l.flatMap g := heq ▸ List.mem_flatMap.mpr ⟨a, ha, hb⟩
      obtain ⟨a', ha', hb'⟩ := List.mem_flatMap.mp hmem
      exact absurd hmarked (hg a' ha' b hb')
    · exact Nat.le_of_lt hlt
  clear h hg
  induction l with
  | nil => exact List.forall_mem_nil _
  | cons a l ih =>
      obtain ⟨ha, hl⟩ := List.forall_mem_cons.mp hle
      have htotal := length_flatMap_le hl
      rw [List.flatMap_cons, List.flatMap_cons] at heq
      have hlength := congrArg List.length heq
      rw [List.length_append, List.length_append] at hlength
      obtain ⟨hfirst, hrest⟩ := List.append_inj heq (by omega)
      exact List.forall_mem_cons.mpr ⟨hfirst, ih hrest hl⟩

/-- Lines with carriage returns get the same messages just when each of them takes its own. -/
theorem messages_returned_iff {r : Registry} {h : Header} {lines : List Text}
    (hstart : h.start ≠ [] ∧ ∀ c ∈ h.start, c.isBlank = false)
    (hlines : ∀ line ∈ lines, CodeUnit.ofBasic '\r' ∉ line) :
    (Text.returned lines).flatMap (lineMessages h r) = lines.flatMap (lineMessages h r) ↔
      ∀ line ∈ lines.dropLast, TakesReturn r h line := by
  rcases List.eq_nil_or_concat lines with rfl | ⟨front, last, hconcat⟩
  · simp [Text.returned]
  · rw [List.concat_eq_append] at hconcat
    subst hconcat
    have hfront : ∀ line ∈ front, ∀ m ∈ lineMessages h r line, ¬ CodeUnit.ofBasic '\r' ∈ m :=
      fun line hline m hm => notMem_lineMessages (hlines line (List.mem_append_left _ hline)) hm
    have hcases : ∀ line ∈ front,
        lineMessages h r (Text.addReturn line) = lineMessages h r line ∨
          (∃ m ∈ lineMessages h r (Text.addReturn line), CodeUnit.ofBasic '\r' ∈ m) ∨
            (lineMessages h r (Text.addReturn line)).length < (lineMessages h r line).length := by
      intro line _
      by_cases hline : TakesReturn r h line
      · exact .inl (lineMessages_addReturn hstart hline)
      · exact .inr (lineMessages_addReturn_of_not hstart hline)
    rw [Text.returned, List.dropLast_concat, List.getLast?_concat, List.flatMap_append,
      List.flatMap_append, Option.toList_some, List.append_cancel_right_eq, List.flatMap_map,
      flatMap_eq_flatMap_iff hfront hcases]
    refine forall_congr' fun line => imp_congr_right fun hline => ?_
    refine ⟨fun hsame => ?_, lineMessages_addReturn hstart⟩
    by_contra hnot
    rcases lineMessages_addReturn_of_not hstart hnot with ⟨m, hm, hreturn⟩ | hlt
    · exact hfront line hline m (hsame ▸ hm) hreturn
    · exact absurd (congrArg List.length hsame) (Nat.ne_of_lt hlt)

/-- **Line breaks with a carriage return.**  A syntax test without carriage returns gets the same
messages with one in front of each line break just when each of its assertions in front of a line break
is closed, or has a last name that is known in both spellings. -/
theorem messages_withReturns_iff {t : Text} (ht : CodeUnit.ofBasic '\r' ∉ t) (r : Registry)
    (checks : Checks) :
    (validate t.withReturns .syntaxTest r checks).map (·.message) =
        (validate t .syntaxTest r checks).map (·.message) ↔
      (checks.unknownScopes = true → r.isEmpty = false → ∀ h, header? t = some h →
        ∀ line ∈ (Text.splitOn '\n' t).tail.dropLast, TakesReturn r h line) := by
  rw [messages_validate, messages_validate]
  cases checks.unknownScopes with
  | false => simp
  | true =>
      rw [testMessages, testMessages, SyntaxTest.header_withReturns ht,
        SyntaxTest.firstLine_withReturns ht, Text.splitOn_withReturns, Text.tail_returned]
      cases hheader : header? t with
      | none => simp
      | some h =>
          cases r.isEmpty with
          | true => simp
          | false =>
              have hstart := SyntaxTest.headerOfLine_start
                (Option.ite_none_left_eq_some.mp hheader).2
              have hlines : ∀ line ∈ (Text.splitOn '\n' t).tail, CodeUnit.ofBasic '\r' ∉ line :=
                fun line hline hmem =>
                  ht (Text.mem_of_mem_splitOn (List.mem_of_mem_tail hline) hmem)
              simp only [if_true, Bool.false_eq_true, if_false, forall_const, Option.some.injEq,
                forall_eq']
              rw [List.append_cancel_left_eq, messages_returned_iff hstart hlines]

/-- A test in block comments gets the same messages, as each assertion is closed. -/
theorem messages_withReturns_closed :
    let t := Text.ofString "/* SYNTAX TEST \"a.sublime-syntax\" */\n/* ^ b */\n"
    let r := Registry.after [.replace "A" [⟨"a.sublime-syntax", "A", "scope: a"⟩]]
    CodeUnit.ofBasic '\r' ∉ t ∧
      ((validate t.withReturns .syntaxTest r .all).map (·.message) =
          (validate t .syntaxTest r .all).map (·.message) ↔
        (Checks.all.unknownScopes = true → r.isEmpty = false → ∀ h, header? t = some h →
          ∀ line ∈ (Text.splitOn '\n' t).tail.dropLast, TakesReturn r h line)) ∧
      (validate t.withReturns .syntaxTest r .all).map (·.message) =
        (validate t .syntaxTest r .all).map (·.message) :=
  ⟨by decide, messages_withReturns_iff (by decide) _ _, by decide +kernel⟩

/-- A known scope at the end of a line is unknown with the carriage return. -/
theorem messages_withReturns_open :
    let t := Text.ofString "# SYNTAX TEST \"a.sublime-syntax\"\n# ^ a\n"
    let r := Registry.after [.replace "A" [⟨"a.sublime-syntax", "A", "scope: a"⟩]]
    CodeUnit.ofBasic '\r' ∉ t ∧ (validate t .syntaxTest r .all).map (·.message) = [] ∧
      (validate t.withReturns .syntaxTest r .all).map (·.message) =
        ["Unknown scope 'a\r'"] := by
  decide +kernel

end Validation
end Scopewright
