import Scopewright.Completion.Suggestion
import Scopewright.Document.Read
import Scopewright.Proofs.Text.Class
import Scopewright.Proofs.Text.Words
import Scopewright.Validation.Validate

/-! # Offered references to variables

A color scheme defines variables, and a reference to each of them is offered where a color stands
(`Color.reference`).  Any text may be the name of a variable, but in a reference only words with minus
signs are read.  So an offered reference is the value of a color exactly when the name is such a word,
white space at its ends aside (`Completion.reference_isValue_iff`). -/

namespace Scopewright

namespace Text

namespace LowerCase

theorem codePoints_append {p : Text} (hp : ∀ c ∈ p, c.isLeadSurrogate = false) (t : Text) :
    codePoints (p ++ t) = p.map CodeUnit.toNat ++ codePoints t := by
  induction p with
  | nil => rfl
  | cons c p ih =>
      obtain ⟨hc, hp⟩ := List.forall_mem_cons.mp hp
      rw [List.map_cons, List.cons_append, List.cons_append, ← ih hp]
      cases p ++ t with
      | nil => rfl
      | cons d r => rw [codePoints, hc, Bool.false_and, if_neg Bool.false_ne_true]

theorem ofCodePoints_append {p : List ℕ} (hp : ∀ n ∈ p, n < 128 ∧ ¬ (65 ≤ n ∧ n ≤ 90))
    (before r : List ℕ) :
    ofCodePoints before (p ++ r) = p ++ ofCodePoints (p.reverse ++ before) r := by
  induction p generalizing before with
  | nil => rfl
  | cons n p ih =>
      obtain ⟨⟨hn, hcapital⟩, hp⟩ := List.forall_mem_cons.mp hp
      have hsigma : n ≠ 0x3A3 := by omega
      rw [List.cons_append, ofCodePoints, if_neg hsigma, ofCodePoint, if_pos hn, if_neg hcapital,
        ih hp, List.reverse_cons, List.append_assoc]
      rfl

end LowerCase

/-- ASCII text without capital letters stays what it is in lower case, whatever follows. -/
theorem toLower_append {p : Text} (hp : ∀ c ∈ p, c.toNat < 128 ∧ ¬ (65 ≤ c.toNat ∧ c.toNat ≤ 90))
    (t : Text) : p <+: toLower (p ++ t) := by
  have hlead : ∀ c ∈ p, c.isLeadSurrogate = false := by
    intro c hc
    have hascii := (hp c hc).1
    rw [Bool.eq_false_iff, CodeUnit.isLeadSurrogate, Ne, CodeUnit.within_iff,
      CodeUnit.toNat_ofNat (by decide)]
    omega
  have hunits : (p.map CodeUnit.toNat).flatMap CodeUnit.ofCodePoint = p := by
    rw [List.flatMap_map]
    refine (List.flatMap_congr fun c hc => ?_).trans (List.flatMap_singleton' p)
    have hascii := (hp c hc).1
    rw [CodeUnit.ofCodePoint, if_pos (by omega), CodeUnit.ofNat_toNat]
  rw [toLower, LowerCase.codePoints_append hlead, LowerCase.ofCodePoints_append, List.flatMap_append,
    hunits]
  · exact List.prefix_append p _
  · exact List.forall_mem_map.mpr hp

end Text

namespace Color

variable {name : Text}

/-- A reference to a variable. -/
def reference (name : Text) : Text := ("var(" : Text) ++ name ++ (")" : Text)

/-- A name that can be referred to: a word that may have minus signs, white space at its ends aside. -/
def IsVariable (name : Text) : Prop := name.trim ≠ [] ∧ ∀ c ∈ name.trim, isNameUnit c = true

theorem not_blank_of_isNameUnit {c : CodeUnit} (h : isNameUnit c = true) : c.isBlank = false := by
  rcases Bool.or_eq_true_iff.mp h with hword | hminus
  · exact CodeUnit.isBlank_of_isWord hword
  · rw [of_decide_eq_true hminus]
    decide

theorem argument_reference (name : Text) : argument? "var" (reference name) = some name := by
  have hfront : ("var" : Text) ++ ("(" : Text) <+: reference name :=
    ⟨name ++ (")" : Text), (List.append_assoc _ name _).symm⟩
  have hlast : (reference name).getLast? = some (CodeUnit.ofBasic ')') := List.getLast?_concat
  have hlength : (("var" : Text) ++ ("(" : Text)).length < (reference name).length := by
    simp only [reference, List.length_append]
    exact Nat.lt_add_of_pos_right (Nat.zero_lt_succ _)
  have hdrop : (reference name).drop (("var" : Text) ++ ("(" : Text)).length =
      name ++ [CodeUnit.ofBasic ')'] := rfl
  simp only [argument?]
  rw [if_pos ⟨List.isPrefixOf_iff_prefix.mpr hfront, hlength, hlast⟩, hdrop, List.dropLast_concat]

/-- A reference is read just when its name can be referred to. -/
theorem isReference_reference_iff : isReference (reference name) = true ↔ IsVariable name := by
  simp only [isReference, argument_reference, Bool.and_eq_true, Bool.not_eq_true',
    List.isEmpty_eq_false_iff, List.all_eq_true]
  constructor
  · rintro ⟨hne, hrest⟩
    obtain ⟨w, hw⟩ : ∃ w, w = name.trimStart.takeWhile isNameUnit := ⟨_, rfl⟩
    have hunits : ∀ c ∈ w, isNameUnit c = true := fun c hc => List.mem_takeWhile_imp (hw ▸ hc)
    rw [← hw] at hne hrest
    have htrim : name.trim = w := by
      have hsplit := List.prefix_iff_eq_append.mp (hw ▸ List.takeWhile_prefix isNameUnit)
      rw [Text.trim, ← hsplit]
      exact Text.trimEnd_append
        (fun c hc => not_blank_of_isNameUnit (hunits c (List.mem_of_getLast? hc))) hrest
    rw [IsVariable, htrim]
    exact ⟨hne, hunits⟩
  · rintro ⟨hne, hunits⟩
    obtain ⟨blanks, hblanks, hname⟩ := Text.exists_blanks_trimEnd name.trimStart
    have htake : name.trimStart.takeWhile isNameUnit = name.trim := by
      rw [hname]
      refine (Text.span_append hunits fun c hc => ?_).1
      have hblank := hblanks c (List.mem_of_mem_head? hc)
      refine Bool.eq_false_iff.mpr fun hunit => ?_
      rw [not_blank_of_isNameUnit hunit] at hblank
      cases hblank
    rw [htake]
    refine ⟨hne, fun c hc => hblanks c ?_⟩
    rw [hname] at hc
    rwa [Text.trim, List.drop_left] at hc

theorem trim_reference (name : Text) : (reference name).trim = reference name := by
  have hstart : (reference name).trimStart = reference name := rfl
  rw [Text.trim, hstart]
  refine Text.trimEnd_of_last fun c hc => ?_
  rw [reference, show (")" : Text) = [CodeUnit.ofBasic ')'] from rfl, List.getLast?_concat] at hc
  rw [← Option.some.inj hc]
  decide

/-- A reference is the value of a color just when its name can be referred to. -/
theorem isValue_reference_iff : isValue (reference name) = true ↔ IsVariable name := by
  have hhex : isHex (reference name) = false := rfl
  have hcall : isCall (reference name) = false := rfl
  have hname : names.contains (reference name).toLower = false := by
    have hlower : ("var(" : Text) <+: (reference name).toLower := by
      rw [reference, List.append_assoc]
      exact Text.toLower_append (by decide) _
    have hnames : ∀ n ∈ names, ¬ ("var(" : Text) <+: n := by decide +kernel
    refine Bool.eq_false_iff.mpr fun hcontains => ?_
    exact hnames _ (List.contains_iff_mem.mp hcontains) hlower
  rw [isValue, trim_reference, hhex, hname, hcall, Bool.false_or, Bool.false_or, Bool.or_false,
    isReference_reference_iff]

end Color

namespace Completion

open Document (Node)
open Schema (Position)

theorem mem_keysOf {n : Option Node} {name : Text} :
    name ∈ Names.keysOf n ↔ name ≠ [] ∧ ∃ node ∈ n, ∃ m ∈ node.members, m.1.name = name := by
  rw [Names.keysOf, List.mem_eraseDups, List.mem_filter, and_comm]
  cases n with
  | none => simp
  | some node => simp

/-- A color scheme defines the keys of its variables, but for the empty one. -/
theorem mem_variableNames {t name : Text} :
    name ∈ (Names.ofDocument t .colorScheme).variableNames ↔
      name ≠ [] ∧ ∃ root node, (Document.read t .json).root = some root ∧
        root.child? "variables" = some node ∧ ∃ m ∈ node.members, m.1.name = name := by
  refine mem_keysOf.trans (and_congr_right fun _ => ?_)
  constructor
  · rintro ⟨node, hnode, hmember⟩
    obtain ⟨root, hroot, hchild⟩ := Option.bind_eq_some_iff.mp hnode
    exact ⟨root, node, hroot, hchild, hmember⟩
  · rintro ⟨root, node, hroot, hchild, hmember⟩
    exact ⟨node, Option.bind_eq_some_iff.mpr ⟨root, hroot, hchild⟩, hmember⟩

theorem exists_reference {names : List Text} {name : Text} (hname : name ∈ names)
    (token : Cursor.Token) :
    ∃ s ∈ (suggestColors names token).suggestions, s.label = Color.reference name :=
  ⟨_, List.mem_append_left _ (List.mem_append_left _ (List.mem_map_of_mem hname)), rfl⟩

theorem valueProblem_color_iff {p : Position} (hp : p.kind = .color) (value : Text) :
    Validation.valueProblem? (.string value) p = none ↔ Color.isValue value = true := by
  simp [Validation.valueProblem?, hp]

/-- **Offered references.**  The variables of a color scheme are the keys of its mapping of variables,
but for the empty one, and a reference to each of them is offered where a color stands.  It is the
value of a color, and nothing is told about it there, just when its name is a word that may have minus
signs, white space at its ends aside. -/
theorem reference_isValue_iff (t : Text) :
    (∀ name, name ∈ (Names.ofDocument t .colorScheme).variableNames ↔
      name ≠ [] ∧ ∃ root node, (Document.read t .json).root = some root ∧
        root.child? "variables" = some node ∧ ∃ m ∈ node.members, m.1.name = name) ∧
    ∀ name ∈ (Names.ofDocument t .colorScheme).variableNames,
      (∀ token, ∃ s ∈ (suggestColors (Names.ofDocument t .colorScheme).variableNames
        token).suggestions, s.label = Color.reference name) ∧
      (Color.isValue (Color.reference name) = true ↔ Color.IsVariable name) ∧
      ∀ p : Position, p.kind = .color →
        (Validation.valueProblem? (.string (Color.reference name)) p = none ↔
          Color.IsVariable name) := by
  refine ⟨fun name => mem_variableNames, fun name hname => ⟨fun token => ?_, ?_, fun p hp => ?_⟩⟩
  · exact exists_reference hname token
  · exact Color.isValue_reference_iff
  · exact (valueProblem_color_iff hp _).trans Color.isValue_reference_iff

/-- A variable whose name has a blank between two words is offered, and its reference is not the value
of a color, but it may stand in a function. -/
theorem reference_isValue_blank :
    (Names.ofDocument "\x7b\"variables\":\x7b\"my color\":\"#fff\"\x7d\x7d"
        .colorScheme).variableNames = [Text.ofString "my color"] ∧
      Color.reference "my color" = "var(my color)" ∧
      Color.isValue "var(my color)" = false ∧ Color.isValue "color(var(my color))" = true := by
  have hread : (Document.read "\x7b\"variables\":\x7b\"my color\":\"#fff\"\x7d\x7d" .json).root =
      some (.object ⟨0, 33⟩ [(⟨"variables", ⟨1, 12⟩⟩,
        .object ⟨13, 32⟩ [(⟨"my color", ⟨14, 24⟩⟩, .scalar ⟨25, 31⟩ (.string "#fff"))])]) := by
    cbv
  have hvariable : ¬ Color.IsVariable "my color" := fun h => absurd (h.2 ' ') (by decide)
  have hcall : Color.isCall (Text.trim "color(var(my color))") = true := by decide
  refine ⟨?_, rfl, ?_, ?_⟩
  · simp only [Names.ofDocument, Dialect.format, hread]
    rfl
  · exact Bool.eq_false_iff.mpr fun h => hvariable (Color.isValue_reference_iff.mp h)
  · rw [Color.isValue, hcall, Bool.or_true]

end Completion
end Scopewright
