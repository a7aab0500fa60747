import Scopewright.Proofs.Json.Strings
import Scopewright.Proofs.Validation.Assertion

/-! # Where unknown scopes are told

The names of a selector are searched for from the front of its node.  Between names stand only units
with which no name begins (`Follows`), so that each name is found at its place once the first one is
(`locate_of_follows`).  In general the search goes wrong exactly when an unknown name is met before
its place (`MetEarly`, `located_eq_iff`). -/

namespace Scopewright
namespace Validation

open Document (Node Key)
open Schema (Position)
open Selector (Atom)

variable {t : Text} {r : Registry} {c start : ℕ}

/-! ### Selectors and what is told about them -/

/-- The nodes below and at a node where the schema has selectors, with the selectors. -/
def selectorNodes (root : Node) (schema : Position) : List (Node × Text) :=
  (visited root schema).filterMap fun (n, p) =>
    if p.kind = .scopeSelector then n.text?.map fun selector => (n, selector) else none

/-- The nodes of a document that hold selectors. -/
def documentSelectors (t : Text) (d : Dialect) : List (Node × Text) :=
  (Document.read t d.format).root.toList.flatMap fun root => selectorNodes root (Schema.root d)

/-- The findings about the selector of a node. -/
def nodeFindings (t : Text) (r : Registry) (s : Node × Text) : List Finding :=
  atomFindings t s.2 s.1.span.start.toNat s.1.span r

/-- An unknown name in a selector that is written from `c` on, told at its place. -/
def placedFinding (c : ℕ) (a : Atom) : Finding :=
  ⟨Span.ofLength (c + a.offset) a.name.length, .information,
    ("Unknown scope " : Text) ++ quoted a.name, .unknownScope⟩

/-- The unknown names in a selector that is written from `c` on, each told at its place. -/
def placedFindings (selector : Text) (c : ℕ) (r : Registry) : List Finding :=
  ((Selector.atoms selector).filter fun a => !Scope.isKnown r a.name).map (placedFinding c)

theorem selectorFindings_eq (hr : r.isEmpty = false) (root : Node) (schema : Position) :
    selectorFindings t root schema r = (selectorNodes root schema).flatMap (nodeFindings t r) := by
  rw [selectorFindings, hr, if_neg Bool.false_ne_true, selectorNodes]
  induction visited root schema with
  | nil => rfl
  | cons v vs ih =>
      obtain ⟨n, p⟩ := v
      rw [List.flatMap_cons, ih, List.filterMap_cons]
      by_cases hkind : p.kind = .scopeSelector
      · cases htext : n.text? with
        | none => simp [htext]
        | some selector => simp [htext, hkind, nodeFindings]
      · cases htext : n.text? with
        | none => simp [htext]
        | some selector => simp [htext, hkind]

/-- The unknown scopes of a document are those of its selectors, one behind the other. -/
theorem filter_treeFindings {d : Dialect} {checks : Checks} (hr : r.isEmpty = false)
    (hon : checks.unknownScopes = true) :
    (treeFindings t d r checks).filter (fun f => decide (f.code = .unknownScope)) =
      (documentSelectors t d).flatMap (nodeFindings t r) := by
  have hother {fs : List Finding} {k : Code} (hfs : ∀ f ∈ fs, f.code = k)
      (hk : k ≠ .unknownScope) : fs.filter (fun f => decide (f.code = .unknownScope)) = [] := by
    refine List.filter_eq_nil_iff.mpr fun f hf hcode => ?_
    rw [decide_eq_true_eq, hfs f hf] at hcode
    exact hk hcode
  have hwhen {on : Bool} {fs : List Finding} {k : Code} (hfs : ∀ f ∈ fs, f.code = k)
      (hk : k ≠ .unknownScope) :
      (when' on fs).filter (fun f => decide (f.code = .unknownScope)) = [] :=
    hother (fun f hf => hfs f (mem_when'_iff.mp hf).2) hk
  unfold treeFindings documentSelectors
  dsimp only
  rw [List.filter_append, hother (fun _ => code_parseFindings) nofun, List.nil_append]
  cases (Document.read t d.format).root with
  | none => rfl
  | some root =>
      have hselectors : (selectorFindings t root (Schema.root d) r).filter
          (fun f => decide (f.code = .unknownScope)) = selectorFindings t root (Schema.root d) r :=
        List.filter_eq_self.mpr fun f hf => decide_eq_true (code_selectorFindings hf)
      simp only [List.filter_append]
      rw [hother (fun _ => code_duplicateFindings) nofun,
        hwhen (fun _ => code_unknownKeyFindings) nofun, hwhen (fun _ => code_valueFindings) nofun,
        hwhen (fun _ => code_referenceFindings) nofun, hon, when', if_pos rfl, hselectors,
        selectorFindings_eq hr]
      simp

/-! ### Names in their places -/

/-- The unit stands between names, be it as a combinator or as an operator. -/
def IsSeparator (u : CodeUnit) : Prop :=
  Selector.isCombinator u = true ∨ u = CodeUnit.ofBasic '-'

/-- The names of a selector that is written from `c` on stand one behind the other at their places,
with nothing but separators between them and in front of the first one from `start` on. -/
def Follows (t : Text) (c start : ℕ) : List Atom → Prop
  | [] => True
  | a :: as =>
    ∃ gap rest, t.drop start = gap ++ a.name ++ rest ∧ start + gap.length = c + a.offset ∧
      (∀ u ∈ gap, IsSeparator u) ∧ Follows t c (c + a.offset + a.name.length) as

theorem follows_atomBefore {gap name rest : Text} {i : ℕ} {as : List Atom}
    (hdrop : t.drop start = gap ++ name ++ rest)
    (hstart : start + gap.length + name.length = c + i) (hi : name.length ≤ i)
    (hgap : ∀ u ∈ gap, IsSeparator u)
    (hrest : name = [] → Follows t c start as) (h : name ≠ [] → Follows t c (c + i) as) :
    Follows t c start (Selector.atomBefore name i ++ as) := by
  unfold Selector.atomBefore
  split
  · rename_i hname
    exact hrest (List.isEmpty_iff.mp hname)
  · rename_i hname
    have hplace : c + (i - name.length) + name.length = c + i := by omega
    refine ⟨gap, rest, hdrop, ?_, hgap, ?_⟩
    · simp only
      omega
    · simp only
      rw [hplace]
      exact h fun hnil => hname (List.isEmpty_iff.mpr hnil)

theorem follows_atomsFrom {s gap name more : Text} {i : ℕ}
    (hdrop : t.drop start = gap ++ name ++ (s ++ more))
    (hstart : start + gap.length + name.length = c + i) (hi : name.length ≤ i)
    (hgap : ∀ u ∈ gap, IsSeparator u) :
    Follows t c start (Selector.atomsFrom name i s) := by
  induction s generalizing start gap name i with
  | nil =>
      rw [Selector.atomsFrom, ← List.append_nil (Selector.atomBefore name i)]
      exact follows_atomBefore hdrop hstart hi hgap (fun _ => trivial) fun _ => trivial
  | cons u s ih =>
      rw [Selector.atomsFrom]
      split
      · rename_i hu
        refine follows_atomBefore hdrop hstart hi hgap (fun hname => ?_) fun hname => ?_
        · -- the gap goes on with the separator
          subst hname
          have hseparator : IsSeparator u := by
            rcases Bool.or_eq_true_iff.mp hu with hu | hu
            · exact .inl hu
            · exact .inr (of_decide_eq_true (Bool.and_eq_true_iff.mp hu).1)
          refine @ih start (gap ++ [u]) [] (i + 1) ?_ ?_ (Nat.zero_le _) ?_
          · rw [hdrop]
            simp
          · rw [List.length_append, List.length_singleton]
            omega
          · exact List.forall_mem_append.mpr ⟨hgap, List.forall_mem_singleton.mpr hseparator⟩
        · -- a gap begins, and with a combinator, as there is a name in front of it
          have hseparator : IsSeparator u := by
            rcases Bool.or_eq_true_iff.mp hu with hu | hu
            · exact .inl hu
            · exact absurd (List.isEmpty_iff.mp (Bool.and_eq_true_iff.mp hu).2) hname
          refine @ih (c + i) [u] [] (i + 1) ?_ rfl (Nat.zero_le _)
            (List.forall_mem_singleton.mpr hseparator)
          rw [← hstart, Nat.add_assoc, ← List.length_append, ← List.drop_drop, hdrop,
            List.drop_left]
          rfl
      · have hname : gap ++ (name ++ [u]) ++ (s ++ more) = gap ++ name ++ (u :: s ++ more) := by
          simp
        refine ih (hname ▸ hdrop) ?_ ?_ hgap
        · rw [List.length_append, List.length_singleton]
          omega
        · rw [List.length_append, List.length_singleton]
          omega

theorem follows_atoms {selector : Text} (h : selector <+: t.drop c) :
    Follows t c c (Selector.atoms selector) := by
  obtain ⟨more, hmore⟩ := h
  exact @follows_atomsFrom t c c selector [] [] more 0 hmore.symm rfl (Nat.zero_le 0)
    (List.forall_mem_nil _)

/-- What stands in a text behind units with which it does not begin is found there. -/
theorem findFrom_gap {gap name rest : Text} (hname : name ≠ [])
    (hgap : ∀ u ∈ gap, name.head? ≠ some u) (hdrop : t.drop start = gap ++ name ++ rest) :
    Text.findFrom? t name start = some (start + gap.length) := by
  have hfind : Text.find? name (gap ++ name ++ rest) = some gap.length := by
    clear hdrop
    obtain ⟨u, name, rfl⟩ := List.exists_cons_of_ne_nil hname
    induction gap with
    | nil => exact if_pos (List.isPrefixOf_iff_prefix.mpr (List.prefix_append _ rest))
    | cons v gap ih =>
        obtain ⟨hv, hgap⟩ := List.forall_mem_cons.mp hgap
        have hhere : ¬ (u :: name).isPrefixOf (v :: (gap ++ u :: name ++ rest)) = true := by
          intro hprefix
          have heads := (List.cons_prefix_cons.mp (List.isPrefixOf_iff_prefix.mp hprefix)).1
          exact hv (congrArg some heads)
        rw [List.cons_append, List.cons_append, Text.find?, if_neg hhere, ih hgap]
        rfl
  have hstart : start ≤ t.length := by
    by_contra hlt
    rw [List.drop_eq_nil_of_le (by omega)] at hdrop
    simp [hname] at hdrop
  rw [Text.findFrom?, hdrop, hfind, Nat.min_eq_left hstart]
  rfl

theorem head_ne_of_isSeparator {name : Text} (h : Selector.Plain name) {u : CodeUnit}
    (hu : IsSeparator u) : name.head? ≠ some u := by
  intro hhead
  rcases hu with hu | rfl
  · have hplain := h.1 u (List.mem_of_mem_head? hhead)
    rw [hplain] at hu
    cases hu
  · exact h.2 hhead

/-- Names that follow each other are found at their places. -/
theorem locate_of_follows {as : List Atom} (h : Follows t c start as)
    (hplain : ∀ a ∈ as, Selector.Plain a.name ∧ a.name ≠ []) (fallback : Span) :
    locate t fallback start (as.map (·.name)) =
      as.map fun a => (a.name, Span.ofLength (c + a.offset) a.name.length) := by
  induction as generalizing start with
  | nil => rfl
  | cons a as ih =>
      obtain ⟨⟨ha, hne⟩, hplain⟩ := List.forall_mem_cons.mp hplain
      obtain ⟨gap, rest, hdrop, hplace, hgap, h⟩ := h
      have hfound := findFrom_gap hne (fun u hu => head_ne_of_isSeparator ha (hgap u hu)) hdrop
      rw [List.map_cons, List.map_cons, locate, hfound, hplace]
      dsimp only
      rw [ih h hplain]

/-! ### Names met before their places -/

/-- The names of a selector that is written from `c` on stand at their places, the first one not in
front of `start`. -/
def InPlace (t : Text) (c start : ℕ) : List Atom → Prop
  | [] => True
  | a :: as =>
    start ≤ c + a.offset ∧ a.name <+: t.drop (c + a.offset) ∧
      InPlace t c (c + a.offset + a.name.length) as

theorem InPlace.mono {start' : ℕ} {as : List Atom} (h : InPlace t c start as)
    (hstart : start' ≤ start) : InPlace t c start' as := by
  cases as with
  | nil => exact h
  | cons a as => exact ⟨hstart.trans h.1, h.2⟩

theorem Follows.inPlace {as : List Atom} (h : Follows t c start as) : InPlace t c start as := by
  induction as generalizing start with
  | nil => trivial
  | cons a as ih =>
      obtain ⟨gap, rest, hdrop, hplace, -, h⟩ := h
      refine ⟨by omega, ?_, ih h⟩
      rw [← hplace, ← List.drop_drop, hdrop, List.append_assoc, List.drop_left]
      exact List.prefix_append _ rest

/-- On the way from `start` an unknown name is met before its place: the names up to it stand in the
text one behind the other, and the last of them ends before its place does. -/
def MetEarly (t : Text) (r : Registry) (c start : ℕ) (as : List Atom) : Prop :=
  ∃ before a behind stop, as = before ++ a :: behind ∧ Scope.isKnown r a.name = false ∧
    stop < c + a.offset + a.name.length ∧ InOrder t start stop ((before ++ [a]).map (·.name))

section met

variable {name : Text} {names : List Text} {stop j : ℕ}

theorem findFrom_spec (hstart : start ≤ t.length) (hj : Text.findFrom? t name start = some j) :
    start ≤ j ∧ name <+: t.drop j := by
  obtain ⟨k, hk, rfl⟩ := Option.map_eq_some_iff.mp hj
  have hprefix := Text.find_isPrefix hk
  rw [List.drop_drop] at hprefix
  rw [Nat.min_eq_left hstart]
  exact ⟨Nat.le_add_right start k, hprefix⟩

/-- When names stand in order, the first one may be taken where it is found. -/
theorem inOrder_cons_iff (hstart : start ≤ t.length)
    (hj : Text.findFrom? t name start = some j) :
    InOrder t start stop (name :: names) ↔ InOrder t (j + name.length) stop names := by
  constructor
  · rintro ⟨k, hk, hname, h⟩
    obtain ⟨j', -, hle, hfound⟩ := exists_findFrom hstart hk hname
    obtain rfl := Option.some.inj (hj.symm.trans hfound)
    exact h.mono (Nat.add_le_add_right hle name.length)
  · intro h
    obtain ⟨hle, hname⟩ := findFrom_spec hstart hj
    exact ⟨j, hle, hname, h⟩

theorem metEarly_cons_iff {a : Atom} {as : List Atom} (hstart : start ≤ t.length)
    (hj : Text.findFrom? t a.name start = some j) :
    MetEarly t r c start (a :: as) ↔
      (Scope.isKnown r a.name = false ∧ j < c + a.offset) ∨
        MetEarly t r c (j + a.name.length) as := by
  constructor
  · rintro ⟨before, b, behind, stop, heq, hunknown, hstop, h⟩
    cases before with
    | nil =>
        obtain ⟨rfl, -⟩ := List.cons.inj heq
        have hle : j + a.name.length ≤ stop := (inOrder_cons_iff hstart hj).mp h
        exact .inl ⟨hunknown, by omega⟩
    | cons a' before =>
        obtain ⟨rfl, rfl⟩ := List.cons.inj heq
        have hrest := (inOrder_cons_iff hstart hj).mp h
        exact .inr ⟨before, b, behind, stop, rfl, hunknown, hstop, hrest⟩
  · rintro (⟨hunknown, hlt⟩ | ⟨before, b, behind, stop, rfl, hunknown, hstop, h⟩)
    · have hmet : InOrder t start (j + a.name.length) [a.name] :=
        (inOrder_cons_iff hstart hj).mpr (Nat.le_refl _)
      exact ⟨[], a, as, _, rfl, hunknown, by omega, hmet⟩
    · have hwhole := (inOrder_cons_iff hstart hj).mpr h
      exact ⟨a :: before, b, behind, stop, rfl, hunknown, hstop, hwhole⟩

end met

theorem placedFinding_eq_iff {a : Atom} {j : ℕ} :
    (⟨Span.ofLength j a.name.length, .information, ("Unknown scope " : Text) ++ quoted a.name,
      .unknownScope⟩ : Finding) = placedFinding c a ↔ j = c + a.offset := by
  constructor
  · intro h
    have hspan := congrArg (fun f => f.span.start) h
    exact Int.ofNat_inj.mp hspan
  · rintro rfl
    rfl

/-- Of names that stand at their places the unknown ones are told there exactly when none is met
before. -/
theorem located_eq_iff {as : List Atom} (h : InPlace t c start as) (hne : ∀ a ∈ as, a.name ≠ [])
    (fallback : Span) :
    (((locate t fallback start (as.map (·.name))).filter fun p => !Scope.isKnown r p.1).map
        fun p => (⟨p.2, .information, ("Unknown scope " : Text) ++ quoted p.1, .unknownScope⟩ :
          Finding)) =
      ((as.filter fun a => !Scope.isKnown r a.name).map (placedFinding c)) ↔
      ¬ MetEarly t r c start as := by
  induction as generalizing start with
  | nil =>
      refine iff_of_true rfl ?_
      rintro ⟨before, a, behind, stop, heq, -⟩
      exact List.append_ne_nil_of_right_ne_nil before (List.cons_ne_nil a behind) heq.symm
  | cons a as ih =>
      obtain ⟨hname, hne⟩ := List.forall_mem_cons.mp hne
      obtain ⟨hle, hplace, h⟩ := h
      have hstart : start ≤ t.length := by
        have hlength := hplace.length_le
        have hpos := List.length_pos_iff.mpr hname
        rw [List.length_drop] at hlength
        omega
      obtain ⟨j, -, hj, hfound⟩ := exists_findFrom hstart hle hplace
      have hih := ih (h.mono (Nat.add_le_add_right hj a.name.length)) hne
      rw [metEarly_cons_iff hstart hfound, not_or, ← hih, List.map_cons, locate, hfound]
      dsimp only
      cases hknown : Scope.isKnown r a.name with
      | true =>
          rw [List.filter_cons_of_neg (by simp [hknown]),
            List.filter_cons_of_neg (by simp [hknown])]
          simp
      | false =>
          rw [List.filter_cons_of_pos (by simp [hknown]),
            List.filter_cons_of_pos (by simp [hknown]), List.map_cons, List.map_cons,
            List.cons.injEq, placedFinding_eq_iff]
          refine and_congr_left' ?_
          simp only [true_and, not_lt]
          omega

/-- The unknown names are told at their places exactly when none is met before. -/
theorem atomFindings_eq_iff {selector : Text} (hc : selector <+: t.drop c) (hstart : start ≤ c)
    (fallback : Span) :
    atomFindings t selector start fallback r = placedFindings selector c r ↔
      ¬ MetEarly t r c start (Selector.atoms selector) :=
  located_eq_iff ((follows_atoms hc).inPlace.mono hstart)
    (fun _ ha => (Selector.plain_of_mem_atoms ha).2) fallback

/-! ### Strings between quotes -/

theorem isSeparator_ne {u : CodeUnit} (hu : IsSeparator u) :
    u ≠ CodeUnit.ofBasic '"' ∧ u ≠ CodeUnit.ofBasic '\\' := by
  constructor
  · rintro rfl
    rcases hu with hu | hu
    · exact absurd hu (by decide)
    · exact absurd hu (by decide)
  · rintro rfl
    rcases hu with hu | hu
    · exact absurd hu (by decide)
    · exact absurd hu (by decide)

/-- Behind its opening quote a selector has all its names found at their places: the first one does
not begin with a quote. -/
theorem locate_behind_quote {selector body : Text}
    (hdrop : t.drop start = CodeUnit.ofBasic '"' :: body)
    (hvalue : selector = (Json.stringBody body).value) (hc : selector <+: t.drop (start + 1))
    (fallback : Span) :
    locate t fallback start ((Selector.atoms selector).map (·.name)) =
      (Selector.atoms selector).map fun a =>
        (a.name, Span.ofLength (start + 1 + a.offset) a.name.length) := by
  have hplain := fun a ha => @Selector.plain_of_mem_atoms selector a ha
  have hfollows := follows_atoms hc
  have hwithin : Follows selector 0 0 (Selector.atoms selector) :=
    follows_atoms (by rw [List.drop_zero])
  have hbody : t.drop (start + 1) = body := by
    rw [← List.drop_drop, hdrop]
    rfl
  cases hatoms : Selector.atoms selector with
  | nil => rfl
  | cons a as =>
      rw [hatoms] at hplain hfollows hwithin
      obtain ⟨⟨ha, hne⟩, hplain⟩ := List.forall_mem_cons.mp hplain
      obtain ⟨gap, rest, hgapdrop, hplace, hgap, hfollows⟩ := hfollows
      obtain ⟨gap', rest', hselector, hplace', -, -⟩ := hwithin
      have hquote : a.name.head? ≠ some (CodeUnit.ofBasic '"') := by
        intro hhead
        obtain ⟨name, hname⟩ := List.head?_eq_some_iff.mp hhead
        have hlength := Json.length_stringBody_le (fun u hu => isSeparator_ne (hgap u hu))
          (name ++ rest)
        have hbody' : body = gap ++ CodeUnit.ofBasic '"' :: (name ++ rest) := by
          rw [← hbody, hgapdrop, hname, List.append_assoc]
          rfl
        have hlonger := congrArg List.length hselector
        rw [← hbody', ← hvalue] at hlength
        rw [List.drop_zero, List.length_append, List.length_append, hname, List.length_cons]
          at hlonger
        omega
      have hfound : Text.findFrom? t a.name start =
          some (start + (CodeUnit.ofBasic '"' :: gap).length) := by
        refine @findFrom_gap t start (CodeUnit.ofBasic '"' :: gap) a.name rest hne ?_ ?_
        · refine List.forall_mem_cons.mpr ⟨hquote, fun u hu => ?_⟩
          exact head_ne_of_isSeparator ha (hgap u hu)
        · rw [hdrop, ← hbody, hgapdrop]
          rfl
      have hat : start + (CodeUnit.ofBasic '"' :: gap).length = start + 1 + a.offset := by
        rw [List.length_cons]
        omega
      rw [List.map_cons, List.map_cons, locate, hfound, hat]
      dsimp only
      rw [locate_of_follows hfollows hplain]

/-- Names that are found at their places are told there. -/
theorem atomFindings_of_locate {selector : Text} {fallback : Span}
    (h : locate t fallback start ((Selector.atoms selector).map (·.name)) =
      (Selector.atoms selector).map fun a =>
        (a.name, Span.ofLength (c + a.offset) a.name.length)) :
    atomFindings t selector start fallback r = placedFindings selector c r := by
  rw [atomFindings, h, placedFindings, List.filter_map, List.map_map]
  rfl

/-! ### Documents -/

mutual

/-- The nodes of which the schema knows something are nodes of the tree. -/
theorem mem_places_of_visited : ∀ (n : Node) {p : Position} {v : Node × Position},
    v ∈ visited n p → ∃ path, (path, v.1) ∈ n.places
  | .object span members, p, v, hv => by
      rw [visited] at hv
      rcases List.mem_cons.mp hv with rfl | hv
      · exact ⟨[], Document.self_mem_places _⟩
      · obtain ⟨path, hpath⟩ := mem_placesOfMembers_of_visited members hv
        exact ⟨path, List.mem_cons_of_mem _ hpath⟩
  | .array span items, p, v, hv => by
      rw [visited] at hv
      rcases List.mem_cons.mp hv with rfl | hv
      · exact ⟨[], Document.self_mem_places _⟩
      · split at hv
        · obtain ⟨path, hpath⟩ := mem_placesOfItems_of_visited items 0 hv
          exact ⟨path, List.mem_cons_of_mem _ hpath⟩
        · cases hv
  | .scalar span value, p, v, hv => by
      have hself := List.mem_singleton.mp hv
      rw [hself]
      exact ⟨[], Document.self_mem_places _⟩
  | .unknown span, p, v, hv => by
      have hself := List.mem_singleton.mp hv
      rw [hself]
      exact ⟨[], Document.self_mem_places _⟩

theorem mem_placesOfMembers_of_visited : ∀ (ms : List (Key × Node)) {p : Position}
    {v : Node × Position}, v ∈ visitedMembers ms p →
      ∃ path, (path, v.1) ∈ Document.placesOfMembers ms
  | [], p, v, hv => by cases hv
  | (k, n) :: ms, p, v, hv => by
      rw [visitedMembers] at hv
      have hrest (hv : v ∈ visitedMembers ms p) :
          ∃ path, (path, v.1) ∈ Document.placesOfMembers ((k, n) :: ms) := by
        obtain ⟨path, hpath⟩ := mem_placesOfMembers_of_visited ms hv
        exact ⟨path, List.mem_append_right _ hpath⟩
      split at hv
      · rcases List.mem_append.mp hv with hv | hv
        · obtain ⟨path, hpath⟩ := mem_places_of_visited n hv
          exact ⟨_, Document.mem_placesOfMembers List.mem_cons_self hpath⟩
        · exact hrest hv
      · exact hrest hv

theorem mem_placesOfItems_of_visited : ∀ (ns : List Node) (i : ℕ) {p : Position}
    {v : Node × Position}, v ∈ visitedItems ns p →
      ∃ path, (path, v.1) ∈ Document.placesOfItems i ns
  | [], i, p, v, hv => by cases hv
  | n :: ns, i, p, v, hv => by
      rw [visitedItems] at hv
      rcases List.mem_append.mp hv with hv | hv
      · obtain ⟨path, hpath⟩ := mem_places_of_visited n hv
        exact ⟨_, List.mem_append_left _ (List.mem_map.mpr ⟨_, hpath, rfl⟩)⟩
      · obtain ⟨path, hpath⟩ := mem_placesOfItems_of_visited ns (i + 1) hv
        exact ⟨path, List.mem_append_right _ hpath⟩

end

variable {d : Dialect} {s : Node × Text}

theorem exists_of_mem_documentSelectors (hs : s ∈ documentSelectors t d) :
    ∃ root, (Document.read t d.format).root = some root ∧ s.1.text? = some s.2 ∧
      ∃ path, (path, s.1) ∈ root.places := by
  obtain ⟨root, hroot, hs⟩ := List.mem_flatMap.mp hs
  obtain ⟨⟨n, p⟩, hv, hs⟩ := List.mem_filterMap.mp hs
  obtain ⟨-, hs⟩ := Option.ite_none_right_eq_some.mp hs
  obtain ⟨selector, htext, rfl⟩ := Option.map_eq_some_iff.mp hs
  exact ⟨root, Option.mem_toList.mp hroot, htext, mem_places_of_visited root hv⟩

/-- The unknown scopes that are told about a document are those of its selectors, sorted. -/
theorem filter_validate {checks : Checks} (hr : r.isEmpty = false)
    (hon : checks.unknownScopes = true) (hd : d ≠ .syntaxTest) :
    (validate t d r checks).filter (fun f => decide (f.code = .unknownScope)) =
      ((documentSelectors t d).flatMap (nodeFindings t r)).mergeSort Finding.le := by
  simp only [validate, if_neg hd]
  rw [filter_mergeSort Finding.le_trans Finding.le_total, filter_treeFindings hr hon]

/-- **Unknown scopes at their places.**  The unknown scopes that are told about a document are those
of its selectors.  Let one of them stand as it is in the text from `c` on, not in front of its node.
What is told about it are its unknown names in order, each at its place, exactly when none of them
is met before its place on the way from the front of the node.  In JSON, where a selector stands
right behind its opening quote, this is always so; in the markup formats a name may be met in the
start tag. -/
theorem nodeFindings_eq_iff (hr : r.isEmpty = false) (hs : s ∈ documentSelectors t d)
    (hstart : s.1.span.start.toNat ≤ c) (hc : s.2 <+: t.drop c) :
    (nodeFindings t r s = placedFindings s.2 c r ↔
      ¬ MetEarly t r c s.1.span.start.toNat (Selector.atoms s.2)) ∧
    (d.format = .json → c = s.1.span.start.toNat + 1 →
      nodeFindings t r s = placedFindings s.2 c r) ∧
    ∀ checks : Checks, checks.unknownScopes = true →
      (validate t d r checks).filter (fun f => decide (f.code = .unknownScope)) =
        ((documentSelectors t d).flatMap (nodeFindings t r)).mergeSort Finding.le := by
  obtain ⟨root, hroot, htext, path, hpath⟩ := exists_of_mem_documentSelectors hs
  refine ⟨atomFindings_eq_iff hc hstart _, fun hformat hplace => ?_, fun checks hon => ?_⟩
  · subst hplace
    rw [hformat] at hroot
    obtain ⟨body, hdrop, hvalue⟩ := Json.writtenAt_of_mem_places hroot hpath htext
    exact atomFindings_of_locate (locate_behind_quote hdrop hvalue hc _)
  · refine filter_validate hr hon ?_
    rintro rfl
    cases hroot

/-- The unknown one of two names in an element is told at its place: none is met in the start
tag. -/
theorem nodeFindings_eq_iff_element :
    let t : Text := "<dict><key>scope</key><string>a b</string></dict>"
    let r := Registry.after [.replace "A" [⟨"a.sublime-syntax", "A", "scope: a"⟩]]
    ∃ s ∈ documentSelectors t .tmPreferences, r.isEmpty = false ∧ s.1.span.start.toNat ≤ 30 ∧
      s.2 <+: t.drop 30 ∧ nodeFindings t r s = [placedFinding 30 ⟨"b", 2⟩] ∧
      ¬ MetEarly t r 30 22 (Selector.atoms s.2) := by
  intro t r
  have hselectors : (documentSelectors t .tmPreferences).map
      (fun s => (s.1.span, s.2, nodeFindings t r s)) =
        [(⟨22, 42⟩, Text.ofString "a b", [placedFinding 30 ⟨"b", 2⟩])] := by decide +kernel
  obtain ⟨s, hsingle, heq⟩ := List.map_eq_singleton_iff.mp hselectors
  obtain ⟨hspan, hrest⟩ := Prod.mk.inj heq
  obtain ⟨hselector, hfindings⟩ := Prod.mk.inj hrest
  have hs : s ∈ documentSelectors t .tmPreferences := hsingle ▸ List.mem_singleton_self s
  have hr : r.isEmpty = false := by decide +kernel
  have hstart : s.1.span.start.toNat = 22 := by rw [hspan]; rfl
  have hc : s.2 <+: t.drop 30 := by rw [hselector]; decide
  have hplaced : nodeFindings t r s = placedFindings s.2 30 r := by
    rw [hfindings, hselector]
    decide +kernel
  refine ⟨s, hs, hr, by omega, hc, hfindings, ?_⟩
  rw [← hstart]
  exact (nodeFindings_eq_iff hr hs (by omega) hc).1.mp hplaced

/-- A name is met in the start tag of the element that holds it. -/
theorem nodeFindings_in_tag :
    let t : Text := "<dict><key>scope</key><string>s</string></dict>"
    let r := Registry.after [.replace "A" [⟨"a.sublime-syntax", "A", "scope: a"⟩]]
    r.isEmpty = false ∧
      (documentSelectors t .tmPreferences).map (fun s => (s.1.span, s.2)) =
        [(⟨22, 40⟩, Text.ofString "s")] ∧
      t.between 22 30 = Text.ofString "<string>" ∧ Text.ofString "s" <+: t.drop 30 ∧
      (documentSelectors t .tmPreferences).flatMap (nodeFindings t r) ≠
        placedFindings "s" 30 r := by
  decide +kernel

end Validation
end Scopewright
