import Scopewright.Proofs.Markup.Reference
import Scopewright.Proofs.Text.Class

/-! # What character data stands for

What a text decodes to is told by its references alone (`Reference.Decodes`): those with a name of
a table, and those with the number of a code point, are replaced from left to right, and every
other unit is copied.  A number above the last code point is no character (`Reference.Excessive`).

The reader refuses the texts with such a number, and of any other text it gives what the table
decodes to that has the names of `Reference.bound` beside the entities.  Each of those stands for
more units than it is written with, so what is read is what the entities decode to exactly when
no reference has one of these names (`read_decoding`). -/

namespace Scopewright
namespace Markup
namespace Reference

/-- The body of a reference by number: decimal digits, or hexadecimal ones behind an `x`. -/
inductive Numbers : Text → Nat → Prop where
  | decimal {ds : Text} (hne : ds ≠ []) (hds : ∀ c ∈ ds, c.isDigit = true) :
      Numbers ('#' :: ds) (Text.natValue ds 10)
  | hexadecimal {ds : Text} (hne : ds ≠ []) (hds : ∀ c ∈ ds, c.isHexDigit = true) :
      Numbers ('#' :: 'x' :: ds) (Text.natValue ds 16)

/-- A number above the last code point. -/
def Excessive (b : Text) : Prop := ∃ n, Numbers b n ∧ 0x10FFFF < n

/-- A name that is bound without being an entity. -/
def IsBound (b : Text) : Prop := ∃ v, bound.lookup b = some v

/-- The text has a reference whose body is of a kind. -/
def Mentions (kind : Text → Prop) (t : Text) : Prop := ∃ b, kind b ∧ written b <:+: t

/-- What the body of a reference stands for, with the names of a table. -/
inductive Denotes (names : List (Text × Text)) : Text → Text → Prop where
  | name {b v : Text} (h : names.lookup b = some v) : Denotes names b v
  | number {b : Text} {n : Nat} (h : Numbers b n) (hle : n ≤ 0x10FFFF) :
      Denotes names b (CodeUnit.ofCodePoint n)

/-- What a text decodes to, with the names of a table. -/
inductive Decodes (names : List (Text × Text)) : Text → Text → Prop where
  | nil : Decodes names [] []
  | reference {b v rest w : Text} (h : Denotes names b v) (hrest : Decodes names rest w) :
      Decodes names (written b ++ rest) (v ++ w)
  | copied {c : CodeUnit} {r w : Text}
      (h : ∀ b v, Denotes names b v → ¬ written b <+: c :: r) (hrest : Decodes names r w) :
      Decodes names (c :: r) (c :: w)

/-- What a reference becomes: what its body stands for, or else itself. -/
def Becomes (names : List (Text × Text)) (b v : Text) : Prop :=
  Denotes names b v ∨ (∀ u, ¬ Denotes names b u) ∧ v = written b

/-- The entities with what they stand for. -/
def entities : List (Text × Text) := named.map fun e => (e.1, [e.2])

variable {names : List (Text × Text)} {t u v w b b' rest : Text} {c : CodeUnit} {r : Text} {n : ℕ}

/-! ### The bodies of references -/

theorem numbers_of_number? (h : number? ['x'] r = some n) : Numbers ('#' :: r) n := by
  cases r with
  | nil => cases h
  | cons c ds =>
      rw [number?] at h
      split at h
      · obtain rfl : c = CodeUnit.ofBasic 'x' := List.mem_singleton.mp ‹_›
        split at h
        · obtain rfl := Option.some.inj h
          exact .hexadecimal (And.left ‹_›) (List.all_eq_true.mp (And.right ‹_›))
        · cases h
      · split at h
        · obtain rfl := Option.some.inj h
          exact .decimal (List.cons_ne_nil c ds) (List.all_eq_true.mp ‹_›)
        · cases h

theorem Numbers.exists_number? (h : Numbers b n) :
    ∃ r, b = CodeUnit.ofBasic '#' :: r ∧ number? ['x'] r = some n := by
  cases h with
  | @decimal ds hne hds =>
      refine ⟨ds, rfl, ?_⟩
      cases ds with
      | nil => exact absurd rfl hne
      | cons c ds =>
          have hx : c ∉ [CodeUnit.ofBasic 'x'] := by
            rw [List.mem_singleton]
            rintro rfl
            exact absurd (hds _ List.mem_cons_self) (by decide)
          rw [number?, if_neg hx, if_pos (List.all_eq_true.mpr hds)]
  | @hexadecimal ds hne hds =>
      refine ⟨CodeUnit.ofBasic 'x' :: ds, rfl, ?_⟩
      rw [number?, if_pos List.mem_cons_self, if_pos ⟨hne, List.all_eq_true.mpr hds⟩]

theorem Numbers.unique {m : ℕ} (h : Numbers b n) (h' : Numbers b m) : n = m := by
  obtain ⟨r, rfl, hn⟩ := h.exists_number?
  obtain ⟨r', hr, hm⟩ := h'.exists_number?
  rw [← (List.cons.inj hr).2, hn] at hm
  exact Option.some.inj hm

theorem typed?_of_numbers (h : Numbers b n) : typed? b = some (ofNumber n) := by
  obtain ⟨r, rfl, hn⟩ := h.exists_number?
  rw [typed?, if_pos rfl, hn]
  rfl

theorem lookup_entities (b : Text) : entities.lookup b = (named.lookup b).map fun d => [d] := by
  rw [entities]
  induction named with
  | nil => rfl
  | cons e es ih =>
      rw [List.map_cons, List.lookup_cons, List.lookup_cons, ih]
      cases b == e.1 <;> rfl

/-- A name is a word; with none that is bound it stands for itself. -/
theorem typed?_of_isWord (hne : b ≠ []) (hb : ∀ c ∈ b, c.isWord = true) :
    typed? b = some (.ok (((entities ++ bound).lookup b).getD (written b))) := by
  cases b with
  | nil => exact absurd rfl hne
  | cons c r =>
      have hc : c ≠ '#' := CodeUnit.ne_of_isWord (hb c List.mem_cons_self) (by decide)
      rw [typed?, if_neg hc, if_pos (List.all_eq_true.mpr hb), List.lookup_append, lookup_entities]
      cases named.lookup (c :: r) <;> rfl

/-- **The bodies of references** are numbers and words. -/
theorem typed?_cases {x : Except OutOfRange Text} (h : typed? b = some x) :
    (∃ n, Numbers b n ∧ x = ofNumber n) ∨
    ((∀ n, ¬ Numbers b n) ∧ (∀ c ∈ b, c.isWord = true) ∧
      x = .ok (((entities ++ bound).lookup b).getD (written b))) := by
  cases b with
  | nil => cases h
  | cons c r =>
      rw [typed?] at h
      split at h
      · obtain rfl : c = CodeUnit.ofBasic '#' := ‹_›
        obtain ⟨n, hn, rfl⟩ := Option.map_eq_some_iff.mp h
        exact .inl ⟨n, numbers_of_number? hn, rfl⟩
      · have hc : c ≠ CodeUnit.ofBasic '#' := ‹_›
        split at h
        · have hword := List.all_eq_true.mp ‹_›
          refine .inr ⟨fun n hn => ?_, hword, ?_⟩
          · obtain ⟨_, hr, _⟩ := hn.exists_number?
            exact hc (List.cons.inj hr).1
          · have htyped := typed?_of_isWord (List.cons_ne_nil c r) hword
            rw [typed?, if_neg hc, if_pos ‹_›] at htyped
            exact Option.some.inj (h.symm.trans htyped)
        · cases h

/-! ### References in a text -/

theorem isBodyUnit_of_typed? (h : (typed? b).isSome) :
    ∀ c ∈ b, (c.isWord || decide (c = '#')) = true := by
  have hword {ds : Text} (hds : ∀ c ∈ ds, c.isWord = true) :
      ∀ c ∈ ds, (c.isWord || decide (c = '#')) = true :=
    fun c hc => (Bool.or_eq_true _ _).mpr (.inl (hds c hc))
  obtain ⟨x, hx⟩ := Option.isSome_iff_exists.mp h
  rcases typed?_cases hx with ⟨n, hn, -⟩ | ⟨-, hb, -⟩
  · cases hn with
    | decimal _ hds =>
        refine List.forall_mem_cons.mpr ⟨by decide, ?_⟩
        exact hword fun c hc => CodeUnit.isWord_of_isDigit (hds c hc)
    | hexadecimal _ hds =>
        refine List.forall_mem_cons.mpr ⟨by decide, List.forall_mem_cons.mpr ⟨by decide, ?_⟩⟩
        exact hword fun c hc => CodeUnit.isWord_of_isHexDigit (hds c hc)
  · exact hword hb

theorem written_append (b rest : Text) :
    written b ++ rest = CodeUnit.ofBasic '&' :: (b ++ CodeUnit.ofBasic ';' :: rest) := by
  rw [written, List.append_assoc]
  rfl

theorem written_eq_cons (b rest : Text) :
    written b ++ rest = CodeUnit.ofBasic '&' :: (b ++ [CodeUnit.ofBasic ';'] ++ rest) := by
  rw [written_append, List.append_assoc]
  rfl

/-- Behind its ampersand a reference has no other one. -/
theorem notMem_of_typed? (h : (typed? b).isSome) :
    CodeUnit.ofBasic '&' ∉ b ++ [CodeUnit.ofBasic ';'] := by
  rw [List.mem_append, not_or]
  exact ⟨fun hb => absurd (isBodyUnit_of_typed? h _ hb) (by decide), by decide⟩

theorem head_eq_of_written (h : written b <+: c :: r) : c = '&' := by
  obtain ⟨rest, hrest⟩ := h
  rw [written_append] at hrest
  exact (List.cons.inj hrest).1.symm

theorem body?_written (h : (typed? b).isSome) (rest : Text) :
    body? (written b ++ rest) = some b := by
  have hend : bodyEnd (b ++ CodeUnit.ofBasic ';' :: rest) = b := by
    rw [bodyEnd, List.takeWhile_append_of_pos (isBodyUnit_of_typed? h),
      List.takeWhile_cons_of_neg (by decide), List.append_nil]
  rw [written_append, body?, hend, List.drop_left, if_pos ⟨rfl, rfl, h⟩]

theorem written_append_inj (h : (typed? b).isSome) (h' : (typed? b').isSome)
    (heq : written b ++ t = written b' ++ u) : b = b' ∧ t = u := by
  have hb := body?_written h t
  rw [heq, body?_written h' u] at hb
  obtain rfl := Option.some.inj hb
  exact ⟨rfl, List.append_cancel_left heq⟩

theorem written_infix_append (hr : CodeUnit.ofBasic '&' ∉ r) :
    written b <:+: r ++ t ↔ written b <:+: t := by
  induction r with
  | nil => rfl
  | cons c r ih =>
      rw [List.mem_cons, not_or] at hr
      rw [List.cons_append, List.infix_cons_iff, ih hr.2, or_iff_right]
      exact fun h => hr.1 (head_eq_of_written h).symm

theorem not_mentions_nil {kind : Text → Prop} : ¬ Mentions kind [] := by
  rintro ⟨b, -, hb⟩
  exact absurd (congrArg List.length (List.infix_nil.mp hb)) (Nat.succ_ne_zero _)

section mentions

variable {kind : Text → Prop} (hkind : ∀ b, kind b → (typed? b).isSome)
include hkind

theorem mentions_cons (hbody : body? (c :: r) = none) :
    Mentions kind (c :: r) ↔ Mentions kind r := by
  refine exists_congr fun b => and_congr_right fun hb => ?_
  rw [List.infix_cons_iff, or_iff_right]
  rintro ⟨rest, hrest⟩
  rw [← hrest, body?_written (hkind b hb)] at hbody
  cases hbody

theorem mentions_written (hb : (typed? b).isSome) :
    Mentions kind (written b ++ rest) ↔ kind b ∨ Mentions kind rest := by
  have hoccurs (b' : Text) (hb' : kind b') :
      written b' <:+: written b ++ rest ↔ b' = b ∨ written b' <:+: rest := by
    rw [written_eq_cons, List.infix_cons_iff, written_infix_append (notMem_of_typed? hb),
      ← written_eq_cons]
    refine or_congr_left ⟨?_, ?_⟩
    · rintro ⟨u, hu⟩
      exact (written_append_inj (hkind b' hb') hb hu).1
    · rintro rfl
      exact List.prefix_append _ _
  constructor
  · rintro ⟨b', hb', hin⟩
    rcases (hoccurs b' hb').mp hin with rfl | hrest
    · exact .inl hb'
    · exact .inr ⟨b', hb', hrest⟩
  · rintro (hb' | ⟨b', hb', hrest⟩)
    · exact ⟨b, hb', (hoccurs b hb').mpr (.inl rfl)⟩
    · exact ⟨b', hb', (hoccurs b' hb').mpr (.inr hrest)⟩

end mentions

/-- A text is read unit by unit and reference by reference. -/
theorem read_induction {motive : Text → Prop} (nil : motive [])
    (unit : ∀ c r, body? (c :: r) = none → read (c :: r) = (read r).map (c :: ·) → motive r →
      motive (c :: r))
    (reference : ∀ b x rest, typed? b = some x →
      read (written b ++ rest) = x.bind (fun v => (read rest).map (v ++ ·)) → motive rest →
      motive (written b ++ rest)) (t : Text) : motive t := by
  -- a reference takes several units at once, so the induction is on how many are left
  induction hlength : t.length using Nat.strong_induction_on generalizing t with
  | _ n ih =>
    subst hlength
    cases t with
    | nil => exact nil
    | cons c r =>
        rcases read_cases c r with ⟨hbody, hread⟩ | ⟨b, x, rest, -, htyped, -, hr, hread⟩
        · exact unit c r hbody hread (ih r.length (Nat.lt_succ_self _) r rfl)
        · rw [hr] at hread ih ⊢
          refine reference b x rest htyped hread (ih rest.length ?_ rest rfl)
          rw [written_append, List.length_cons, List.length_append, List.length_cons]
          omega

/-! ### Texts that are refused -/

theorem Excessive.isSome_typed? (h : Excessive b) : (typed? b).isSome := by
  obtain ⟨n, hn, -⟩ := h
  rw [typed?_of_numbers hn]
  rfl

theorem ofNumber_eq_ok_iff : ofNumber n = .ok v ↔ n ≤ 0x10FFFF ∧ v = CodeUnit.ofCodePoint n := by
  rw [ofNumber]
  split
  · exact ⟨fun h => (by cases h), fun h => absurd h.1 (Nat.not_le.mpr ‹_›)⟩
  · exact ⟨fun h => ⟨Nat.not_lt.mp ‹_›, (Except.ok.inj h).symm⟩, fun h => congrArg _ h.2.symm⟩

theorem excessive_iff {x : Except OutOfRange Text} (h : typed? b = some x) :
    Excessive b ↔ ∃ e, x = .error e := by
  constructor
  · rintro ⟨n, hn, hlt⟩
    rw [typed?_of_numbers hn, ofNumber, if_pos hlt] at h
    exact ⟨⟨n⟩, (Option.some.inj h).symm⟩
  · rintro ⟨e, rfl⟩
    rcases typed?_cases h with ⟨n, hn, hx⟩ | ⟨-, -, hx⟩
    · refine ⟨n, hn, Nat.lt_of_not_le fun hle => ?_⟩
      rw [ofNumber_eq_ok_iff.mpr ⟨hle, rfl⟩] at hx
      cases hx
    · cases hx

/-- **The refused texts** are those with a number above the last code point. -/
theorem exists_error_iff (t : Text) : (∃ e, read t = .error e) ↔ Mentions Excessive t := by
  induction t using read_induction with
  | nil => exact ⟨fun ⟨_, h⟩ => (by cases h), fun h => absurd h not_mentions_nil⟩
  | unit c r hbody hread ih =>
      rw [mentions_cons (fun _ h => h.isSome_typed?) hbody, ← ih, hread]
      cases read r with
      | ok v => exact ⟨fun ⟨_, h⟩ => (by cases h), fun ⟨_, h⟩ => (by cases h)⟩
      | error e => exact ⟨fun _ => ⟨e, rfl⟩, fun _ => ⟨e, rfl⟩⟩
  | reference b x rest htyped hread ih =>
      have hb : (typed? b).isSome := Option.isSome_iff_exists.mpr ⟨x, htyped⟩
      rw [mentions_written (fun _ h => h.isSome_typed?) hb, ← ih, hread, excessive_iff htyped]
      cases x with
      | error e => exact ⟨fun _ => .inl ⟨e, rfl⟩, fun _ => ⟨e, rfl⟩⟩
      | ok v =>
          cases read rest with
          | ok w => simp [Except.bind, Except.map]
          | error e => exact ⟨fun _ => .inr ⟨e, rfl⟩, fun _ => ⟨e, rfl⟩⟩

/-! ### What a table has a text decode to -/

theorem mem_of_lookup (h : names.lookup b = some v) : (b, v) ∈ names := by
  obtain ⟨l₁, l₂, rfl, -⟩ := List.lookup_eq_some_iff.mp h
  exact List.mem_append_right _ List.mem_cons_self

theorem isWord_of_mem_table :
    ∀ e ∈ entities ++ bound, e.1 ≠ [] ∧ ∀ c ∈ e.1, c.isWord = true := by
  decide

theorem isWord_of_mem_entities : ∀ e ∈ entities, e.1 ≠ [] ∧ ∀ c ∈ e.1, c.isWord = true :=
  fun e he => isWord_of_mem_table e (List.mem_append_left bound he)

theorem isWord_of_mem_bound : ∀ e ∈ bound, e.1 ≠ [] ∧ ∀ c ∈ e.1, c.isWord = true :=
  fun e he => isWord_of_mem_table e (List.mem_append_right entities he)

section tables

variable (hnames : ∀ e ∈ names, e.1 ≠ [] ∧ ∀ c ∈ e.1, c.isWord = true)

include hnames in
theorem not_numbers_of_lookup (h : names.lookup b = some v) : ¬ Numbers b n := by
  intro hn
  obtain ⟨r, rfl, -⟩ := hn.exists_number?
  exact absurd ((hnames _ (mem_of_lookup h)).2 _ List.mem_cons_self) (by decide)

include hnames in
theorem Denotes.isSome_typed? (h : Denotes names b v) : (typed? b).isSome := by
  cases h with
  | name h =>
      obtain ⟨hne, hword⟩ := hnames _ (mem_of_lookup h)
      rw [typed?_of_isWord hne hword]
      rfl
  | number h hle =>
      rw [typed?_of_numbers h]
      rfl

include hnames in
theorem Denotes.unique (h : Denotes names b v) (h' : Denotes names b u) : v = u := by
  cases h with
  | name h =>
      cases h' with
      | name h' => exact Option.some.inj (h.symm.trans h')
      | number h' => exact absurd h' (not_numbers_of_lookup hnames h)
  | number h =>
      cases h' with
      | name h' => exact absurd h (not_numbers_of_lookup hnames h')
      | number h' => rw [h.unique h']

theorem denotes_iff_of_not_numbers (h : ∀ n, ¬ Numbers b n) :
    Denotes names b v ↔ names.lookup b = some v := by
  constructor
  · intro hv
    cases hv with
    | name hv => exact hv
    | number hn => exact absurd hn (h _)
  · exact .name

theorem decodes_nil : Decodes names [] u ↔ u = [] := by
  constructor
  · intro h
    generalize ht : ([] : Text) = t at h
    cases h with
    | nil => rfl
    | reference => exact absurd ht (by rw [written_append]; exact (List.cons_ne_nil _ _).symm)
    | copied => cases ht
  · rintro rfl
    exact .nil

theorem decodes_cons (hc : ∀ b v, Denotes names b v → ¬ written b <+: c :: r) :
    Decodes names (c :: r) u ↔ ∃ w, u = c :: w ∧ Decodes names r w := by
  constructor
  · intro h
    generalize ht : c :: r = t at h
    cases h with
    | nil => cases ht
    | reference hb => exact absurd ⟨_, ht.symm⟩ (hc _ _ hb)
    | copied _ hrest =>
        cases ht
        exact ⟨_, rfl, hrest⟩
  · rintro ⟨w, rfl, hrest⟩
    exact .copied hc hrest

include hnames in
theorem decodes_unit (hbody : body? (c :: r) = none) :
    Decodes names (c :: r) u ↔ ∃ w, u = c :: w ∧ Decodes names r w := by
  refine decodes_cons fun b v hb ⟨rest, hrest⟩ => ?_
  rw [← hrest, body?_written (hb.isSome_typed? hnames)] at hbody
  cases hbody

theorem decodes_append (hr : CodeUnit.ofBasic '&' ∉ r) :
    Decodes names (r ++ t) u ↔ ∃ w, u = r ++ w ∧ Decodes names t w := by
  induction r generalizing u with
  | nil => exact ⟨fun h => ⟨u, rfl, h⟩, fun ⟨w, hw, h⟩ => hw ▸ h⟩
  | cons c r ih =>
      rw [List.mem_cons, not_or] at hr
      rw [List.cons_append, decodes_cons fun _ _ _ h => hr.1 (head_eq_of_written h).symm]
      constructor
      · rintro ⟨w, rfl, h⟩
        obtain ⟨w', rfl, hw'⟩ := (ih hr.2).mp h
        exact ⟨w', rfl, hw'⟩
      · rintro ⟨w, rfl, h⟩
        exact ⟨r ++ w, rfl, (ih hr.2).mpr ⟨w, rfl, h⟩⟩

include hnames in
/-- A reference that stands for something is replaced. -/
theorem decodes_written (hb : Denotes names b v) :
    Decodes names (written b ++ rest) u ↔ ∃ w, u = v ++ w ∧ Decodes names rest w := by
  constructor
  · intro h
    generalize ht : written b ++ rest = t at h
    cases h with
    | nil => exact absurd ht (by rw [written_append]; exact List.cons_ne_nil _ _)
    | reference hb' hrest =>
        obtain ⟨rfl, rfl⟩ :=
          written_append_inj (hb.isSome_typed? hnames) (hb'.isSome_typed? hnames) ht
        exact ⟨_, by rw [hb.unique hnames hb'], hrest⟩
    | copied h => exact absurd ⟨rest, ht⟩ (h b v hb)
  · rintro ⟨w, rfl, hrest⟩
    exact .reference hb hrest

include hnames in
/-- A reference that stands for nothing is copied. -/
theorem decodes_kept (hb : (typed? b).isSome) (hnone : ∀ v, ¬ Denotes names b v) :
    Decodes names (written b ++ rest) u ↔ ∃ w, u = written b ++ w ∧ Decodes names rest w := by
  have hfirst (b' v : Text) (hb' : Denotes names b' v) :
      ¬ written b' <+: CodeUnit.ofBasic '&' :: (b ++ [CodeUnit.ofBasic ';'] ++ rest) := by
    rintro ⟨rest', hrest'⟩
    have heq := (written_append_inj (hb'.isSome_typed? hnames) hb
      (hrest'.trans (written_eq_cons b rest).symm)).1
    exact hnone v (heq ▸ hb')
  -- behind its ampersand no other reference begins, so all its units are copied
  rw [written_eq_cons, decodes_cons hfirst]
  constructor
  · rintro ⟨w, rfl, h⟩
    obtain ⟨w', rfl, hw'⟩ := (decodes_append (notMem_of_typed? hb)).mp h
    exact ⟨w', (written_eq_cons b w').symm, hw'⟩
  · rintro ⟨w, rfl, h⟩
    exact ⟨_, written_eq_cons b w, (decodes_append (notMem_of_typed? hb)).mpr ⟨w, rfl, h⟩⟩

include hnames in
theorem decodes_reference (hb : (typed? b).isSome) (hv : Becomes names b v) :
    Decodes names (written b ++ rest) u ↔ ∃ w, u = v ++ w ∧ Decodes names rest w := by
  rcases hv with hv | ⟨hnone, rfl⟩
  · exact decodes_written hnames hv
  · exact decodes_kept hnames hb hnone

theorem exists_becomes (names : List (Text × Text)) (b : Text) : ∃ v, Becomes names b v := by
  by_cases hb : ∃ v, Denotes names b v
  · obtain ⟨v, hv⟩ := hb
    exact ⟨v, .inl hv⟩
  · exact ⟨written b, .inr ⟨not_exists.mp hb, rfl⟩⟩

include hnames in
/-- **Every text decodes to exactly one.** -/
theorem exists_decodes (t : Text) : ∃ w, ∀ u, Decodes names t u ↔ u = w := by
  induction t using read_induction with
  | nil => exact ⟨[], fun u => decodes_nil⟩
  | unit c r hbody hread ih =>
      obtain ⟨w, hw⟩ := ih
      refine ⟨c :: w, fun u => ?_⟩
      simp only [decodes_unit hnames hbody, hw, exists_eq_right]
  | reference b x rest htyped hread ih =>
      obtain ⟨w, hw⟩ := ih
      obtain ⟨v, hv⟩ := exists_becomes names b
      have hb : (typed? b).isSome := Option.isSome_iff_exists.mpr ⟨x, htyped⟩
      refine ⟨v ++ w, fun u => ?_⟩
      simp only [decodes_reference hnames hb hv, hw, exists_eq_right]

end tables

/-! ### What is read -/

theorem length_bound : ∀ e ∈ bound, (written e.1).length < e.2.length := by
  decide

theorem lookup_entities_of_isBound (h : IsBound b) : entities.lookup b = none := by
  obtain ⟨v, hv⟩ := h
  have hall : ∀ e ∈ bound, entities.lookup e.1 = none := by decide
  exact hall _ (mem_of_lookup hv)

theorem IsBound.isSome_typed? (h : IsBound b) : (typed? b).isSome := by
  obtain ⟨v, hv⟩ := h
  obtain ⟨hne, hword⟩ := isWord_of_mem_bound _ (mem_of_lookup hv)
  rw [typed?_of_isWord hne hword]
  rfl

/-- A reference is read as what it becomes with the bound names in the table. -/
theorem becomes_of_typed? (h : typed? b = some (.ok v)) : Becomes (entities ++ bound) b v := by
  rcases typed?_cases h with ⟨n, hn, hv⟩ | ⟨hnot, -, hv⟩
  · obtain ⟨hle, rfl⟩ := ofNumber_eq_ok_iff.mp hv.symm
    exact .inl (.number hn hle)
  · simp only [Becomes, denotes_iff_of_not_numbers hnot, Except.ok.inj hv]
    cases (entities ++ bound).lookup b with
    | some w => exact .inl rfl
    | none => exact .inr ⟨fun u => nofun, rfl⟩

/-- With the entities alone the same, unless the name is bound: then it becomes itself and is read
as a longer text. -/
theorem entities_of_typed? (h : typed? b = some (.ok v)) :
    ¬ IsBound b ∧ Becomes entities b v ∨
    IsBound b ∧ Becomes entities b (written b) ∧ (written b).length < v.length := by
  rcases typed?_cases h with ⟨n, hn, hv⟩ | ⟨hnot, -, hv⟩
  · obtain ⟨hle, rfl⟩ := ofNumber_eq_ok_iff.mp hv.symm
    refine .inl ⟨fun ⟨w, hw⟩ => ?_, .inl (.number hn hle)⟩
    exact not_numbers_of_lookup isWord_of_mem_bound hw hn
  · rw [List.lookup_append] at hv
    simp only [Becomes, denotes_iff_of_not_numbers hnot, Except.ok.inj hv]
    cases hentity : entities.lookup b with
    | some w =>
        refine .inl ⟨fun hb => ?_, .inl rfl⟩
        rw [lookup_entities_of_isBound hb] at hentity
        cases hentity
    | none =>
        cases hbound : bound.lookup b with
        | some w =>
            have hlength := length_bound _ (mem_of_lookup hbound)
            exact .inr ⟨⟨w, hbound⟩, .inr ⟨fun u => nofun, trivial⟩, hlength⟩
        | none =>
            refine .inl ⟨fun ⟨w, hw⟩ => ?_, .inr ⟨fun u => nofun, rfl⟩⟩
            rw [hbound] at hw
            cases hw

theorem decodes_read (h : read t = .ok v) : Decodes (entities ++ bound) t v := by
  induction t using read_induction generalizing v with
  | nil =>
      obtain rfl := Except.ok.inj h
      exact .nil
  | unit c r hbody hread ih =>
      obtain ⟨w, hw, rfl⟩ := ok_of_map (hread.symm.trans h)
      exact (decodes_unit isWord_of_mem_table hbody).mpr ⟨w, rfl, ih hw⟩
  | reference b x rest htyped hread ih =>
      obtain ⟨y, rfl, hrest⟩ := ok_of_bind (hread.symm.trans h)
      obtain ⟨w, hw, rfl⟩ := ok_of_map hrest
      have hb : (typed? b).isSome := Option.isSome_iff_exists.mpr ⟨_, htyped⟩
      exact (decodes_reference isWord_of_mem_table hb (becomes_of_typed? htyped)).mpr
        ⟨w, rfl, ih hw⟩

/-- What is read is what the entities decode to, or longer. -/
theorem eq_or_length_lt_read (h : read t = .ok v) (hw : Decodes entities t w) :
    w = v ∧ ¬ Mentions IsBound t ∨ w.length < v.length ∧ Mentions IsBound t := by
  induction t using read_induction generalizing v w with
  | nil =>
      obtain rfl := Except.ok.inj h
      exact .inl ⟨decodes_nil.mp hw, not_mentions_nil⟩
  | unit c r hbody hread ih =>
      obtain ⟨v, hv, rfl⟩ := ok_of_map (hread.symm.trans h)
      obtain ⟨w, rfl, hr⟩ := (decodes_unit isWord_of_mem_entities hbody).mp hw
      rw [mentions_cons (fun _ h => h.isSome_typed?) hbody]
      rcases ih hv hr with ⟨rfl, hnot⟩ | ⟨hlt, hbound⟩
      · exact .inl ⟨rfl, hnot⟩
      · exact .inr ⟨Nat.succ_lt_succ hlt, hbound⟩
  | reference b x rest htyped hread ih =>
      obtain ⟨y, rfl, hrest⟩ := ok_of_bind (hread.symm.trans h)
      obtain ⟨v, hv, rfl⟩ := ok_of_map hrest
      have hsome : (typed? b).isSome := Option.isSome_iff_exists.mpr ⟨_, htyped⟩
      rw [mentions_written (fun _ h => h.isSome_typed?) hsome]
      rcases entities_of_typed? htyped with ⟨hb, hbecomes⟩ | ⟨hb, hkept, hlength⟩
      · obtain ⟨w, rfl, hr⟩ := (decodes_reference isWord_of_mem_entities hsome hbecomes).mp hw
        rcases ih hv hr with ⟨rfl, hnot⟩ | ⟨hlt, hbound⟩
        · exact .inl ⟨rfl, not_or.mpr ⟨hb, hnot⟩⟩
        · refine .inr ⟨?_, .inr hbound⟩
          rw [List.length_append, List.length_append]
          omega
      · obtain ⟨w, rfl, hr⟩ := (decodes_reference isWord_of_mem_entities hsome hkept).mp hw
        -- the reference alone is read as more units, and behind it none are lost
        have hle : w.length ≤ v.length := by
          rcases ih hv hr with ⟨rfl, -⟩ | ⟨hlt, -⟩
          · exact Nat.le_refl _
          · exact hlt.le
        refine .inr ⟨?_, .inl hb⟩
        rw [List.length_append, List.length_append]
        omega

/-- **Character data up to the cursor.**  A text with a number above the last code point is
refused.  Any other is read as the table with the bound names has it, which is the one text that
the entities decode it to unless a reference in it has a bound name. -/
theorem read_decoding (t : Text) :
    ((∃ e, read t = .error e) ↔ Mentions Excessive t) ∧
    (¬ Mentions Excessive t → ∃ v w, read t = .ok v ∧ Decodes (entities ++ bound) t v ∧
      (∀ u, Decodes entities t u ↔ u = w) ∧ (v = w ↔ ¬ Mentions IsBound t)) := by
  refine ⟨exists_error_iff t, fun hnot => ?_⟩
  cases hread : read t with
  | error e => exact absurd ((exists_error_iff t).mp ⟨e, hread⟩) hnot
  | ok v =>
      obtain ⟨w, hw⟩ := exists_decodes isWord_of_mem_entities t
      refine ⟨v, w, rfl, decodes_read hread, hw, ?_⟩
      rcases eq_or_length_lt_read hread ((hw w).mpr rfl) with ⟨rfl, hfree⟩ | ⟨hlt, hbound⟩
      · exact ⟨fun _ => hfree, fun _ => rfl⟩
      · exact ⟨fun h => absurd (h ▸ hlt) (Nat.lt_irrefl _), fun h => absurd hbound h⟩

theorem read_constructor :
    ¬ Mentions Excessive "&constructor;" ∧
    read "&constructor;" = .ok "function Object() \x7b [native code] \x7d" ∧
    Decodes entities "&constructor;" "&constructor;" := by
  have hread : read "&constructor;" = .ok "function Object() \x7b [native code] \x7d" := by
    decide +kernel
  have hnumber (n : ℕ) : ¬ Numbers "constructor" n := by
    intro hn
    obtain ⟨r, hr, -⟩ := hn.exists_number?
    exact absurd (List.cons.inj hr).1 (by decide)
  have hnone (v : Text) : ¬ Denotes entities "constructor" v := by
    rw [denotes_iff_of_not_numbers hnumber, lookup_entities_of_isBound ⟨_, rfl⟩]
    exact nofun
  refine ⟨fun h => ?_, hread, ?_⟩
  · obtain ⟨e, he⟩ := (exists_error_iff _).mpr h
    rw [hread] at he
    cases he
  · have hkept : Decodes entities (written "constructor" ++ []) (written "constructor" ++ []) :=
      (decodes_kept isWord_of_mem_entities (by decide) hnone).mpr ⟨[], rfl, .nil⟩
    exact hkept

/-! ### Escaped character data

Escaping leaves an ampersand only in front of the references that it writes (`escape_cons`), and each of
these stands for the unit that it was written for, whatever follows (`read_escapeUnit`).  So a text
that has been escaped reads as the text, references that the text itself spells included
(`read_escape`). -/

/-- One unit as character data. -/
def escapeUnit (c : CodeUnit) : Text :=
  if c = '&' then written "amp"
  else if c = '<' then written "lt"
  else if c = '>' then written "gt"
  else [c]

theorem escape_cons (c : CodeUnit) (t : Text) : escape (c :: t) = escapeUnit c ++ escape t := rfl

/-- A reference is read as what it stands for, in front of what is read behind it. -/
theorem read_written {b : Text} {x : Except OutOfRange Text} (h : typed? b = some x) (rest : Text) :
    read (written b ++ rest) = x.bind fun v => (read rest).map (v ++ ·) := by
  have hb : (typed? b).isSome := Option.isSome_iff_exists.mpr ⟨x, h⟩
  have hbody := body?_written hb rest
  rw [written_append] at hbody ⊢
  rcases read_cases (CodeUnit.ofBasic '&') (b ++ CodeUnit.ofBasic ';' :: rest) with
    ⟨hnone, -⟩ | ⟨b', x', rest', hsome, htyped, -, hwritten, hread⟩
  · rw [hnone] at hbody
    cases hbody
  · rw [hsome] at hbody
    obtain rfl := Option.some.inj hbody
    rw [← written_append] at hwritten
    obtain rfl := List.append_cancel_left hwritten
    rw [h] at htyped
    rw [hread, Option.some.inj htyped]

/-- The unit is read off what it is written as. -/
theorem read_escapeUnit (c : CodeUnit) (rest : Text) :
    read (escapeUnit c ++ rest) = (read rest).map (c :: ·) := by
  unfold escapeUnit
  split_ifs with hamp hlt hgt
  · subst hamp
    exact read_written (x := .ok [CodeUnit.ofBasic '&']) rfl rest
  · subst hlt
    exact read_written (x := .ok [CodeUnit.ofBasic '<']) rfl rest
  · subst hgt
    exact read_written (x := .ok [CodeUnit.ofBasic '>']) rfl rest
  · refine read_append (b := [c]) ?_ rest
    rw [List.mem_singleton]
    exact fun h => hamp h.symm

/-- **Escaping.**  An escaped text reads as the text. -/
theorem read_escape (t : Text) : read (escape t) = .ok t := by
  induction t with
  | nil => rfl
  | cons c t ih => rw [escape_cons, read_escapeUnit, ih, Except.map]

end Reference
end Markup
end Scopewright
