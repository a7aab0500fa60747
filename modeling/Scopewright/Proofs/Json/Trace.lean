import Mathlib.Data.List.Basic
import Scopewright.Json.Event

/-! # Events and their tokens

What a document says is told token by token, from the left, also where it is faulty: an event is a fault
or stems from a token, and a key or a value uses its token up (`Trace`).  So it is in every state of the
machine (`trace_eventsFrom`) and for whole documents (`trace_events`).

A key or a value is what its token stands for (`Trace.exists_token_of_entry`), and keys and values stand
in the order of their tokens (`Trace.ordered`). -/

namespace Scopewright
namespace Json

variable {tok : Token} {toks toks' : List Token} {es faults : List Event}

/-! ### Kinds of events -/

namespace EventKind

/-- The event says what the grammar does not allow. -/
def isFault : EventKind → Bool
  | fault _ => true
  | _ => false

/-- The event is a key or a value by itself. -/
def isEntry : EventKind → Bool
  | property _ => true
  | literal _ => true
  | _ => false

/-- The event is a key. -/
def isProperty : EventKind → Bool
  | property _ => true
  | _ => false

/-- A key or a value is what the token stands for. -/
def Fits (tok : Token) : EventKind → Prop
  | property name => tok.kind = .string ∧ name = tok.value
  | literal v => tok.scalar? = some v
  | _ => True

theorem Fits.of_not_entry {k : EventKind} (h : k.isEntry = false) (tok : Token) : k.Fits tok := by
  cases k with
  | property name => cases h
  | literal v => cases h
  | _ => trivial

end EventKind

theorem isEntry_beginning (f : Frame) : f.beginning.isEntry = false := by
  cases f <;> rfl

theorem isEntry_ending (f : Frame) : f.ending.isEntry = false := by
  cases f <;> rfl

/-! ### Tokens that matter -/

theorem kind_of_scalar {tok : Token} {v : Document.Scalar} (h : tok.scalar? = some v) :
    tok.kind ≠ .done := by
  intro hkind
  rw [Token.scalar?, hkind] at h
  cases h

/-- The events in front of a token are faults. -/
def Step.OnlyFaults (s : Step) : Prop := ∀ e ∈ s.faults, e.kind.isFault = true

theorem isFault_ownFaults (tok : Token) : ∀ e ∈ tok.ownFaults, e.kind.isFault = true := by
  intro e he
  obtain ⟨cause, -, rfl⟩ := Option.map_eq_some_iff.mp (Option.mem_toList.mp he)
  rfl

/-- The tokens that matter are tokens of the text, and in front of them stand faults alone. -/
theorem onlyFaults_steps (hfaults : ∀ e ∈ faults, e.kind.isFault = true) (toks : List Token) :
    ∀ s ∈ steps faults toks, s.OnlyFaults := by
  induction toks generalizing faults with
  | nil => exact List.forall_mem_nil _
  | cons tok toks ih =>
      have hown : ∀ e ∈ faults ++ tok.ownFaults, e.kind.isFault = true :=
        List.forall_mem_append.mpr ⟨hfaults, isFault_ownFaults tok⟩
      unfold steps
      dsimp only
      split
      · exact ih hown
      · exact ih hown
      · exact ih (List.forall_mem_append.mpr ⟨hown, List.forall_mem_singleton.mpr rfl⟩)
      · exact List.forall_mem_cons.mpr ⟨hown, ih (List.forall_mem_nil _)⟩

theorem sublist_steps (faults : List Event) (toks : List Token) :
    ((steps faults toks).map Step.token).Sublist toks := by
  induction toks generalizing faults with
  | nil => exact List.Sublist.refl _
  | cons tok toks ih =>
      unfold steps
      dsimp only
      split
      · exact (ih _).cons tok
      · exact (ih _).cons tok
      · exact (ih _).cons tok
      · exact (ih _).cons_cons tok

theorem mem_steps (faults : List Event) (htok : tok ∈ toks) (hstring : tok.kind = .string) :
    tok ∈ (steps faults toks).map Step.token := by
  induction toks generalizing faults with
  | nil => cases htok
  | cons tok' toks ih =>
      have hrest (hkind : tok'.kind ≠ .string) : tok ∈ toks := by
        refine (List.mem_cons.mp htok).resolve_left ?_
        rintro rfl
        exact hkind hstring
      unfold steps
      dsimp only
      split
      · rename_i hkind
        exact ih _ (hrest (by rw [hkind]; exact nofun))
      · rename_i hkind
        exact ih _ (hrest (by rw [hkind]; exact nofun))
      · rename_i hkind
        exact ih _ (hrest (by rw [hkind]; exact nofun))
      · rcases List.mem_cons.mp htok with rfl | htok
        · exact List.mem_cons_self
        · exact List.mem_cons_of_mem _ (ih _ htok)

theorem suffix_skipTo (stop : Kind → Bool) (cur : Token) (rest : List Step) :
    (skipTo stop cur rest).2.1 :: (skipTo stop cur rest).2.2.map Step.token <:+
      cur :: rest.map Step.token := by
  induction rest generalizing cur with
  | nil => exact List.suffix_refl _
  | cons s rest ih =>
      unfold skipTo
      split
      · exact List.suffix_refl _
      · exact (ih s.token).trans (List.suffix_cons cur _)

theorem onlyFaults_skipTo {stop : Kind → Bool} {cur : Token} {rest : List Step}
    (hrest : ∀ s ∈ rest, s.OnlyFaults) :
    (∀ e ∈ (skipTo stop cur rest).1, e.kind.isFault = true) ∧
      ∀ s ∈ (skipTo stop cur rest).2.2, s.OnlyFaults := by
  induction rest generalizing cur with
  | nil => exact ⟨List.forall_mem_nil _, List.forall_mem_nil _⟩
  | cons s rest ih =>
      obtain ⟨hs, htail⟩ := List.forall_mem_cons.mp hrest
      unfold skipTo
      split
      · exact ⟨List.forall_mem_nil _, hrest⟩
      · obtain ⟨hfaults, hlater⟩ := ih htail
        exact ⟨List.forall_mem_append.mpr ⟨hs, hfaults⟩, hlater⟩

/-! ### Traces -/

/-- Events are told by tokens, from the left. -/
inductive Trace : List Token → List Event → Prop
  | nil (toks : List Token) : Trace toks []
  | fault {toks : List Token} {e : Event} {es : List Event} (he : e.kind.isFault = true)
      (h : Trace toks es) : Trace toks (e :: es)
  /-- The token may tell more. -/
  | mark {tok : Token} {toks : List Token} {k : EventKind} {es : List Event}
      (hk : k.isEntry = false) (h : Trace (tok :: toks) es) : Trace (tok :: toks) (tok.event k :: es)
  /-- A key or a value, which uses up its token. -/
  | entry {tok : Token} {toks : List Token} {k : EventKind} {es : List Event} (hk : k.Fits tok)
      (h : Trace toks es) : Trace (tok :: toks) (tok.event k :: es)
  | pass {tok : Token} {toks : List Token} {es : List Event} (h : Trace toks es) :
      Trace (tok :: toks) es

namespace Trace

theorem append (hfaults : ∀ e ∈ faults, e.kind.isFault = true) (h : Trace toks es) :
    Trace toks (faults ++ es) := by
  induction faults with
  | nil => exact h
  | cons e faults ih =>
      obtain ⟨he, hfaults⟩ := List.forall_mem_cons.mp hfaults
      exact .fault he (ih hfaults)

/-- Tokens in front are passed over. -/
theorem of_suffix (h : Trace toks es) (hsuffix : toks <:+ toks') : Trace toks' es := by
  obtain ⟨front, rfl⟩ := hsuffix
  induction front with
  | nil => exact h
  | cons tok front ih => exact .pass ih

/-- An event of which the token tells nothing more. -/
theorem mark_pass {k : EventKind} (hk : k.isEntry = false) (h : Trace toks es) :
    Trace (tok :: toks) (tok.event k :: es) :=
  .mark hk (.pass h)

/-- An event is a fault, or it stems from a token; a key or a value is what the token stands for. -/
theorem exists_token (h : Trace toks es) : ∀ e ∈ es, e.kind.isFault = true ∨
    ∃ tok ∈ toks, e = tok.event e.kind ∧ e.kind.Fits tok := by
  have hlater {tok : Token} {toks : List Token} {e : Event} (h : e.kind.isFault = true ∨
      ∃ tok ∈ toks, e = tok.event e.kind ∧ e.kind.Fits tok) : e.kind.isFault = true ∨
        ∃ tok' ∈ tok :: toks, e = tok'.event e.kind ∧ e.kind.Fits tok' := by
    refine h.imp_right ?_
    rintro ⟨tok', htok, he⟩
    exact ⟨tok', List.mem_cons_of_mem tok htok, he⟩
  induction h with
  | nil toks => exact List.forall_mem_nil _
  | fault he _ ih => exact List.forall_mem_cons.mpr ⟨.inl he, ih⟩
  | mark hk _ ih =>
      exact List.forall_mem_cons.mpr ⟨.inr ⟨_, List.mem_cons_self, rfl, .of_not_entry hk _⟩, ih⟩
  | entry hk _ ih =>
      exact List.forall_mem_cons.mpr
        ⟨.inr ⟨_, List.mem_cons_self, rfl, hk⟩, fun e he => hlater (ih e he)⟩
  | pass _ ih => exact fun e he => hlater (ih e he)

theorem exists_token_of_entry (h : Trace toks es) {e : Event} (he : e ∈ es)
    (hentry : e.kind.isEntry = true) : ∃ tok ∈ toks, e = tok.event e.kind ∧ e.kind.Fits tok := by
  refine (h.exists_token e he).resolve_left fun hfault => ?_
  cases hkind : e.kind with
  | fault cause =>
      rw [hkind] at hentry
      cases hentry
  | _ =>
      rw [hkind] at hfault
      cases hfault

end Trace

/-! ### The machine -/

/-- The events that come with the next token, if there is one. -/
def behind (onward : Step → List Step → List Event) : List Step → List Event
  | [] => []
  | s :: rest => s.faults ++ onward s rest

theorem trace_behind {rest : List Step} {onward : Step → List Step → List Event}
    (ih : match rest with
      | [] => True
      | s :: rest => (∀ s ∈ rest, s.OnlyFaults) →
        Trace (s.token :: rest.map Step.token) (onward s rest))
    (hrest : ∀ s ∈ rest, s.OnlyFaults) : Trace (rest.map Step.token) (behind onward rest) := by
  cases rest with
  | nil => exact .nil _
  | cons s rest =>
      obtain ⟨hs, hrest⟩ := List.forall_mem_cons.mp hrest
      exact .append hs (ih hrest)

/-- The events from the current token on are told by it and by the tokens behind it. -/
theorem trace_eventsFrom {trailing : Bool} {cur : Token} {rest : List Step} {stack : List Frame}
    {phase : Phase} (hrest : ∀ s ∈ rest, s.OnlyFaults) :
    Trace (cur :: rest.map Step.token) (eventsFrom trailing cur rest stack phase) := by
  fun_induction eventsFrom trailing cur rest stack phase with
  | case1 cur rest v hv ih => exact .entry hv (trace_behind ih hrest)
  | case2 cur rest f hf hv ih => exact .mark_pass (isEntry_beginning f) (trace_behind ih hrest)
  | case3 cur rest hf hv => exact .fault rfl (.nil _)
  | case4 cur rest phase hdone hphase => exact .nil _
  | case5 cur rest phase hdone hphase => exact .fault rfl (.nil _)
  | case6 cur rest f fs needsComma hclose ih => exact ih hrest
  | case7 cur rest f fs needsComma hclose hcomma ih =>
      refine .append ?_ (.mark_pass rfl (trace_behind ih hrest))
      split
      · exact List.forall_mem_nil _
      · exact List.forall_mem_singleton.mpr rfl
  | case8 cur rest f fs needsComma hclose hcomma ih =>
      refine .append ?_ (ih hrest)
      split
      · exact List.forall_mem_singleton.mpr rfl
      · exact List.forall_mem_nil _
  | case9 cur rest fs ih => exact ih hrest
  | case10 cur rest fs hstring ih => exact .entry ⟨hstring, rfl⟩ (trace_behind ih hrest)
  | case11 cur rest fs hstring skipped ih =>
      obtain ⟨hskipped, hlater⟩ := onlyFaults_skipTo hrest
      exact .fault rfl (.append hskipped
        (.fault rfl ((ih hlater).of_suffix (suffix_skipTo _ cur rest))))
  | case12 cur rest f fs hcolon ih => exact .mark_pass rfl (trace_behind ih hrest)
  | case13 cur rest f fs hcolon skipped ih =>
      obtain ⟨hskipped, hlater⟩ := onlyFaults_skipTo hrest
      exact .fault rfl (.append hskipped ((ih hlater).of_suffix (suffix_skipTo _ cur rest)))
  | case14 cur rest f fs v hv ih => exact .entry hv (trace_behind ih hrest)
  | case15 cur rest f fs g hg hv ih =>
      exact .mark_pass (isEntry_beginning g) (trace_behind ih hrest)
  | case16 cur rest f fs hf hv skipped ih =>
      obtain ⟨hskipped, hlater⟩ := onlyFaults_skipTo hrest
      exact .fault rfl (.append hskipped ((ih hlater).of_suffix (suffix_skipTo _ cur rest)))
  | case17 cur rest f fs hcomma ih => exact .mark_pass rfl (trace_behind ih hrest)
  | case18 cur rest f fs hcomma ih => exact ih hrest
  | case19 cur rest f fs ihclosed ihopen =>
      split
      · exact .mark_pass (isEntry_ending f) (trace_behind ihclosed hrest)
      · exact .mark (isEntry_ending f) (.fault rfl (ihopen hrest))

/-- The events of a document are told by tokens of it. -/
theorem trace_events (trailing : Bool) (t : Text) :
    ∃ toks, toks.Sublist (tokens t) ∧ Trace toks (events trailing t) := by
  have hsub := sublist_steps [] (tokens t)
  have hsteps := onlyFaults_steps (List.forall_mem_nil _) (tokens t)
  unfold events
  cases hnext : steps [] (tokens t) with
  | nil => exact ⟨[], List.nil_sublist _, .nil _⟩
  | cons s rest =>
      rw [hnext] at hsub hsteps
      obtain ⟨hs, hrest⟩ := List.forall_mem_cons.mp hsteps
      exact ⟨_, hsub, .append hs (trace_eventsFrom hrest)⟩

/-! ### The order of events -/

/-- A token stands in front of another one, unless that is the end mark. -/
def Token.Before (a b : Token) : Prop :=
  b.kind ≠ .done → a.start < b.start ∧ a.start + a.length ≤ b.start

theorem pairwise_tokensFrom (size start : ℕ) (t : Text) :
    (tokensFrom size start t).Pairwise Token.Before ∧
      ∀ tok ∈ tokensFrom size start t, tok.kind ≠ .done → start ≤ tok.start := by
  fun_induction tokensFrom size start t with
  | case1 start =>
      exact ⟨List.pairwise_singleton _ _, List.forall_mem_singleton.mpr fun h => absurd rfl h⟩
  | case2 start c r l ih =>
      obtain ⟨hpairwise, hle⟩ := ih
      refine ⟨List.pairwise_cons.mpr ⟨fun tok htok hkind => ?_, hpairwise⟩,
        List.forall_mem_cons.mpr ⟨fun _ => Nat.le_refl start, fun tok htok hkind => ?_⟩⟩
      · have := hle tok htok hkind
        exact ⟨by show start < _; omega, by show start + (l.extra + 1) ≤ _; omega⟩
      · have := hle tok htok hkind
        omega

/-- A key or a value does not begin in front of what was told before it, and other keys and values end in
front of it. -/
def Event.Precedes (a b : Event) : Prop :=
  b.kind.isEntry = true → a.kind.isFault = true ∨
    a.start ≤ b.start ∧ (a.kind.isEntry = true → a.stop ≤ b.start)

theorem EventKind.Fits.ne_done {k : EventKind} (hk : k.isEntry = true) (h : k.Fits tok) :
    tok.kind ≠ .done := by
  cases k with
  | property name =>
      rw [h.1]
      exact nofun
  | literal v => exact kind_of_scalar h
  | _ => cases hk

/-- Keys and values stand in the order of their tokens. -/
theorem Trace.ordered (h : Trace toks es) (htoks : toks.Pairwise Token.Before) :
    es.Pairwise Event.Precedes := by
  have hlater {tok tok' : Token} {toks : List Token} {e : Event}
      (htoks : (tok :: toks).Pairwise Token.Before) (htok : tok' ∈ toks)
      (he : e = tok'.event e.kind) (hfits : e.kind.Fits tok') (hentry : e.kind.isEntry = true) :
      tok.start < e.start ∧ tok.start + tok.length ≤ e.start := by
    rw [he]
    exact List.rel_of_pairwise_cons htoks htok (hfits.ne_done hentry)
  induction h with
  | nil toks => exact List.Pairwise.nil
  | fault he _ ih => exact List.pairwise_cons.mpr ⟨fun b _ _ => .inl he, ih htoks⟩
  | mark hk h ih =>
      refine List.pairwise_cons.mpr ⟨fun b hb hentry => .inr ⟨?_, fun hmark => ?_⟩, ih htoks⟩
      · obtain ⟨tok', htok, heq, hfits⟩ := h.exists_token_of_entry hb hentry
        rcases List.mem_cons.mp htok with rfl | htok
        · rw [heq]
          exact Nat.le_refl _
        · exact Nat.le_of_lt (hlater htoks htok heq hfits hentry).1
      · exact Bool.noConfusion (hk.symm.trans hmark)
  | entry hk h ih =>
      refine List.pairwise_cons.mpr ⟨fun b hb hentry => ?_, ih htoks.of_cons⟩
      obtain ⟨tok', htok, heq, hfits⟩ := h.exists_token_of_entry hb hentry
      obtain ⟨hstart, hstop⟩ := hlater htoks htok heq hfits hentry
      exact .inr ⟨Nat.le_of_lt hstart, fun _ => hstop⟩
  | pass _ ih => exact ih htoks.of_cons

end Json
end Scopewright
