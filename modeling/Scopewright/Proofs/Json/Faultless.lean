import Mathlib.Data.List.Pairwise
import Scopewright.Proofs.Json.Strings

/-! # Documents without faults

Over the tokens of a document without faults the machine makes a run (`Run`), one step for each token
(`run_eventsFrom`).  A run has the same events whether or not a comma may stand in front of the end of a
collection (`Run.eventsFrom_eq`), and they stand in the order of its tokens (`Run.ordered`). -/

namespace Scopewright
namespace Json

open Document (Key Node Scalar)

/-! ### Runs without faults -/

/-- No event is a fault. -/
def NoFaults (es : List Event) : Prop := ∀ e ∈ es, e.kind.isFault = false

/-- A text that is read without faults. -/
def Faultless (t : Text) : Prop := NoFaults (events false t)

theorem faultless_iff {t : Text} :
    Faultless t ↔ (events false t).all (fun e => !e.kind.isFault) = true := by
  rw [List.all_eq_true]
  exact forall₂_congr fun e _ => Iff.of_eq (Bool.not_eq_true' _).symm

instance (t : Text) : Decidable (Faultless t) := decidable_of_iff' _ faultless_iff

/-- Only the last token is the end mark. -/
def Ended : List Token → Prop
  | [] => False
  | [t] => t.kind = .done
  | t :: ts => t.kind ≠ .done ∧ Ended ts

/-- A run over tokens that meets no fault, and its events. -/
inductive Run : List Frame → Phase → List Token → List Event → Prop
  | finished {phase : Phase} {tok : Token} (hphase : phase ≠ .value) (htok : tok.kind = .done) :
      Run [] phase [tok] []
  | scalar {fs : List Frame} {tok : Token} {toks : List Token} {es : List Event} {v : Scalar}
      (htok : tok.scalar? = some v) (h : Run fs (.next true) toks es) :
      Run fs .value (tok :: toks) (tok.event (.literal v) :: es)
  | opening {f : Frame} {fs : List Frame} {tok : Token} {toks : List Token} {es : List Event}
      (htok : tok.opens? = some f) (h : Run (f :: fs) (.next false) toks es) :
      Run fs .value (tok :: toks) (tok.event f.beginning :: es)
  | first {f : Frame} {fs : List Frame} {toks : List Token} {es : List Event}
      (h : Run (f :: fs) .item toks es) : Run (f :: fs) (.next false) toks es
  | comma {f : Frame} {fs : List Frame} {tok : Token} {toks : List Token} {es : List Event}
      (htok : tok.kind = .comma) (h : Run (f :: fs) .item toks es) :
      Run (f :: fs) (.next true) (tok :: toks) (tok.event .comma :: es)
  | item {fs : List Frame} {toks : List Token} {es : List Event}
      (h : Run (.array :: fs) .value toks es) : Run (.array :: fs) .item toks es
  | key {fs : List Frame} {tok : Token} {toks : List Token} {es : List Event}
      (htok : tok.kind = .string) (h : Run (.object :: fs) .colon toks es) :
      Run (.object :: fs) .item (tok :: toks) (tok.event (.property tok.value) :: es)
  | colon {f : Frame} {fs : List Frame} {tok : Token} {toks : List Token} {es : List Event}
      (htok : tok.kind = .colon) (h : Run (f :: fs) .value toks es) :
      Run (f :: fs) .colon (tok :: toks) (tok.event .colon :: es)
  | closing {f : Frame} {fs : List Frame} {needsComma : Bool} {toks : List Token} {es : List Event}
      (h : Run (f :: fs) .close toks es) : Run (f :: fs) (.next needsComma) toks es
  | close {f : Frame} {fs : List Frame} {tok : Token} {toks : List Token} {es : List Event}
      (htok : tok.kind = f.closer) (h : Run fs (.next true) toks es) :
      Run (f :: fs) .close (tok :: toks) (tok.event f.ending :: es)

theorem not_noFaults_faultEvent (tok : Token) (cause : Fault) (es : List Event) :
    ¬NoFaults (tok.faultEvent cause :: es) :=
  fun h => Bool.noConfusion (h _ List.mem_cons_self)

theorem NoFaults.append {es es' : List Event} (h : NoFaults (es ++ es')) :
    NoFaults es ∧ NoFaults es' :=
  ⟨fun e he => h e (List.mem_append_left _ he), fun e he => h e (List.mem_append_right _ he)⟩

theorem NoFaults.tail {e : Event} {es : List Event} (h : NoFaults (e :: es)) : NoFaults es :=
  fun e he => h e (List.mem_cons_of_mem _ he)

theorem Step.OnlyFaults.eq_nil {s : Step} (h : s.OnlyFaults) (hfaults : NoFaults s.faults) :
    s.faults = [] := by
  rw [List.eq_nil_iff_forall_not_mem]
  intro e he
  exact Bool.noConfusion ((h e he).symm.trans (hfaults e he))

theorem Ended.tail {tok : Token} {toks : List Token} (h : Ended (tok :: toks))
    (htok : tok.kind ≠ .done) : Ended toks := by
  cases toks with
  | nil => exact absurd h htok
  | cons t ts => exact h.2

/-- No entry has been spoilt. -/
def Phase.IsSound : Phase → Prop
  | resume => False
  | _ => True

/-- The run goes on with the next token. -/
theorem run_behind {cur : Token} {rest : List Step} {onward : Step → List Step → List Event}
    {stack : List Frame} {phase : Phase}
    (ih : match rest with
      | [] => True
      | s :: rest => Ended (s.token :: rest.map Step.token) → (∀ s ∈ rest, s.OnlyFaults) →
        phase.IsSound → NoFaults (onward s rest) → (∀ s ∈ rest, s.faults = []) ∧
          Run stack phase (s.token :: rest.map Step.token) (onward s rest))
    (hcur : cur.kind ≠ .done) (hended : Ended (cur :: rest.map Step.token))
    (hrest : ∀ s ∈ rest, s.OnlyFaults) (hphase : phase.IsSound) (h : NoFaults (behind onward rest)) :
    (∀ s ∈ rest, s.faults = []) ∧ Run stack phase (rest.map Step.token) (behind onward rest) := by
  cases rest with
  | nil => exact absurd hended hcur
  | cons s rest =>
      obtain ⟨hs, hrest⟩ := List.forall_mem_cons.mp hrest
      obtain ⟨hfaults, h⟩ := NoFaults.append h
      obtain ⟨hnone, hrun⟩ := ih (hended.tail hcur) hrest hphase h
      rw [behind, hs.eq_nil hfaults]
      exact ⟨List.forall_mem_cons.mpr ⟨hs.eq_nil hfaults, hnone⟩, hrun⟩

theorem kind_of_opens {tok : Token} {f : Frame} (h : tok.opens? = some f) : tok.kind ≠ .done := by
  intro hkind
  rw [Token.opens?, hkind] at h
  cases h

/-- Without faults the machine makes a run, and there are none in front of its tokens. -/
theorem run_eventsFrom {cur : Token} {rest : List Step} {stack : List Frame} {phase : Phase}
    (hended : Ended (cur :: rest.map Step.token)) (hrest : ∀ s ∈ rest, s.OnlyFaults)
    (hphase : phase.IsSound) (h : NoFaults (eventsFrom false cur rest stack phase)) :
    (∀ s ∈ rest, s.faults = []) ∧
      Run stack phase (cur :: rest.map Step.token) (eventsFrom false cur rest stack phase) := by
  fun_induction eventsFrom false cur rest stack phase with
  | case1 cur rest v hv ih =>
      exact (run_behind ih (kind_of_scalar hv) hended hrest trivial h.tail).imp_right (.scalar hv)
  | case2 cur rest f hf hv ih =>
      exact (run_behind ih (kind_of_opens hf) hended hrest trivial h.tail).imp_right (.opening hf)
  | case3 cur rest hf hv => exact absurd h (not_noFaults_faultEvent cur _ _)
  | case4 cur rest phase hdone hvalue =>
      cases rest with
      | nil => exact ⟨List.forall_mem_nil _, .finished hvalue hdone⟩
      | cons s rest => exact absurd hdone hended.1
  | case5 cur rest phase hdone hphase => exact absurd h (not_noFaults_faultEvent cur _ _)
  | case6 cur rest f fs needsComma hclose ih => exact (ih hended hrest trivial h).imp_right .closing
  | case7 cur rest f fs needsComma hclose hcomma ih =>
      cases needsComma with
      | false => exact absurd h (not_noFaults_faultEvent cur _ _)
      | true =>
          have hdone : cur.kind ≠ .done := fun hkind => hclose (.inr hkind)
          exact (run_behind ih hdone hended hrest trivial h.tail).imp_right (.comma hcomma)
  | case8 cur rest f fs needsComma hclose hcomma ih =>
      cases needsComma with
      | false => exact (ih hended hrest trivial h).imp_right .first
      | true => exact absurd h (not_noFaults_faultEvent cur _ _)
  | case9 cur rest fs ih => exact (ih hended hrest trivial h).imp_right .item
  | case10 cur rest fs hstring ih =>
      have hdone : cur.kind ≠ .done := by rw [hstring]; decide
      exact (run_behind ih hdone hended hrest trivial h.tail).imp_right (.key hstring)
  | case11 cur rest fs hstring skipped ih => exact absurd h (not_noFaults_faultEvent cur _ _)
  | case12 cur rest f fs hcolon ih =>
      have hdone : cur.kind ≠ .done := by rw [hcolon]; decide
      exact (run_behind ih hdone hended hrest trivial h.tail).imp_right (.colon hcolon)
  | case13 cur rest f fs hcolon skipped ih => exact absurd h (not_noFaults_faultEvent cur _ _)
  | case14 cur rest f fs v hv ih =>
      exact (run_behind ih (kind_of_scalar hv) hended hrest trivial h.tail).imp_right (.scalar hv)
  | case15 cur rest f fs g hg hv ih =>
      exact (run_behind ih (kind_of_opens hg) hended hrest trivial h.tail).imp_right (.opening hg)
  | case16 cur rest f fs hf hv skipped ih => exact absurd h (not_noFaults_faultEvent cur _ _)
  | case17 cur rest f fs hcomma ih => exact hphase.elim
  | case18 cur rest f fs hcomma ih => exact hphase.elim
  | case19 cur rest f fs ihclosed ihopen =>
      by_cases hkind : cur.kind = f.closer
      · have hdone : cur.kind ≠ .done := by
          rw [hkind]
          cases f <;> decide
        rw [if_pos hkind] at h ⊢
        exact (run_behind ihclosed hdone hended hrest trivial h.tail).imp_right (.close hkind)
      · rw [if_neg hkind] at h
        exact absurd h.tail (not_noFaults_faultEvent cur _ _)

/-! ### The events of a run -/

theorem Run.exists_cons {fs : List Frame} {phase : Phase} {toks : List Token} {es : List Event}
    (h : Run fs phase toks es) : ∃ cur rest, toks = cur :: rest := by
  induction h with
  | first _ ih => exact ih
  | item _ ih => exact ih
  | closing _ ih => exact ih
  | _ => exact ⟨_, _, rfl⟩

theorem scalar_of_opens {tok : Token} {f : Frame} (h : tok.opens? = some f) : tok.scalar? = none := by
  unfold Token.opens? at h
  unfold Token.scalar?
  split at h
  · rename_i hkind
    rw [hkind]
  · rename_i hkind
    rw [hkind]
  · cases h

section kinds

variable {f : Frame} {fs : List Frame} {cur : Token} {toks : List Token} {es : List Event}

/-- An entry or item begins neither with a separator nor with an end. -/
theorem Run.kind_item (h : Run (f :: fs) .item (cur :: toks) es) :
    cur.kind ≠ f.closer ∧ cur.kind ≠ .done ∧ cur.kind ≠ .comma := by
  cases h with
  | key htok _ =>
      rw [htok]
      exact ⟨nofun, nofun, nofun⟩
  | item h =>
      cases h with
      | scalar htok _ =>
          refine ⟨?_, ?_, ?_⟩ <;> intro hkind <;> rw [Token.scalar?, hkind] at htok <;> cases htok
      | opening htok _ =>
          refine ⟨?_, ?_, ?_⟩ <;> intro hkind <;> rw [Token.opens?, hkind] at htok <;> cases htok

theorem Run.kind_close (h : Run (f :: fs) .close (cur :: toks) es) : cur.kind = f.closer := by
  cases h with
  | close htok _ => exact htok

end kinds

/-- The events that come with the next token are those of the rest of the run. -/
theorem behind_eq {trailing : Bool} {stack : List Frame} {phase : Phase} {rest : List Step}
    {es : List Event} (phaseOf : Step → Phase)
    (ih : ∀ {cur : Token} {rest' : List Step}, rest.map Step.token = cur :: rest'.map Step.token →
      (∀ s ∈ rest', s.faults = []) → eventsFrom trailing cur rest' stack phase = es)
    (h : Run stack phase (rest.map Step.token) es) (hrest : ∀ s ∈ rest, s.faults = [])
    (hphase : ∀ s rest', rest = s :: rest' → phaseOf s = phase) :
    behind (fun s rest => eventsFrom trailing s.token rest stack (phaseOf s)) rest = es := by
  cases rest with
  | nil =>
      obtain ⟨cur, toks, htoks⟩ := h.exists_cons
      cases htoks
  | cons s rest =>
      obtain ⟨hs, hrest⟩ := List.forall_mem_cons.mp hrest
      rw [behind, hs, List.nil_append, hphase s rest rfl]
      exact ih rfl hrest

/-- The machine has the events of a run, whether or not a comma may stand in front of an end. -/
theorem Run.eventsFrom_eq {trailing : Bool} {stack : List Frame} {phase : Phase} {toks : List Token}
    {es : List Event} (h : Run stack phase toks es) : ∀ {cur : Token} {rest : List Step},
    toks = cur :: rest.map Step.token → (∀ s ∈ rest, s.faults = []) →
      eventsFrom trailing cur rest stack phase = es := by
  induction h with
  | @finished phase tok hphase htok =>
      intro cur rest htoks hrest
      obtain ⟨rfl, -⟩ := List.cons.inj htoks
      cases phase with
      | value => exact absurd rfl hphase
      | _ =>
          rw [eventsFrom.eq_def]
          exact if_pos htok
  | @scalar fs tok toks es v htok hrun ih =>
      intro cur rest htoks hrest
      obtain ⟨rfl, rfl⟩ := List.cons.inj htoks
      have hbehind := behind_eq (fun _ => .next true) ih hrun hrest fun _ _ _ => rfl
      cases fs <;> rw [eventsFrom.eq_def] <;> simp only [htok] <;> exact congrArg _ hbehind
  | @opening f fs tok toks es htok hrun ih =>
      intro cur rest htoks hrest
      obtain ⟨rfl, rfl⟩ := List.cons.inj htoks
      have hscalar := scalar_of_opens htok
      have hbehind := behind_eq (fun _ => .next false) ih hrun hrest fun _ _ _ => rfl
      cases fs <;> rw [eventsFrom.eq_def] <;> simp only [hscalar, htok] <;> exact congrArg _ hbehind
  | first hrun ih =>
      intro cur rest htoks hrest
      subst htoks
      obtain ⟨hclose, hdone, hcomma⟩ := hrun.kind_item
      rw [eventsFrom.eq_def]
      simp only [hclose, hdone, hcomma, or_self, if_false, ih rfl hrest]
      rfl
  | @comma f fs tok toks es htok hrun ih =>
      intro cur rest htoks hrest
      obtain ⟨rfl, rfl⟩ := List.cons.inj htoks
      have hopen : ¬(tok.kind = f.closer ∨ tok.kind = .done) := by
        rw [htok]
        cases f <;> simp [Frame.closer]
      have hbehind := behind_eq
        (fun s => if trailing ∧ s.token.kind = f.closer then .close else .item) ih hrun hrest
        fun s rest' hs => if_neg fun h => by
          subst hs
          exact hrun.kind_item.1 h.2
      rw [eventsFrom.eq_def]
      simp only [if_neg hopen, if_pos htok, if_true, List.nil_append]
      exact congrArg _ hbehind
  | item hrun ih =>
      intro cur rest htoks hrest
      rw [eventsFrom.eq_def]
      exact ih htoks hrest
  | key htok hrun ih =>
      intro cur rest htoks hrest
      obtain ⟨rfl, rfl⟩ := List.cons.inj htoks
      have hbehind := behind_eq (fun _ => .colon) ih hrun hrest fun _ _ _ => rfl
      rw [eventsFrom.eq_def]
      simp only [if_pos htok]
      exact congrArg _ hbehind
  | colon htok hrun ih =>
      intro cur rest htoks hrest
      obtain ⟨rfl, rfl⟩ := List.cons.inj htoks
      have hbehind := behind_eq (fun _ => .value) ih hrun hrest fun _ _ _ => rfl
      rw [eventsFrom.eq_def]
      simp only [if_pos htok]
      exact congrArg _ hbehind
  | closing hrun ih =>
      intro cur rest htoks hrest
      subst htoks
      rw [eventsFrom.eq_def]
      simp only [hrun.kind_close, true_or, if_true]
      exact ih rfl hrest
  | close htok hrun ih =>
      intro cur rest htoks hrest
      obtain ⟨rfl, rfl⟩ := List.cons.inj htoks
      have hbehind := behind_eq (fun _ => .next true) ih hrun hrest fun _ _ _ => rfl
      rw [eventsFrom.eq_def]
      simp only [if_pos htok]
      exact congrArg _ hbehind

/-! ### Tokens -/

theorem Ended.cons {tok : Token} {toks : List Token} (htok : tok.kind ≠ .done) (h : Ended toks) :
    Ended (tok :: toks) := by
  cases toks with
  | nil => cases h
  | cons t ts => exact ⟨htok, h⟩

theorem kind_wordLexeme_ne (c : CodeUnit) (r : Text) : (wordLexeme c r).kind ≠ .done := by
  unfold wordLexeme wordKind
  dsimp only
  split_ifs <;> exact nofun

theorem kind_slashLexeme_ne (r : Text) : (slashLexeme r).kind ≠ .done := by
  cases r with
  | nil => exact nofun
  | cons d r =>
      unfold slashLexeme Lexeme.single
      dsimp only
      split_ifs <;> exact nofun

theorem kind_lexeme_ne (c : CodeUnit) (r : Text) : (lexeme c r).kind ≠ .done := by
  intro h
  unfold lexeme at h
  -- the blanks, the signs of one unit and the strings
  iterate 10
    rcases kind_ite h with h | h
    · cases h
  rcases kind_ite h with h | h
  · exact absurd h (kind_slashLexeme_ne r)
  rcases kind_ite h with h | h
  · revert h
    unfold minusLexeme Lexeme.single
    split_ifs <;> exact nofun
  rcases kind_ite h with h | h
  · cases h
  · exact absurd h (kind_wordLexeme_ne c r)

theorem ended_tokensFrom (size start : ℕ) (t : Text) : Ended (tokensFrom size start t) := by
  fun_induction tokensFrom size start t with
  | case1 start => rfl
  | case2 start c r l ih => exact ih.cons (kind_lexeme_ne c r)

/-- The end mark is among the tokens that matter. -/
theorem ended_steps {toks : List Token} (faults : List Event) (htoks : Ended toks) :
    Ended ((steps faults toks).map Step.token) := by
  induction toks generalizing faults with
  | nil => cases htoks
  | cons tok toks ih =>
      have hskip (faults' : List Event) (hkind : tok.kind ≠ .done) := ih faults' (htoks.tail hkind)
      unfold steps
      dsimp only
      split
      · rename_i hkind
        exact hskip _ (by rw [hkind]; exact nofun)
      · rename_i hkind
        exact hskip _ (by rw [hkind]; exact nofun)
      · rename_i hkind
        exact hskip _ (by rw [hkind]; exact nofun)
      · by_cases hkind : tok.kind = .done
        · cases toks with
          | nil => exact hkind
          | cons t ts => exact absurd hkind htoks.1
        · exact (hskip _ hkind).cons hkind

/-- A text without faults has a run over the tokens that matter, and the events of the run, whether or
not a comma may stand in front of an end. -/
theorem Faultless.run_steps {t : Text} (h : Faultless t) :
    Run [] .value ((steps [] (tokens t)).map Step.token) (events false t) ∧
      events true t = events false t := by
  have hended := ended_steps [] (ended_tokensFrom t.length 0 t)
  have hsteps := onlyFaults_steps (List.forall_mem_nil _) (tokens t)
  unfold Faultless events at h
  unfold events
  unfold tokens at *
  cases hnext : steps [] (tokensFrom t.length 0 t) with
  | nil =>
      rw [hnext] at hended
      cases hended
  | cons s rest =>
      rw [hnext] at hended hsteps h
      obtain ⟨hs, hrest⟩ := List.forall_mem_cons.mp hsteps
      obtain ⟨hfaults, h⟩ := NoFaults.append h
      have hphase : Phase.value.IsSound := trivial
      obtain ⟨hnone, hrun⟩ := run_eventsFrom hended hrest hphase h
      simp only [hs.eq_nil hfaults, List.nil_append]
      exact ⟨hrun, hrun.eventsFrom_eq rfl hnone⟩

theorem Faultless.exists_run {t : Text} (h : Faultless t) : ∃ toks, toks.Sublist (tokens t) ∧
    Run [] .value toks (events false t) ∧ events true t = events false t :=
  ⟨_, sublist_steps [] (tokens t), h.run_steps⟩

/-- In a run each string is a key or a value. -/
theorem Run.exists_entry {fs : List Frame} {phase : Phase} {toks : List Token} {es : List Event}
    (h : Run fs phase toks es) {tok : Token} (htok : tok ∈ toks) (hstring : tok.kind = .string) :
    ∃ e ∈ es, e.kind.isEntry = true ∧ e.start = tok.start := by
  have hlater {e : Event} {es : List Event}
      (h : ∃ e' ∈ es, e'.kind.isEntry = true ∧ e'.start = tok.start) :
      ∃ e' ∈ e :: es, e'.kind.isEntry = true ∧ e'.start = tok.start := by
    obtain ⟨e', he', hentry⟩ := h
    exact ⟨e', List.mem_cons_of_mem e he', hentry⟩
  have hne {tok' : Token} (hkind : tok'.kind ≠ .string) : tok ≠ tok' := by
    rintro rfl
    exact hkind hstring
  induction h with
  | finished _ hdone =>
      refine absurd (List.mem_singleton.mp htok) (hne ?_)
      rw [hdone]
      exact nofun
  | scalar _ _ ih =>
      rcases List.mem_cons.mp htok with rfl | htok
      · exact ⟨_, List.mem_cons_self, rfl, rfl⟩
      · exact hlater (ih htok)
  | opening hopens _ ih =>
      refine hlater (ih ((List.mem_cons.mp htok).resolve_left (hne fun hkind => ?_)))
      rw [Token.opens?, hkind] at hopens
      cases hopens
  | first _ ih => exact ih htok
  | comma hcomma _ ih =>
      refine hlater (ih ((List.mem_cons.mp htok).resolve_left (hne ?_)))
      rw [hcomma]
      exact nofun
  | item _ ih => exact ih htok
  | key _ _ ih =>
      rcases List.mem_cons.mp htok with rfl | htok
      · exact ⟨_, List.mem_cons_self, rfl, rfl⟩
      · exact hlater (ih htok)
  | colon hcolon _ ih =>
      refine hlater (ih ((List.mem_cons.mp htok).resolve_left (hne ?_)))
      rw [hcolon]
      exact nofun
  | closing _ ih => exact ih htok
  | @close f _ _ _ _ hclose _ ih =>
      refine hlater (ih ((List.mem_cons.mp htok).resolve_left (hne ?_)))
      rw [hclose]
      cases f <;> exact nofun

/-! ### The order of events -/

/-- The token of an event stands in front of that of another one. -/
def Event.Before (a b : Event) : Prop := a.start < b.start ∧ a.stop ≤ b.start

/-- An event stems from a token, that of a key from a string. -/
structure Event.StemsFrom (e : Event) (tok : Token) : Prop where
  ne_done : tok.kind ≠ .done
  start_eq : e.start = tok.start
  length_eq : e.length = tok.length
  kind_eq : ∀ name, e.kind = .property name → tok.kind = .string

/-- The events of a run stem from its tokens, in their order. -/
theorem Run.ordered {fs : List Frame} {phase : Phase} {toks : List Token} {es : List Event}
    (h : Run fs phase toks es) (htoks : toks.Pairwise Token.Before) :
    es.Pairwise Event.Before ∧ ∀ e ∈ es, ∃ tok ∈ toks, e.StemsFrom tok := by
  have hcons {tok : Token} {toks : List Token} {e : Event} {es : List Event}
      (htoks : (tok :: toks).Pairwise Token.Before) (he : e.StemsFrom tok)
      (ih : es.Pairwise Event.Before ∧ ∀ e ∈ es, ∃ tok ∈ toks, e.StemsFrom tok) :
      (e :: es).Pairwise Event.Before ∧ ∀ x ∈ e :: es, ∃ t ∈ tok :: toks, x.StemsFrom t := by
    obtain ⟨hpairwise, hstems⟩ := ih
    refine ⟨List.pairwise_cons.mpr ⟨fun x hx => ?_, hpairwise⟩,
      List.forall_mem_cons.mpr ⟨⟨tok, List.mem_cons_self, he⟩, fun x hx => ?_⟩⟩
    · obtain ⟨t, ht, hxt⟩ := hstems x hx
      have hbefore := List.rel_of_pairwise_cons htoks ht hxt.ne_done
      rw [Event.Before, Event.stop, he.start_eq, he.length_eq, hxt.start_eq]
      exact hbefore
    · obtain ⟨t, ht, hxt⟩ := hstems x hx
      exact ⟨t, List.mem_cons_of_mem _ ht, hxt⟩
  induction h with
  | finished => exact ⟨List.Pairwise.nil, List.forall_mem_nil _⟩
  | scalar htok _ ih => exact hcons htoks ⟨kind_of_scalar htok, rfl, rfl, nofun⟩ (ih htoks.of_cons)
  | @opening f _ _ _ _ htok _ ih =>
      refine hcons htoks ⟨kind_of_opens htok, rfl, rfl, ?_⟩ (ih htoks.of_cons)
      cases f <;> exact nofun
  | first _ ih => exact ih htoks
  | comma htok _ ih =>
      exact hcons htoks ⟨by rw [htok]; exact nofun, rfl, rfl, nofun⟩ (ih htoks.of_cons)
  | item _ ih => exact ih htoks
  | key htok _ ih =>
      exact hcons htoks ⟨by rw [htok]; exact nofun, rfl, rfl, fun _ _ => htok⟩ (ih htoks.of_cons)
  | colon htok _ ih =>
      exact hcons htoks ⟨by rw [htok]; exact nofun, rfl, rfl, nofun⟩ (ih htoks.of_cons)
  | closing _ ih => exact ih htoks
  | @close f _ _ _ _ htok _ ih =>
      refine hcons htoks ⟨?_, rfl, rfl, ?_⟩ (ih htoks.of_cons)
      · rw [htok]
        cases f <;> exact nofun
      · cases f <;> exact nofun

end Json
end Scopewright
