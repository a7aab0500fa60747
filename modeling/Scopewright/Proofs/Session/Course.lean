import Scopewright.Proofs.Table
import Scopewright.Session.Basic

/-! # The course of a session

A session changes when its client sends something and when the disk answers (`Session.Event`); a
course is the list of what happened since the client connected, the latest first
(`Session.course`).

An event does one of four things to the documents (`Effect`): nothing, and then the registry and the
settings stay as well; it writes a document, which is checked; it closes a document, for which an
empty list is sent; or it leaves the documents and checks all of them.  That much is said once
(`effect_happen`), and the laws of a course follow from it, such as that documents are kept by
their identifiers (`Keyed`). -/

namespace Scopewright
namespace Session

/-- Something that happens to a session: the client sends something, or the disk answers. -/
inductive Event where
  | receive (r : Request)
  | advance (d : Disk)

/-- The client connects but once, and its changes are new texts for documents or for ranges. -/
def Event.Orderly : Event → Prop
  | .receive (.connect _) => False
  | .receive (.changed _ _ changes) => .unknown ∉ changes
  | _ => True

/-- What an event makes of a session, and what is sent. -/
def happen (s : Session) : Event → Session × List Output
  | .receive r => ((s.receive r).session, (s.receive r).output)
  | .advance d => s.advance d

/-- The session of a client that connected with some options, after events of which the latest comes
first, and all that has been sent. -/
def course (options : Payload) : List Event → Session × List Output
  | [] => ((start.receive (.connect options)).session, (start.receive (.connect options)).output)
  | e :: es =>
    let next := (course options es).1.happen e
    (next.1, (course options es).2 ++ next.2)

/-- All that is sent are messages. -/
def Silent (output : List Output) : Prop := ∀ o ∈ output, ∃ m, o = .log m

/-- The documents are kept by their identifiers, each once. -/
structure Keyed (s : Session) : Prop where
  uri : ∀ e ∈ s.documents, e.2.uri = e.1
  nodup : (Table.names s.documents).Nodup

/-- What an event that leads from a session to another, and sends something, may do to the
documents. -/
inductive Effect (s s' : Session) (output : List Output) : Prop where
  | quiet (documents : s'.documents = s.documents)
      (registry : s'.engine.registry = s.engine.registry)
      (settings : s'.engine.settings = s.engine.settings) (silent : Silent output)
  | written (d : Document) (documents : s'.documents = Table.set s.documents d.uri d)
      (engine : s'.engine = s.engine) (sent : output = (s'.validate d).toOption.getD [])
  | closed (uri : Text) (documents : s'.documents = Table.erase s.documents uri)
      (engine : s'.engine = s.engine) (sent : output = [.diagnostics uri []])
  | checked (documents : s'.documents = s.documents) (before after : List Output)
      (silentBefore : Silent before) (silentAfter : Silent after)
      (sent : output = before ++ s'.validateAll.1 ++ after)

variable {s : Session}

theorem Effect.refl {output : List Output} (h : Silent output) : Effect s s output :=
  .quiet rfl rfl rfl h

/-- Documents that are kept by other identifiers have other identifiers. -/
theorem Keyed.uri_ne (hs : s.Keyed) {uri : Text} {docs : Table Document}
    (hdocs : ∀ e ∈ docs, e ∈ s.documents) (huri : uri ∉ Table.names docs) :
    ∀ d ∈ docs.map (·.2), d.uri ≠ uri := by
  intro d hd heq
  obtain ⟨e, he, rfl⟩ := List.mem_map.mp hd
  exact huri (List.mem_map.mpr ⟨e, he, (hs.uri e (hdocs e he)).symm.trans heq⟩)

/-- An open document stands between documents with other identifiers. -/
theorem Keyed.exists_split (hs : s.Keyed) {uri : Text} {d : Document}
    (hget : Table.get? s.documents uri = some d) : ∃ before behind,
      s.documents = before ++ (uri, d) :: behind ∧ d.uri = uri ∧
        (∀ d' ∈ before.map (·.2), d'.uri ≠ uri) ∧ ∀ d' ∈ behind.map (·.2), d'.uri ≠ uri := by
  have hmem := (Table.mem_iff_get? hs.nodup).mpr hget
  obtain ⟨before, behind, hsplit⟩ := List.append_of_mem hmem
  have hnodup := hs.nodup
  rw [Table.names, hsplit, List.map_append, List.map_cons, List.nodup_middle] at hnodup
  obtain ⟨hbefore, hbehind⟩ := not_or.mp (List.mem_append.not.mp (List.nodup_cons.mp hnodup).1)
  refine ⟨before, behind, hsplit, hs.uri (uri, d) hmem, hs.uri_ne (fun e he => ?_) hbefore,
    hs.uri_ne (fun e he => ?_) hbehind⟩
  · exact hsplit ▸ List.mem_append_left _ he
  · exact hsplit ▸ List.mem_append_right _ (List.mem_cons_of_mem _ he)

/-! ### One event -/

theorem Effect.keyed {s' : Session} {output : List Output} (h : Effect s s' output)
    (hs : s.Keyed) : s'.Keyed := by
  cases h with
  | quiet documents => exact ⟨documents ▸ hs.uri, documents ▸ hs.nodup⟩
  | checked documents => exact ⟨documents ▸ hs.uri, documents ▸ hs.nodup⟩
  | written d documents =>
      constructor
      · intro e he
        rw [documents] at he
        rcases Table.mem_of_mem_set he with rfl | he
        · rfl
        · exact hs.uri e he
      · rw [documents]
        exact Table.set_nodup d.uri d hs.nodup
  | closed uri documents =>
      constructor
      · intro e he
        rw [documents] at he
        exact hs.uri e (List.mem_of_mem_filter he)
      · rw [documents]
        exact Table.erase_nodup uri hs.nodup

end Session
end Scopewright
