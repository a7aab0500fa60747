import Scopewright.Completion.Insertion
import Scopewright.Completion.Suggestion

/-! # Completion

The candidates at an offset of a document (`Completion.complete`): the suggestions of its
context that match the word being typed, in the notation of the document, ranked, and at most so
many. -/

namespace Scopewright
namespace Completion

/-- The candidate of a suggestion that matches the word. -/
def candidate? (set : SuggestionSet) (token : Cursor.Token) (format : Format) (s : Suggestion) :
    Option Candidate :=
  (matchTier? s.label set.word set.caseSensitive).map fun tier =>
    { displayText := s.label
      insertText := insertion s.label token format
        ⟨decide (set.wordStart = token.start), s.literal⟩
      replaced := ⟨set.wordStart, token.stop⟩
      detail := s.detail
      kind := s.kind
      tier
      internal := s.internal
      source := s.source }

/-- The candidates of a context. -/
def generate (context : Context) (token : Cursor.Token) (format : Format) (r : Registry) :
    List Candidate :=
  match suggest? context token r with
  | none => []
  | some set => rank (set.suggestions.filterMap (candidate? set token format))

/-- The first `limit` candidates; a negative limit leaves out as many at the end. -/
def limited (limit : Int) (cs : List Candidate) : List Candidate :=
  if limit < 0 then cs.take (cs.length - limit.natAbs) else cs.take limit.toNat

/-- The message about candidates in a context. -/
def message (offset : Text) (context : Context) (cs : List Candidate) : Log.Message :=
  ⟨.debug, ("Completion at " : Text) ++ offset ++ (": " : Text) ++ context.name ++ (", " : Text)
    ++ .ofNat cs.length ++ (" candidates" : Text)⟩

/-- The candidates at an offset of a document, at most so many, and what is logged. -/
def complete (t : Text) (offset : Int) (d : Dialect) (r : Registry) (limit : Int) :
    List Candidate × Log :=
  let resolution := Cursor.resolve t offset d
  let context := classify resolution d (.ofDocument t d)
  let candidates := generate context resolution.token d.format r
  (limited limit candidates, [message (.ofInt offset) context candidates])

end Completion
end Scopewright
