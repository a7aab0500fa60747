import Scopewright.Completion.Candidate
import Scopewright.Completion.Context
import Scopewright.Scope

/-! # Suggestions

What may be completed in each context, before it is matched with the word being typed
(`Completion.suggest?`): keys and values of the schema, names of the document, scopes and
syntaxes of the registry, and names that are always there. -/

namespace Scopewright
namespace Completion

/-- Something that may be completed. -/
structure Suggestion where
  /-- What is shown, matched and put in. -/
  label : Text
  kind : Kind
  source : Source
  detail : Option Text
  internal : Bool
  /-- It is no string in the document. -/
  literal : Bool
deriving DecidableEq, Inhabited

/-- A suggestion that is a string. -/
def Suggestion.plain (label : Text) (kind : Kind) (source : Source) (detail : Option Text) :
    Suggestion := ⟨label, kind, source, detail, false, false⟩

/-- Suggestions and the word that they complete. -/
structure SuggestionSet where
  suggestions : List Suggestion
  word : Text
  /-- Where the word begins; it ends at the cursor. -/
  wordStart : Int
  caseSensitive : Bool

/-- The keys of a mapping that are not there yet, or may come again. -/
def suggestKeys (parent : Schema.Position) (siblingKeys : List Text) (token : Cursor.Token) :
    SuggestionSet :=
  let keys := (parent.keys?.getD []).filter fun k =>
    k.label.isRepeatable || !siblingKeys.contains k.name
  ⟨keys.map fun k => .plain k.name .key .schema k.label.description, token.text, token.start,
    false⟩

/-- The scopes of the registry that match a word, and those of the conventions.  A mark in front of
the word asks for internal scopes too. -/
def suggestScopes (word : Text) (wordStart : Int) (r : Registry) : SuggestionSet :=
  let includeInternal := word.head? = some Scope.internalMark
  let word := if includeInternal then word.drop 1 else word
  let entries := (r.snapshot.query word includeInternal).map fun e =>
    let detail := if e.internal then e.source ++ (" (internal)" : Text) else e.source
    (⟨e.name, .scope, .registry, some detail, e.internal, false⟩ : Suggestion)
  ⟨entries ++ Scope.conventional.map fun s => .plain s .scope .builtin (some "base scope"),
    word, wordStart, true⟩

/-- The variables that style sheets of popups have. -/
def sheetVariables : List Text := Text.ofStrings [
  "--background", "--foreground", "--accent", "--redish", "--orangish", "--yellowish",
  "--greenish", "--cyanish", "--bluish", "--purplish", "--pinkish"]

/-- The variables of the document, and those of style sheets for a word that begins like them. -/
def suggestVariables (word : Text) (wordStart : Int) (variableNames : List Text) : SuggestionSet :=
  let sheets : List Text := if ("--" : Text).isPrefixOf word then sheetVariables else []
  ⟨variableNames.map (fun v => .plain v .variable .document (some "color scheme variable"))
      ++ sheets.map fun v => .plain v .variable .builtin (some "minihtml variable"),
    word, wordStart, true⟩

/-- What a reference may point at: syntaxes by path, or contexts of the document, fixed names, and
syntaxes by scope. -/
def suggestActions (node : Schema.Position) (contexts : List Text) (token : Cursor.Token)
    (r : Registry) : SuggestionSet :=
  let target := node.label.target.getD .context
  let suggestions : List Suggestion :=
    if target = .syntaxFile then
      r.snapshot.syntaxPaths.map fun p => .plain p .action .registry (some "syntax")
    else
      contexts.map (fun c => .plain c .action .document (some "context"))
        ++ (node.label.values.getD []).map (fun v => .plain v .action .schema none)
        ++ r.snapshot.baseScopes.map fun s =>
          let label := if target = .context then ("scope:" : Text) ++ s else s
          .plain label .action .registry (some "syntax")
  ⟨suggestions, token.text, token.start, true⟩

/-- The values of an enumeration; of several words only the last one is completed. -/
def suggestValues (node : Schema.Position) (token : Cursor.Token) : SuggestionSet :=
  let isBoolean := node.kind = .boolean
  let values : List Text := if isBoolean then ["true", "false"] else node.label.values.getD []
  let word := (token.text.reverse.takeWhile fun c => !c.isBlank).reverse
  ⟨values.map fun v => ⟨v, .value, .schema, none, false, isBoolean⟩, word,
    token.start + (token.text.length - word.length : Nat), false⟩

/-- References to variables, functions of colors, and names of colors. -/
def suggestColors (variableNames : List Text) (token : Cursor.Token) : SuggestionSet :=
  let reference (v : Text) : Text := ("var(" : Text) ++ v ++ (")" : Text)
  ⟨variableNames.map (fun v => .plain (reference v) .color .document (some "color scheme variable"))
      ++ Color.functions.map (fun f =>
        .plain (f ++ ("(" : Text)) .color .builtin (some "color function"))
      ++ Color.names.map fun n => .plain n .color .builtin (some "CSS color"),
    token.text, token.start, false⟩

/-- What may be completed in a context; nothing where nothing is known. -/
def suggest? (context : Context) (token : Cursor.Token) (r : Registry) : Option SuggestionSet :=
  match context with
  | .keyName parent siblingKeys => suggestKeys parent siblingKeys token
  | .scopeSelector _ word wordStart _ => suggestScopes word wordStart r
  | .cssVariable word wordStart variableNames => suggestVariables word wordStart variableNames
  | .actionName node contexts => suggestActions node contexts token r
  | .valueEnum node => suggestValues node token
  | .color _ variableNames => suggestColors variableNames token
  | .freeText => none

end Completion
end Scopewright
