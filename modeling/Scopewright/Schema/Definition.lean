import Scopewright.Schema.Basic

/-! # Schemas of syntax definitions

Both kinds of syntax definitions are lists of rules, and rules hold rules: in their own
schemas the rule is a named one. -/

namespace Scopewright
namespace Schema

open Node

/-- The position of a scope name. -/
def scopeName (name : Text) (description : Option Text) : Node :=
  scalar name .scopeName description

/-- A reference to contexts: one of them or a list. -/
def pushing (name description : Text) : Node :=
  (reference name .context description none).orList (.rule "context")

/-- The keys of a rule of a `.sublime-syntax` definition. -/
def ruleKeys : List Node := [
  regex "match" "Regular expression matched against the line",
  scopeName "scope" "Scope assigned to the matched text",
  dictionary "captures" (scopeName "capture" none) "Scopes assigned to capture groups",
  pushing "push" "Push contexts onto the stack",
  pushing "set" "Replace the current context with other contexts",
  scalar "pop" .any "Pop the current context (or the given number of contexts)",
  reference "embed" .context "Embed a context until `escape` matches" none,
  scopeName "embed_scope" "Scope applied to embedded text",
  regex "escape" "Pattern that leaves the embedded context",
  dictionary "escape_captures" (scopeName "capture" none)
    "Scopes assigned to escape capture groups",
  reference "include" .context "Include the rules of another context" none,
  bool "apply_prototype" "Apply the included context's prototype",
  scopeName "meta_scope"
    "Scope applied to all text of the context, including the match that pushed it",
  scopeName "meta_content_scope" "Scope applied to the text inside the context",
  bool "meta_include_prototype" "Whether the prototype context is included",
  bool "meta_prepend" "Prepend rules to the inherited context",
  bool "meta_append" "Append rules to the inherited context",
  scalar "clear_scopes" .any "Clear `true` (all) or a number of scopes from the stack",
  str "branch_point" "Name of a branch point",
  list "branch" (.rule "context") "Contexts to try in order",
  str "fail" "Fail the named branch point",
  list "with_prototype" (.rule "rule") "Rules applied inside every pushed context"]

/-- The named rules of a `.sublime-syntax` definition: a rule, and what a reference to a context
may be besides its name. -/
def definitionRules : Rules := [
  ("rule", mapping "rule" ruleKeys "Match rule"),
  ("context",
    (reference "context" .context "Context name or `scope:` reference" none).orMapping ruleKeys)]

/-- A `.sublime-syntax` definition. -/
def definition : Node :=
  mapping "sublime-syntax" [
    str "name" "Name shown in the syntax menu",
    list "file_extensions" (str "extension" none) "File extensions handled by the syntax",
    list "hidden_file_extensions" (str "extension" none)
      "Extensions handled but not shown in file dialogs",
    regex "first_line_match" "Pattern matched against the first line of unrecognised files",
    scopeName "scope" "Base scope of the syntax",
    scalar "version" .number "Syntax definition version",
    (reference "extends" .syntaxFile "Syntax this one inherits from" none).orList
      (reference "syntax" .syntaxFile none none),
    bool "hidden" "Hide the syntax from the menu",
    dictionary "variables" (regex "variable" none)
      "Patterns substituted with \x7b\x7bname\x7d\x7d",
    dictionary "contexts" (list "context" (.rule "rule") none) "Named lists of rules"]
    "Syntax definition"

/-- What a capture group of a grammar holds. -/
def capture : Node :=
  mapping "capture" [
    scopeName "name" "Scope assigned to the capture group",
    list "patterns" (.rule "rule") "Rules applied inside the capture"] none

/-- The keys of a rule of a `.tmLanguage` grammar. -/
def grammarRuleKeys : List Node := [
  regex "match" "Single-line pattern",
  regex "begin" "Pattern that opens the region",
  regex "end" "Pattern that closes the region",
  regex "while" "Pattern that must match each following line",
  scopeName "name" "Scope assigned to the match or region",
  scopeName "contentName" "Scope assigned to the text between begin and end",
  dictionary "captures" capture "Scopes of capture groups",
  dictionary "beginCaptures" capture "Scopes of `begin` capture groups",
  dictionary "endCaptures" capture "Scopes of `end` capture groups",
  dictionary "whileCaptures" capture "Scopes of `while` capture groups",
  reference "include" .inclusion "Repository item, grammar scope or $self"
    (some ["$self", "$base"]),
  list "patterns" (.rule "rule") "Nested rules",
  scalar "applyEndPatternLast" .any "Try `end` after the nested patterns",
  str "comment" none,
  scalar "disabled" .any "Skip this rule",
  dictionary "repository" (.rule "rule") "Rules referenced with #name"]

/-- The named rule of a grammar. -/
def grammarRules : Rules := [("rule", mapping "rule" grammarRuleKeys "Grammar rule")]

/-- A `.tmLanguage` grammar. -/
def grammar : Node :=
  mapping "tmlanguage" [
    str "name" "Name shown in the syntax menu",
    scopeName "scopeName" "Base scope of the grammar",
    list "fileTypes" (str "extension" none) "File extensions handled by the grammar",
    regex "firstLineMatch" "Pattern matched against the first line of unrecognised files",
    regex "foldingStartMarker" none,
    regex "foldingStopMarker" none,
    list "patterns" (.rule "rule") "Top-level rules",
    dictionary "repository" (.rule "rule") "Rules referenced with #name",
    bool "hideFromUser" "Hide the grammar from the menu",
    str "uuid" none,
    str "comment" none,
    str "keyEquivalent" none]
    "TextMate grammar"

end Schema
end Scopewright
