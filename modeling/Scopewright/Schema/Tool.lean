import Scopewright.Schema.Theme

/-! # Schemas of the files that set up an editor

Metadata, key bindings, build systems, snippets, and the positions of a syntax test where
something can be completed. -/

namespace Scopewright
namespace Schema

open Node

/-- A `.tmPreferences` file. -/
def metadata : Node :=
  mapping "tmpreferences" [
    str "name" none,
    selector "scope" "Selector of the text the settings apply to",
    str "uuid" none,
    mapping "settings" [
      list "shellVariables"
        (mapping "variable" [
          str "name" "Variable name, e.g. TM_COMMENT_START",
          str "value" none] none)
        "Variables used by commands such as toggle comment",
      bool "showInSymbolList" "Show matches in Goto Symbol",
      bool "showInIndexedSymbolList" "Show matches in Goto Symbol in Project",
      regex "symbolTransformation" "Substitutions applied to symbols",
      regex "symbolIndexTransformation" "Substitutions applied to indexed symbols",
      regex "increaseIndentPattern" none,
      regex "decreaseIndentPattern" none,
      regex "bracketIndentNextLinePattern" none,
      regex "disableIndentNextLinePattern" none,
      regex "unIndentedLinePattern" none,
      bool "indentParens" none,
      bool "indentSquareBrackets" none,
      bool "preserveIndent" none,
      regex "cancelCompletion" "Suppress auto complete when the line matches",
      bool "isIgnoredByAutoIndent" none,
      str "icon" "Icon shown for matching files"]
      "Metadata settings"]
    "Metadata"

/-- The operators of a condition. -/
def contextOperators : List Text := Text.ofStrings [
  "equal", "not_equal", "regex_match", "not_regex_match", "regex_contains", "not_regex_contains"]

/-- The keys that a condition asks about, the ones answered here last. -/
def contextKeys : List Text := Text.ofStrings [
  "selector", "preceding_text", "following_text", "text", "selection_empty", "eol_selector",
  "auto_complete_visible", "has_next_field", "has_prev_field", "num_selections",
  "overlay_has_focus", "overlay_name", "panel", "panel_has_focus", "panel_visible",
  "popup_visible", "read_only", "is_recording_macro", "line_above_is_a_syntax_test",
  "current_line_is_a_syntax_test", "file_contains_syntax_tests"]

/-- A `.sublime-keymap` file. -/
def keymap : Node :=
  list "keymap"
    (mapping "binding" [
      list "keys" (str "key" none) "Key chords, e.g. \"ctrl+shift+p\"",
      str "command" "Command to run",
      dictionary "args" (scalar "argument" .any none) "Command arguments",
      list "context"
        (mapping "condition" [
          (str "key" "Context key; `setting.<name>` queries a setting").withValues contextKeys,
          oneOf "operator" contextOperators none,
          scalar "operand" .any none,
          bool "match_all" "All selections must match"] none)
        "Conditions under which the binding applies"] none)
    "Key bindings"

/-- The keys of a build system. -/
def buildKeys : List Node := [
  (str "cmd" "Command and arguments, without a shell").orList (str "argument" none),
  str "shell_cmd" "Command run through the shell",
  regex "file_regex" "Captures file, line, column and message from output",
  regex "line_regex" "Captures line, column and message when file_regex does not match",
  str "working_dir" "Directory the command runs in",
  selector "selector" "Selects this build system automatically",
  list "file_patterns" (str "pattern" none) "File name patterns selecting this build system",
  list "keyfiles" (str "file" none) "File names whose presence selects this build system",
  str "target" "Command that runs the build",
  scalar "cancel" .any "Command or args used to cancel the build",
  bool "kill" "Cancel by terminating the process",
  dictionary "env" (str "variable" none) "Environment variables",
  bool "shell" "Run cmd through the shell",
  str "path" "PATH used to find the command",
  reference "syntax" .syntaxFile "Syntax of the output panel" none,
  bool "word_wrap" "Wrap lines in the output panel",
  bool "quiet" "Suppress build messages",
  str "encoding" "Encoding of the command output"]

/-- What a build system does otherwise on a platform. -/
def platform (name : Text) : Node :=
  mapping name buildKeys (("Overrides for " : Text) ++ name)

/-- A `.sublime-build` file. -/
def buildSystem : Node :=
  mapping "build-system"
    (buildKeys ++ [
      list "variants"
        (mapping "variant" (str "name" "Name shown in the build menu" :: buildKeys) none)
        "Alternative commands",
      platform "windows",
      platform "osx",
      platform "linux"])
    "Build system"

/-- A `.sublime-snippet` file: the element of the document is its only key. -/
def snippet : Node :=
  mapping "document" [
    mapping "snippet" [
      str "content" "Inserted text, with fields like $1 and $\x7b2:default\x7d",
      str "tabTrigger" "Text that expands the snippet",
      selector "scope" "Where the snippet is available",
      str "description" "Shown in the completion list"] none] none

/-- A syntax test: its header and its assertions. -/
def syntaxTest : Node :=
  mapping "syntax-test" [
    reference "header" .syntaxFile "Syntax under test" none,
    selector "assertion" "Selector the asserted text must match"] none

end Schema
end Scopewright
