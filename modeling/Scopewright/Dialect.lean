import Scopewright.PathName

/-! # Dialects and formats

A dialect is a kind of package file, with its own schema; a format is the notation it is
written in (`Dialect.format`).  A file's dialect is told from its name
(`Dialect.ofFileName?`). -/

namespace Scopewright

/-- The notation of a document. -/
inductive Format where
  | json
  | yaml
  | plist
  | xml
  | text
deriving DecidableEq, Repr, Inhabited

/-- The kind of a package file. -/
inductive Dialect where
  | sublimeSyntax
  | tmLanguage
  | colorScheme
  | tmTheme
  | tmPreferences
  | keymap
  | buildSystem
  | snippet
  | syntaxTest
deriving DecidableEq, Repr, Inhabited

namespace Format

/-- The name of a format. -/
def name : Format → Text
  | json => "json"
  | yaml => "yaml"
  | plist => "plist"
  | xml => "xml"
  | text => "text"

/-- All formats. -/
def all : List Format := [json, yaml, plist, xml, text]

/-- The format of a name. -/
def ofName? (t : Text) : Option Format := all.find? fun f => decide (f.name = t)

end Format

namespace Dialect

/-- The name of a dialect, which is also its language identifier. -/
def name : Dialect → Text
  | sublimeSyntax => "sublime-syntax"
  | tmLanguage => "tmlanguage"
  | colorScheme => "color-scheme"
  | tmTheme => "tmtheme"
  | tmPreferences => "tmpreferences"
  | keymap => "keymap"
  | buildSystem => "build-system"
  | snippet => "snippet"
  | syntaxTest => "syntax-test"

/-- All dialects. -/
def all : List Dialect :=
  [sublimeSyntax, tmLanguage, colorScheme, tmTheme, tmPreferences, keymap, buildSystem, snippet,
    syntaxTest]

/-- The dialect of a name. -/
def ofName? (t : Text) : Option Dialect := all.find? fun d => decide (d.name = t)

/-- The format that a dialect is written in. -/
def format : Dialect → Format
  | sublimeSyntax => .yaml
  | tmLanguage | tmTheme | tmPreferences => .plist
  | colorScheme | keymap | buildSystem => .json
  | snippet => .xml
  | syntaxTest => .text

/-- The file name extensions of the dialects, in lower case. -/
def extensions : List (Text × Dialect) := [
  (".sublime-syntax", sublimeSyntax),
  (".tmlanguage", tmLanguage),
  (".hidden-tmlanguage", tmLanguage),
  (".sublime-color-scheme", colorScheme),
  (".hidden-color-scheme", colorScheme),
  (".tmtheme", tmTheme),
  (".hidden-tmtheme", tmTheme),
  (".tmpreferences", tmPreferences),
  (".sublime-keymap", keymap),
  (".sublime-build", buildSystem),
  (".sublime-snippet", snippet)]

/-- How the names of syntax test files begin. -/
def testFileMark : Text := "syntax_test_"

/-- The name of a file says that it is a syntax test. -/
def isTestFileName (fileName : Text) : Bool :=
  testFileMark.isPrefixOf (PathName.baseName fileName)

/-- The dialect that a file name tells, by its beginning or by its extension in any case. -/
def ofFileName? (fileName : Text) : Option Dialect :=
  if isTestFileName fileName then some syntaxTest
  else extensions.lookup (PathName.extensionKey fileName)

/-- The extensions of files that define a syntax. -/
def syntaxExtensions : List Text := [".sublime-syntax", ".tmlanguage", ".hidden-tmlanguage"]

/-- The file name is that of a syntax definition. -/
def isSyntaxFileName (fileName : Text) : Bool :=
  syntaxExtensions.contains (PathName.extensionKey fileName)

end Dialect
end Scopewright
