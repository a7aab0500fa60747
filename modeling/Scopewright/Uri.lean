import Scopewright.Dialect
import Scopewright.SyntaxTest.Request
import Scopewright.Text.Percent

/-! # Document identifiers

A document is identified by a URI.  Of its parts the scheme, the authority and the path matter
here (`Uri.parse`), the latter two with their percent escapes read.  A saved file has a file name
(`Uri.fileName?`), and a document's dialect is told from its language, its name or its first line
(`dialectOf`). -/

namespace Scopewright

/-- The parts of a URI that matter. -/
structure Uri where
  scheme : Text
  authority : Text
  path : Text
deriving DecidableEq, Inhabited

namespace Uri

/-- Why a text is no URI. -/
inductive Fault where
  | illegalScheme
  | relativePath
  | doubleSlash
deriving DecidableEq, Repr, Inhabited

/-- The message of a fault. -/
def Fault.message : Fault → Text
  | illegalScheme => "[UriError]: Scheme contains illegal characters."
  | relativePath => "[UriError]: If a URI contains an authority component, then the path component must either be empty or begin with a slash (\"/\") character"
  | doubleSlash => "[UriError]: If a URI does not contain an authority component, then the path component can not begin with two slash characters (\"//\")"

/-- Begins the query or the fragment. -/
def endsPath (c : CodeUnit) : Bool := decide (c = '?') || decide (c = '#')

/-- Ends the authority. -/
def endsAuthority (c : CodeUnit) : Bool := decide (c = '/') || endsPath c

/-- The scheme, if a colon comes first of the units that end a part, and what follows it. -/
def splitScheme (t : Text) : Text × Text :=
  let scheme := t.takeWhile fun (c : CodeUnit) => !(decide (c = ':') || endsAuthority c)
  let rest := t.drop scheme.length
  if !scheme.isEmpty && rest.head? = some (CodeUnit.ofBasic ':') then (scheme, rest.drop 1)
  else ([], t)

/-- Begins the authority. -/
def authorityMark : Text := "//"

/-- The authority, which two slashes begin, and what follows it. -/
def splitAuthority (t : Text) : Text × Text :=
  if authorityMark.isPrefixOf t then
    let authority := (t.drop 2).takeWhile fun c => !endsAuthority c
    (authority, t.drop (2 + authority.length))
  else ([], t)

/-- The scheme of a text without one. -/
def fileScheme : Text := "file"

/-- The schemes whose paths are absolute. -/
def rootedSchemes : List Text := [fileScheme, "http", "https"]

/-- A scheme is a letter, a digit or an underscore, then more of them, plus signs, points and
minus signs. -/
def isScheme (t : Text) : Bool :=
  t.head?.any CodeUnit.isWord && t.all fun (c : CodeUnit) =>
    c.isWord || decide (c = '+') || decide (c = '.') || decide (c = '-')

/-- The path, with the slash that its scheme demands. -/
def rootPath (scheme path : Text) : Text :=
  if rootedSchemes.contains scheme && path.head? ≠ some (CodeUnit.ofBasic '/') then
    ("/" : Text) ++ path
  else path

/-- What is wrong with the parts of a URI. -/
def fault? (u : Uri) : Option Fault :=
  if !isScheme u.scheme then some .illegalScheme
  else if u.path.isEmpty then none
  else if u.authority.isEmpty then
    if authorityMark.isPrefixOf u.path then some .doubleSlash else none
  else if u.path.head? = some (CodeUnit.ofBasic '/') then none
  else some .relativePath

/-- The parts of a URI. -/
def parse (t : Text) : Except Fault Uri :=
  let (given, afterScheme) := splitScheme t
  let (authority, afterAuthority) := splitAuthority afterScheme
  let path := afterAuthority.takeWhile fun c => !endsPath c
  let scheme := if given.isEmpty then fileScheme else given
  let u : Uri := ⟨scheme, Text.Percent.decodeLoosely authority,
    rootPath scheme (Text.Percent.decodeLoosely path)⟩
  match fault? u with
  | some f => .error f
  | none => .ok u

/-- The path as a file name: the authority is a host, and the letter of a drive is lower case. -/
def filePath (u : Uri) : Text :=
  if !u.authority.isEmpty && decide (1 < u.path.length) && decide (u.scheme = fileScheme) then
    authorityMark ++ u.authority ++ u.path
  else match u.path with
    | slash :: drive :: colon :: rest =>
      if slash = '/' ∧ drive.isLetter ∧ colon = ':' then
        Text.toLower [drive] ++ (colon :: rest)
      else u.path
    | _ => u.path

/-- The name of a saved file. -/
def fileName? (u : Uri) : Option Text := if u.scheme = fileScheme then some u.filePath else none

end Uri

/-- The file name of a document, if it is a saved file. -/
def fileNameOf (uri : Text) : Except Uri.Fault (Option Text) := (Uri.parse uri).map Uri.fileName?

/-- The dialect of a document: its language if that is a dialect, else what its name tells, else
a syntax test if the first line is that of one. -/
def dialectOf (languageId uri text : Text) : Except Uri.Fault (Option Dialect) :=
  match Dialect.ofName? languageId with
  | some d => .ok (some d)
  | none => (Uri.parse uri).map fun u =>
    match Dialect.ofFileName? u.path with
    | some d => some d
    | none => if SyntaxTest.isTest none text then some .syntaxTest else none

end Scopewright
