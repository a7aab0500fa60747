import Scopewright.Text.Percent
import Scopewright.Yaml.Report
import Scopewright.Yaml.Schema

/-! # Directives and tags

Directives in front of a document declare its version and the handles of its tags
(`Yaml.Directives`).  A tag stands for a name (`Directives.tagName`): a handle stands for the
beginning of a name, and a name in angle brackets is taken as it is. -/

namespace Scopewright
namespace Yaml

/-- What the directives of a document declare. -/
structure Directives where
  version : Version
  /-- What the handles of tags stand for, the latest first. -/
  handles : List (Text × Text)

namespace Directives

/-- No directives. -/
def default : Directives := ⟨.v12, [("!!", coreTag)]⟩

/-- The words of a line between blanks. -/
def words (line : Text) : List Text :=
  let rec go (word : Text) : Text → List Text
    | [] => [word]
    | c :: r =>
      if isInline c then
        if r.head?.any isInline then go word r else word :: go [] r
      else go (word ++ [c]) r
  go [] line.trim

/-- Two runs of digits with a point between them. -/
def isVersionNumber (t : Text) : Bool :=
  match Text.splitOn '.' t with
  | [a, b] => areDigits 10 false a && areDigits 10 false b
  | _ => false

/-- Reads a directive; a message goes with the offset of what is wrong. -/
def read (ds : Directives) (line : Text) : Directives × Option (Nat × Text) :=
  match words line with
  | name :: args =>
    if name = "%TAG" then
      let problem : Option (Nat × Text) :=
        if args.length = 2 then none
        else some (0, "%TAG directive should contain exactly two parts")
      match args with
      | handle :: stem :: _ => ({ ds with handles := (handle, stem) :: ds.handles }, problem)
      | _ => (ds, problem)
    else if name = "%YAML" then
      match args with
      | [version] =>
        if version = "1.1" then ({ ds with version := .v11 }, none)
        else if version = "1.2" then ({ ds with version := .v12 }, none)
        else if isVersionNumber version then (ds, none)
        else (ds, some (6, ("Unsupported YAML version " : Text) ++ version))
      | _ => (ds, some (0, "%YAML directive should contain exactly one part"))
    else (ds, none)
  | [] => (ds, none)

/-- The name that a tag stands for, if it stands for one. -/
def tagName (ds : Directives) (t : Token) : Report (Option Text) := do
  let source := t.source
  if source = "!" then return some source
  else if ("!<" : Text).isPrefixOf source then
    let name := (source.drop 2).dropLast
    if name = "!" ∨ name = "!!" then
      Report.atToken t
        (("Verbatim tags aren't resolved, so " : Text) ++ source ++ (" is invalid." : Text))
      return none
    else
      if source.getLast? ≠ some (CodeUnit.ofBasic '>') then
        Report.atToken t "Verbatim tags must end with a >"
      return if name.isEmpty then none else some name
  else
    let suffix := (source.reverse.takeWhile fun (c : CodeUnit) => decide (c ≠ '!')).reverse
    let handle := source.take (source.length - suffix.length)
    if suffix.isEmpty then
      Report.atToken t (("The " : Text) ++ source ++ (" tag has no suffix" : Text))
    match ds.handles.lookup handle with
    | some stem =>
      match Text.Percent.decode? suffix with
      | some name => return some (stem ++ name)
      | none =>
        Report.atToken t "URIError: URI malformed"
        return none
    | none =>
      if handle = "!" then return some source
      Report.atToken t (("Could not resolve tag: " : Text) ++ source)
      return none

end Directives
end Yaml
end Scopewright
