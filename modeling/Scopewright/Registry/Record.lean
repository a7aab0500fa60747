import Scopewright.PathName

/-! # Records of syntaxes

What a syntax file says about itself (`Registry.Record`): its base scope, the scopes it assigns,
and the syntaxes it refers to.  A scope value is split into names by `splitScopes`, and a reference is
read by `Reference.ofTarget?` or `Reference.ofInclude?`. -/

namespace Scopewright
namespace Registry

/-- A syntax file with its contents. -/
structure File where
  /-- Where the file is found: `Packages/<package>/<path in the package>`. -/
  resourcePath : Text
  packageId : Text
  text : Text
deriving DecidableEq, Inhabited

/-- The resource path of a file in a package; without a package directory the file stands in it
directly. -/
def resourcePath (packageId : Text) (packagePath : Option Text) (filePath : Text) : Text :=
  let inside :=
    match packagePath.filter fun d => !d.isEmpty with
    | some dir => PathName.relative dir filePath
    | none => PathName.baseName filePath
  Text.join "/" ["Packages", packageId, inside]

/-- A reference to another syntax, by its base scope or by its resource path. -/
inductive Reference where
  | scope (name : Text)
  | path (path : Text)
deriving DecidableEq, Inhabited

/-- What a syntax file says about itself. -/
structure Record where
  resourcePath : Text
  packageId : Text
  /-- The scope of the whole syntax. -/
  baseScope : Option Text
  /-- The syntax is not shown in menus. -/
  hidden : Bool
  /-- The scopes that the file assigns. -/
  ownScopes : List Text
  references : List Reference
deriving DecidableEq, Inhabited

/-- A scope name and the syntax that declares it. -/
structure Entry where
  name : Text
  source : Text
  packageId : Text
  /-- Only hidden syntaxes lead to the declaration. -/
  internal : Bool
deriving DecidableEq, Inhabited

/-- The names in a scope value; names with substitutions in them are left out. -/
def splitScopes (value : Text) : List Text :=
  value.words.filter fun name => !(Text.contains name '$' || Text.has "\x7b\x7b" name)

/-- What stands before the first `#`, without white space at its ends. -/
def beforeHash (value : Text) : Text :=
  Text.trim (value.takeWhile fun (c : CodeUnit) => decide (c ≠ '#'))

namespace Reference

/-- How references by scope begin. -/
def scopeMark : Text := "scope:"

/-- How resource paths begin. -/
def pathMark : Text := "Packages/"

/-- The reference in the name of a context: `scope:` with a scope, or a resource path.  Other names
are names of the syntax itself. -/
def ofTarget? (value : Text) : Option Reference :=
  let target := beforeHash value
  if scopeMark.isPrefixOf target then
    let name := target.drop scopeMark.length
    if name.isEmpty then none else some (.scope name)
  else if pathMark.isPrefixOf target then some (.path target)
  else none

/-- The reference in an include: a scope.  Names that begin with `#` or `$` are names of the grammar
itself. -/
def ofInclude? (value : Text) : Option Reference :=
  if value.head?.any fun (c : CodeUnit) => decide (c = '#') || decide (c = '$') then none
  else
    let name := beforeHash value
    if name.isEmpty then none else some (.scope name)

end Reference
end Registry
end Scopewright
