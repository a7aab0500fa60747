import Scopewright.Text.LowerCase

/-! # Path names

Names of files with `/` between the components: the last component and its extension, joining
with `.` and `..` resolved, and the way from one directory to a file.  A name is absolute when it
begins with a slash. -/

namespace Scopewright
namespace PathName

variable (p : Text)

/-- The components of a name, empty ones left out. -/
def components : List Text := (p.splitOn '/').filter (!·.isEmpty)

/-- The last component. -/
def baseName : Text := (components p).getLast?.getD []

/-- The last component from its last point on; nothing when only that point or another one
stands in front. -/
def extension : Text :=
  let base := baseName p
  match base.lastIndex? '.' with
  | none => []
  | some 0 => []
  | some k => if base = ".." then [] else base.drop k

/-- The extension in lower case. -/
def extensionKey : Text := (extension p).toLower

/-- The name begins with a slash. -/
def startsWithSlash : Bool := p.head?.any fun (c : CodeUnit) => decide (c = '/')

/-- Resolves `.` and `..` among components, the components already passed nearest first; above the
top `..` is kept in a relative name only. -/
def resolveDots (absolute : Bool) : List Text → List Text → List Text
  | done, [] => done.reverse
  | done, part :: parts =>
    if part = "." then resolveDots absolute done parts
    else if part = ".." then
      match done with
      | [] => resolveDots absolute (if absolute then [] else [part]) parts
      | up :: rest =>
        if up = ".." then resolveDots absolute (part :: up :: rest) parts
        else resolveDots absolute rest parts
    else resolveDots absolute (part :: done) parts

/-- The name without `.` and `..` where they can be resolved, and without doubled slashes. -/
def normalize : Text :=
  if p.isEmpty then "." else
  let absolute := startsWithSlash p
  let body := Text.join "/" (resolveDots absolute [] (components p))
  let trailing := p.getLast?.any fun (c : CodeUnit) => decide (c = '/')
  let lead : Text := if absolute then "/" else []
  if body.isEmpty then (if absolute then "/" else if trailing then "./" else ".")
  else lead ++ body ++ (if trailing then Text.ofString "/" else [])

/-- The normal name of a component inside a directory. -/
def join (dir name : Text) : Text :=
  if dir.isEmpty then normalize name
  else if name.isEmpty then normalize dir
  else normalize (dir ++ "/" ++ name)

/-- The components of a name taken as absolute. -/
def absoluteComponents : List Text := resolveDots true [] (components p)

/-- The two lists without their common beginning. -/
def dropCommon : List Text → List Text → List Text × List Text
  | a :: as, b :: bs => if a = b then dropCommon as bs else (a :: as, b :: bs)
  | as, bs => (as, bs)

/-- The way from a directory to a file, as a relative name. -/
def relative (dir file : Text) : Text :=
  let (up, down) := dropCommon (absoluteComponents dir) (absoluteComponents file)
  Text.join "/" (up.map (fun _ => Text.ofString "..") ++ down)

end PathName
end Scopewright
