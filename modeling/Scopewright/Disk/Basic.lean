import Scopewright.Dialect
import Scopewright.Failure

/-! # Disks

A disk is a tree of directories and files (`Disk.Entry`) below one root directory.  Absolute names
lead to its entries (`Disk.find`), names that are not absolute to none.  Writing makes the
directories above (`Disk.write`), and removing takes whole trees away (`Disk.remove`).  What cannot be
done is refused with the message of the operating system (`Disk.Refusal`). -/

namespace Scopewright

/-- A file or a directory. -/
inductive Disk.Entry where
  | file (text : Text)
  | directory (members : List (Text × Disk.Entry))
deriving Inhabited

/-- The entries of the root directory. -/
structure Disk where
  members : List (Text × Disk.Entry)

namespace Disk

/-- A disk with nothing on it. -/
def empty : Disk := ⟨[]⟩

/-! ### Refusals -/

/-- What the operating system is asked to do. -/
inductive Operation where
  | list
  | openFile
  | makeDirectory
deriving DecidableEq, Repr, Inhabited

/-- The name of an operation in messages. -/
def Operation.name : Operation → Text
  | list => "scandir"
  | openFile => "open"
  | makeDirectory => "mkdir"

/-- Why an operation is refused. -/
inductive Refusal where
  /-- There is nothing of the name. -/
  | missing
  /-- A file stands where a directory is needed. -/
  | notDirectory
  /-- A directory stands where a file is needed. -/
  | isDirectory
  /-- A file stands where a directory is to be made. -/
  | occupied
deriving DecidableEq, Repr, Inhabited

/-- How the message of a refusal begins. -/
def Refusal.reason : Refusal → Text
  | missing => "ENOENT: no such file or directory"
  | notDirectory => "ENOTDIR: not a directory"
  | isDirectory => "EISDIR: illegal operation on a directory"
  | occupied => "EEXIST: file already exists"

/-- The failure of an operation on a name. -/
def Refusal.failure (r : Refusal) (o : Operation) (name : Text) : Failure :=
  .foreign (r.reason ++ (", " : Text) ++ o.name ++ (" '" : Text) ++ name ++ ("'" : Text))

/-! ### Entries -/

namespace Entry

/-- The entry is a directory. -/
def isDirectory : Entry → Bool
  | directory _ => true
  | file _ => false

/-- The entry at the end of a way down. -/
def at' (e : Entry) : List Text → Except Refusal Entry
  | [] => .ok e
  | name :: names =>
    match e with
    | file _ => .error .notDirectory
    | directory ms =>
      match ms.lookup name with
      | some m => at' m names
      | none => .error .missing

/-- A directory with one member replaced or added. -/
def withMember (ms : List (Text × Entry)) (name : Text) (e : Entry) : Entry :=
  if ms.any fun m => decide (m.1 = name) then
    directory (ms.map fun m => if m.1 = name then (name, e) else m)
  else directory (ms ++ [(name, e)])

/-- A directory without one member. -/
def withoutMember (name : Text) : Entry → Entry
  | directory ms => directory (ms.filter fun m => decide (m.1 ≠ name))
  | file text => file text

/-- Makes the directories on a way down that are not there. -/
def makeDirectories (e : Entry) : List Text → Except Refusal Entry
  | [] => if e.isDirectory then .ok e else .error .occupied
  | name :: names =>
    match e with
    | file _ => .error .notDirectory
    | directory ms => do
      let below ← makeDirectories ((ms.lookup name).getD (directory [])) names
      return withMember ms name below

/-- Puts a file at the end of a way down from what is there. -/
def putFile (text : Text) : Option Entry → List Text → Except Refusal Entry
  | some (directory _), [] => .error .isDirectory
  | _, [] => .ok (file text)
  | some (directory ms), name :: names => do
    let new ← putFile text (ms.lookup name) names
    return withMember ms name new
  | some (file _), _ :: _ => .error .notDirectory
  | none, _ :: _ => .error .missing

/-- Takes away the entry at the end of a way down, if there is one. -/
def takeAway (e : Entry) : List Text → Entry
  | [] => e
  | [name] => e.withoutMember name
  | name :: names =>
    match e with
    | file text => file text
    | directory ms =>
      match ms.lookup name with
      | some m => withMember ms name (takeAway m names)
      | none => directory ms

/-- The name begins with a point. -/
def isHidden (name : Text) : Bool := name.head?.any fun (c : CodeUnit) => decide (c = '.')

mutual

/-- The ways down to the syntax files in a directory, hidden directories left out. -/
def syntaxFiles : Entry → List (List Text)
  | file _ => []
  | directory ms => syntaxFilesOf ms

/-- The ways down to the syntax files among members of a directory. -/
def syntaxFilesOf : List (Text × Entry) → List (List Text)
  | [] => []
  | (name, file _) :: ms =>
    (if Dialect.isSyntaxFileName name then [[name]] else []) ++ syntaxFilesOf ms
  | (name, directory below) :: ms =>
    (if isHidden name then [] else (syntaxFilesOf below).map (name :: ·)) ++ syntaxFilesOf ms

end

end Entry

/-! ### Names -/

/-- The way down to a name. -/
def route (name : Text) : List Text := PathName.absoluteComponents name

/-- The name ends in a slash, and so is that of a directory. -/
def isSlashed (name : Text) : Bool := name.getLast?.any fun (c : CodeUnit) => decide (c = '/')

variable (d : Disk)

/-- The root directory. -/
def root : Entry := .directory d.members

/-- The disk with another root directory. -/
def ofRoot : Entry → Disk
  | .directory ms => ⟨ms⟩
  | .file _ => empty

/-- The entry of a name. -/
def find (name : Text) : Except Refusal Entry :=
  if PathName.startsWithSlash name then do
    let e ← d.root.at' (route name)
    if isSlashed name && !e.isDirectory then .error .notDirectory else .ok e
  else .error .missing

/-- The members of a directory. -/
def list (name : Text) : Except Failure (List (Text × Entry)) :=
  match d.find name with
  | .ok (.directory ms) => .ok ms
  | .ok (.file _) => .error (Refusal.notDirectory.failure .list name)
  | .error r => .error (r.failure .list name)

/-- The text of a file. -/
def text (name : Text) : Except Failure Text :=
  match d.find name with
  | .ok (.file t) => .ok t
  | .ok (.directory _) => .error (.foreign (Refusal.isDirectory.reason ++ (", read" : Text)))
  | .error r => .error (r.failure .openFile name)

/-! ### Changes -/

/-- Makes a directory with those above it. -/
def makeDirectory (name : Text) : Except Failure Disk :=
  match d.root.makeDirectories (route name) with
  | .ok e => .ok (ofRoot e)
  | .error r => .error (r.failure .makeDirectory name)

/-- Writes a file, with the directories above it. -/
def write (name text : Text) : Except Failure Disk := do
  let way := route name
  let d ← d.makeDirectory (("/" : Text) ++ Text.join "/" way.dropLast)
  match Entry.putFile text (some d.root) way with
  | .ok e => return ofRoot e
  | .error r => .error (r.failure .openFile name)

/-- Takes away what stands at a name. -/
def remove (name : Text) : Disk := ofRoot (d.root.takeAway (route name))

end Disk
end Scopewright
