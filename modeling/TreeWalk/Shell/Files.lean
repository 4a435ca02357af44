/-!
The files a command sees: those of its working directory, and the few that every system has. A
path is followed name by name, and every name but its last has to lead to a directory.
-/

namespace TreeWalk.Shell

inductive Entry
  | file (contents : ByteArray)
  | directory

inductive FileFault
  | missing
  | notDirectory
  | isDirectory
  | nameTooLong
  | notText
  deriving DecidableEq, Repr

def FileFault.message : FileFault → String
  | missing => "No such file or directory (os error 2)"
  | notDirectory => "Not a directory (os error 20)"
  | isDirectory => "Is a directory (os error 21)"
  | nameTooLong => "File name too long (os error 36)"
  | notText => "stream did not contain valid UTF-8"

/-- Entries under the names that lead to them. -/
abbrev Entries := List (List String × Entry)

/-- A place with something below it is a directory, and so is where the names start. -/
def Entries.find? (entries : Entries) (names : List String) : Option Entry :=
  if names.isEmpty then some .directory
  else match entries.lookup names with
    | some entry => some entry
    | none => if entries.any (fun e => names.isPrefixOf e.1) then some .directory else none

/-- What names are followed from: the working directory, the directories above it, of which nothing
is known, or the root of the system. -/
inductive Base
  | working
  | above
  | root
  deriving DecidableEq, Repr

structure Place where
  base : Base
  names : List String
  deriving DecidableEq, Repr

namespace Place

def parent : Place → Place
  | ⟨.working, []⟩ => ⟨.above, []⟩
  | ⟨base, names⟩ => ⟨base, names.dropLast⟩

def child (place : Place) (name : String) : Place := ⟨place.base, place.names ++ [name]⟩

end Place

/-- The most bytes of a name. -/
def maxNameSize : Nat := 255

/-- The most bytes of a path. -/
def maxPathSize : Nat := 4095

structure Files where
  working : Entries
  system : Entries

namespace Files

/-- The files of a working directory on a system that has little else. -/
def ofWorking (working : Entries) (stdin : ByteArray) : Files :=
  ⟨working, [(["dev", "null"], .file .empty), (["dev", "stdin"], .file stdin), (["tmp"], .directory)]⟩

/-- The names of a path. Empty ones stand between slashes and behind the last one. -/
def names (path : String) : List String := path.splitOn "/"

def entry? (files : Files) (place : Place) : Option Entry :=
  match place.base with
  | .working => files.working.find? place.names
  | .above => Entries.find? [] place.names
  | .root => files.system.find? place.names

/-- The place that a name leads to from a directory. -/
def step (place : Place) (name : String) : Except FileFault Place :=
  if name = "" ∨ name = "." then .ok place
  else if name = ".." then .ok place.parent
  else if maxNameSize < name.utf8ByteSize then .error .nameTooLong
  else .ok (place.child name)

/-- Follows names from a place. The last place need not hold anything. -/
def follow (files : Files) : Place → List String → Except FileFault Place
  | place, [] => .ok place
  | place, name :: rest =>
    match files.entry? place with
    | some .directory =>
      match step place name with
      | .ok place => follow files place rest
      | .error fault => .error fault
    | some (.file _) => .error .notDirectory
    | none => .error .missing

/-- The place of a path that is not empty. -/
def resolve (files : Files) (path : String) (names : List String) : Except FileFault Place :=
  if maxPathSize < path.utf8ByteSize then .error .nameTooLong
  else files.follow ⟨if path.startsWith "/" then .root else .working, []⟩ names

/-- What stands at a path. -/
def at? (files : Files) (path : String) : Except FileFault Entry :=
  match files.resolve path (names path) with
  | .ok place =>
    match files.entry? place with
    | some entry => .ok entry
    | none => .error .missing
  | .error fault => .error fault

/-- Empties the file at a place or makes a new one: the files then, and the path of a file that is
new in the working directory. -/
def createAt (files : Files) (place : Place) : Except FileFault (Files × Option String) :=
  let others := files.working.filter (·.1 != place.names)
  let emptied := { files with working := (place.names, .file .empty) :: others }
  match files.entry? place, place.base with
  | some .directory, _ => .error .isDirectory
  | some (.file _), .working => .ok (emptied, none)
  | none, .working => .ok (emptied, some ("/".intercalate place.names))
  | _, _ => .ok (files, none)

/-- Creates or empties the file at a path. A path that ends in a slash can only be a directory's,
whatever stands there. -/
def create (files : Files) (path : String) : Except FileFault (Files × Option String) :=
  if path.endsWith "/" then
    let names := (names path).reverse.dropWhile (· == "") |>.reverse
    match files.resolve path (names.dropLast ++ [""]) with
    | .ok _ => .error .isDirectory
    | .error fault => .error fault
  else
    match files.resolve path (names path) with
    | .ok place => files.createAt place
    | .error fault => .error fault

end Files

end TreeWalk.Shell
