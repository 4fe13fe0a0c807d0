import JsonAutomata.Command.Host

/-!
# File trees — a host that is plain data

A tree holds files and directories. Names are resolved as a file system does: parts are separated by
slashes, an empty part and a point stay in place, two points lead to the directory above, and a part
can only follow the name of a directory. A name begins at the root if a slash comes first, and else
at the working place.

Every tree has the two devices that programs rely on, the standard input and one that is always
empty.
-/

namespace JsonAutomata

namespace Command

/-- The parts of a name that lead from the root to a place. -/
abbrev Place := List String

structure FileTree where
  files : List (Place × List UInt8)
  /-- The directories; those above a file, a directory or a device need not be listed. -/
  directories : List Place
  /-- Where names begin that do not begin at the root. -/
  working : Place
  input : List UInt8

namespace FileTree

inductive Device where
  | input
  | null
  deriving DecidableEq, Repr

inductive Entry where
  | file (bytes : List UInt8)
  | directory
  | device (device : Device)
  deriving DecidableEq, Repr

def devices : List (Place × Device) :=
  [(["proc", "self", "fd", "0"], .input), (["dev", "null"], .null)]

/-- Places that stand for others. -/
def links : List (Place × Place) :=
  [(["dev", "stdin"], ["proc", "self", "fd", "0"]), (["dev", "fd"], ["proc", "self", "fd"])]

def follow (place : Place) : Place := (links.lookup place).getD place

def entry? (tree : FileTree) (place : Place) : Option Entry :=
  match tree.files.lookup place, devices.lookup place with
  | some bytes, _ => some (.file bytes)
  | none, some device => some (.device device)
  | none, none =>
    -- A directory is known by what is below it.
    let below (other : Place) : Bool := place.isPrefixOf other
    if tree.files.any (below ·.1) || devices.any (below ·.1) || tree.directories.any below
        || below tree.working then
      some .directory
    else none

def maxPart : Nat := 255

def maxName : Nat := 4095

/-- Follows the parts of a name from a place on. What stands at the last place is not asked. -/
def resolve (tree : FileTree) (place : Place) : List String → Except HostError Place
  | [] => .ok place
  | part :: parts =>
    match tree.entry? place with
    | none => .error .notFound
    | some .directory =>
      if maxPart < part.utf8ByteSize then .error .nameTooLong
      else if part = "" ∨ part = "." then resolve tree place parts
      else if part = ".." then resolve tree place.dropLast parts
      else resolve tree (follow (place ++ [part])) parts
    | some _ => .error .notDirectory

def parts (name : String) : Except HostError (List String) :=
  if name.contains '\x00' then .error .nullInName
  else if name = "" then .error .notFound
  else if maxName < name.utf8ByteSize then .error .nameTooLong
  else .ok (name.splitOn "/")

def start (tree : FileTree) (name : String) : Place :=
  if name.startsWith "/" then [] else tree.working

def find (tree : FileTree) (name : String) : Except HostError Place :=
  (parts name).bind (tree.resolve (tree.start name))

def openFile (tree : FileTree) (name : String) : Except HostError Opened := do
  match tree.entry? (← tree.find name) with
  | none => .error .notFound
  | some .directory => .ok (.special (.error .isDirectory))
  | some (.file []) => .ok (.special (.ok []))
  | some (.file bytes) => .ok (.regular (.ok bytes))
  | some (.device .input) => .ok (.special (.ok tree.input))
  | some (.device .null) => .ok (.special (.ok []))

def isDirectory (tree : FileTree) (name : String) : Bool :=
  match tree.find name with
  | .ok place => tree.entry? place = some .directory
  | .error _ => false

/-- The parts of a directory's name; slashes behind the last one do not count. -/
def directoryParts (name : String) : Except HostError (List String) :=
  (parts name).map fun ps => (ps.reverse.dropWhile (· = "")).reverse

def makeDirectory (tree : FileTree) (name : String) : Except HostError FileTree := do
  let place ← tree.resolve (tree.start name) (← directoryParts name)
  match tree.entry? place with
  | some _ => .error .alreadyExists
  | none => .ok { tree with directories := place :: tree.directories }

/-- Creates a file, or empties the one that exists, and answers where it is. -/
def createFile (tree : FileTree) (name : String) : Except HostError (Place × FileTree) := do
  let place ← tree.find name
  match tree.entry? place with
  | some .directory => .error .isDirectory
  | some (.device _) => .ok (place, tree)
  | _ => .ok (place, { tree with files := (place, []) :: tree.files.filter (·.1 ≠ place) })

/-- Puts bytes behind those of the file at a place; a device takes them and keeps nothing. -/
def append (tree : FileTree) (place : Place) (bytes : List UInt8) : FileTree :=
  { tree with files := tree.files.map fun (other, old) =>
      (other, if other = place then old ++ bytes else old) }

def systemDirectories : List Place :=
  ["bin", "boot", "etc", "home", "lib", "media", "mnt", "opt", "root", "run", "sbin", "srv", "sys",
    "tmp", "usr", "var"].map fun name => [name]

/-- The tree of a system with nothing in it but some files, whose names begin at the working place,
two levels below the root. -/
def ofFiles (files : List (String × List UInt8)) : FileTree :=
  let working : Place := ["tmp", "work"]
  { files := files.map fun (name, bytes) => (working ++ name.splitOn "/", bytes)
    directories := systemDirectories
    working := working
    input := [] }

def names (tree : FileTree) : List String :=
  (tree.files.filter (tree.working.isPrefixOf ·.1)).map fun (place, _) =>
    "/".intercalate (place.drop tree.working.length)

/-- Runs an operation that changes the tree if it succeeds. -/
def update {α : Type} (operation : FileTree → Except HostError (α × FileTree)) :
    StateM FileTree (Except HostError α) := fun tree =>
  match operation tree with
  | .ok (a, changed) => (.ok a, changed)
  | .error e => (.error e, tree)

def writer (place : Place) : Writer (StateM FileTree) := fun bytes tree =>
  (.ok (), tree.append place bytes)

def host : Host (StateM FileTree) where
  input := fun tree => (.ok tree.input, tree)
  currentDirectory := fun tree => (.ok ("/" ++ "/".intercalate tree.working), tree)
  openFile name := fun tree => (tree.openFile name, tree)
  isDirectory name := fun tree => (tree.isDirectory name, tree)
  makeDirectory name := update fun tree => (tree.makeDirectory name).map ((), ·)
  createFile name := update fun tree =>
    (tree.createFile name).map fun (place, changed) => (writer place, changed)
  renderPage := titlePage

end FileTree

end Command

end JsonAutomata
