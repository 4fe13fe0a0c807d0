import JsonAutomata.Command.Tree
import JsonAutomata.Text.Utf8

/-!
# Hosts — what a program runs on

A host gives access to the standard input and to files, and renders manual pages. Its operations
live in a monad of the host's own, so that the program can run on real files as well as on a tree of
files that is plain data. Each of them may fail.
-/

namespace JsonAutomata

namespace Command

structure HostError where
  message : String
  deriving DecidableEq, Repr

namespace HostError

def numbered (message : String) (number : Nat) : HostError := ⟨s!"{message} (os error {number})"⟩

def notFound : HostError := numbered "No such file or directory" 2

def alreadyExists : HostError := numbered "File exists" 17

def notDirectory : HostError := numbered "Not a directory" 20

def isDirectory : HostError := numbered "Is a directory" 21

def nameTooLong : HostError := numbered "File name too long" 36

def nullInName : HostError := ⟨"file name contained an unexpected NUL byte"⟩

end HostError

inductive Opened where
  /-- A regular file that is not empty, with what mapping it gives. -/
  | regular (content : Except HostError (List UInt8))
  /-- Anything else, with what reading it to its end gives. -/
  | special (content : Except HostError (List UInt8))
  /-- A file of which it cannot be found out what it is. -/
  | unknown (cause : HostError)

abbrev Writer (m : Type → Type) := List UInt8 → m (Except HostError Unit)

structure Host (m : Type → Type) where
  input : m (Except HostError (List UInt8))
  currentDirectory : m (Except HostError String)
  openFile : String → m (Except HostError Opened)
  isDirectory : String → m Bool
  /-- Makes a directory in one that exists. -/
  makeDirectory : String → m (Except HostError Unit)
  /-- Creates a file, or empties the one that exists. -/
  createFile : String → m (Except HostError (Writer m))
  renderPage : Page → Writer m → m (Except HostError Unit)

namespace Host

variable {m : Type → Type} [Monad m]

def ensureDirectory (host : Host m) (name : String) : m (Except HostError Unit) := do
  match ← host.makeDirectory name with
  | .ok () => return .ok ()
  | .error e => if ← host.isDirectory name then return .ok () else return .error e

/-- Makes a directory unless it exists; `makeAbove` makes what it is in, if that is missing. -/
def ensureWithin (host : Host m) (name : String) (makeAbove : m (Except HostError Unit)) :
    m (Except HostError Unit) := do
  match ← host.ensureDirectory name with
  | .ok () => return .ok ()
  | .error e =>
    if e = .notFound then
      match ← makeAbove with
      | .ok () => host.ensureDirectory name
      | .error e => return .error e
    else return .error e

/-- Makes the directory whose name has the given parts, from the last to the first, and those above
it, unless they exist. -/
def ensureParts (host : Host m) (top : String) : List String → m (Except HostError Unit)
  | [] => return .ok ()
  | last :: above =>
    host.ensureWithin (top ++ "/".intercalate (last :: above).reverse) (ensureParts host top above)

def makeDirectories (host : Host m) (name : String) : m (Except HostError Unit) :=
  if name = "" then return .ok ()
  else
    let parts := (name.splitOn "/").filter fun part => part ≠ "" ∧ part ≠ "."
    let top := if name.startsWith "/" then "/" else ""
    host.ensureWithin name (host.ensureParts top parts.reverse.tail)

end Host

/-- Renders no more of a page than its title. -/
def titlePage {m : Type → Type} (page : Page) (write : Writer m) : m (Except HostError Unit) :=
  write (Utf8.encode s!".TH {page.command.name} 1\n".toList)

end Command

end JsonAutomata
