import JsonAutomata.Command.Run

/-!
# The command line program

This is the only module that acts: it reads arguments, the environment, the standard input and
files, runs the program on them, and writes what the outcome says.
-/

namespace JsonAutomata

namespace Command

def HostError.ofSystem : IO.Error → HostError
  | .noFileOrDirectory _ _ _ => .notFound
  | .noSuchThing _ _ _ => .notFound
  | .alreadyExists _ _ _ => .alreadyExists
  | .inappropriateType _ code _ => if code = 21 then .isDirectory else .notDirectory
  | e => ⟨toString e⟩

def attempt {α : Type} (action : IO α) : IO (Except HostError α) := do
  match ← action.toBaseIO with
  | .ok a => return .ok a
  | .error e => return .error (.ofSystem e)

def metadata (name : String) : IO (Except HostError IO.FS.Metadata) := do
  let place := (← IO.currentDir) / name
  attempt place.metadata

def isFilledFile (found : IO.FS.Metadata) : Bool := found.type == .file && 0 < found.byteSize

def openSystemFile (name : String) : IO (Except HostError Opened) := do
  match ← attempt (IO.FS.Handle.mk name .read) with
  | .error e => return .error e
  | .ok handle =>
    match ← metadata name with
    | .error e => return .ok (.unknown e)
    | .ok found =>
      let content := (← attempt handle.readBinToEnd).map ByteArray.toList
      return .ok (if isFilledFile found then .regular content else .special content)

def isSystemDirectory (name : String) : IO Bool := do
  match ← metadata name with
  | .ok found => return found.type == .dir
  | .error _ => return false

def createSystemFile (name : String) : IO (Except HostError (Writer IO)) := do
  match ← attempt (IO.FS.Handle.mk name .write) with
  | .error e => return .error e
  | .ok handle => return .ok fun bytes => attempt (handle.write ⟨bytes.toArray⟩)

partial def readStream (stream : IO.FS.Stream) (sofar : ByteArray) : IO ByteArray := do
  let bytes ← stream.read 65536
  if bytes.isEmpty then return sofar else readStream stream (sofar ++ bytes)

def systemHost : Host IO where
  input := return (← attempt (readStream (← IO.getStdin) .empty)).map ByteArray.toList
  currentDirectory := return (← attempt IO.currentDir).map toString
  openFile := openSystemFile
  isDirectory := isSystemDirectory
  makeDirectory name := attempt (IO.FS.createDir name)
  createFile := createSystemFile
  renderPage := titlePage

/-- Whether a variable of the environment is set to anything but `0`. -/
def environmentFlag (name : String) : IO (Option Bool) := do
  return (← IO.getEnv name).map (· ≠ "0")

def showsColors : IO Bool := do
  if (← environmentFlag "CLICOLOR_FORCE") = some true then return true
  else if (← environmentFlag "NO_COLOR").isSome then return false
  else return (← environmentFlag "CLICOLOR").getD true && (← (← IO.getStdout).isTty)

/-- What the program does with arguments; without any document to read it explains itself. -/
def runSystem (arguments : List String) : IO Outcome := do
  match parseArguments arguments with
  | .ok ⟨.convert options, _⟩ =>
    if options.file.isNone && (← (← IO.getStdin).isTty) then
      return stopped (.help mainJudge.path)
    else run systemHost (← showsColors) arguments
  | _ => run systemHost (← showsColors) arguments

/-- Writes to the standard output; nothing is wrong if nobody reads it any more. -/
def writeOutput (bytes : List UInt8) : IO Unit := do
  let output ← IO.getStdout
  let action : IO Unit := do
    output.write ⟨bytes.toArray⟩
    output.flush
  match ← action.toBaseIO with
  | .ok () => return ()
  | .error (.resourceVanished _ _) => return ()
  | .error e => throw e

end Command

end JsonAutomata

open JsonAutomata Command in
def main (arguments : List String) : IO UInt32 := do
  let outcome ← runSystem arguments
  writeOutput outcome.output
  let errors ← IO.getStderr
  for record in outcome.log do
    errors.putStrLn record.text
  errors.putStr outcome.verdict.text
  return UInt32.ofNat outcome.verdict.code
