import JsonAutomata.Command.Host
import JsonAutomata.Text.Report

/-!
# Manual pages — one for each command

All pages of a command tree are written into one directory, which is made if it does not exist. A
file is created for each page, and the page is rendered into it. The first failure ends the writing.
-/

namespace JsonAutomata

namespace Command

variable {m : Type → Type} [Monad m]

/-- What a host answers, with a report of what was being done in place of a failure. -/
def withContext {α : Type} (context : String) (action : m (Except HostError α)) :
    ExceptT Report m α :=
  ExceptT.mk do return (← action).mapError fun e => ⟨context, [e.message]⟩

def inDirectory (directory file : String) : String :=
  if file.startsWith "/" || directory.isEmpty then file
  else if directory.endsWith "/" then directory ++ file
  else directory ++ "/" ++ file

def writePage (host : Host m) (directory : String) (page : Page) : ExceptT Report m String := do
  let file := inDirectory directory page.file
  let write ← withContext s!"failed to create {file}" (host.createFile file)
  withContext s!"failed to render {file}" (host.renderPage page write)
  return file

def chosenDirectory (host : Host m) : Option String → ExceptT Report m String
  | some directory => return directory
  | none => withContext "Opening current directory" host.currentDirectory

def CommandTree.writeManual (host : Host m) (tree : CommandTree) (directory : Option String) :
    m (Except Report (List String)) := ExceptT.run do
  let directory ← chosenDirectory host directory
  withContext "create output Man directories" (host.makeDirectories directory)
  tree.pages.mapM (writePage host directory)

end Command

end JsonAutomata
