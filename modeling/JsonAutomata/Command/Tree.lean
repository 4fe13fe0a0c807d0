/-!
# Command trees — commands, their subcommands and their pages

The page of a command is named by the names on the path from the root to it, joined by hyphens.
Pages come in pre-order: each command before its subcommands, and these in their own order.
-/

namespace JsonAutomata

namespace Command

inductive CommandTree where
  | command (name about : String) (subcommands : List CommandTree)
  deriving Inhabited

namespace CommandTree

def name : CommandTree → String
  | command name _ _ => name

def about : CommandTree → String
  | command _ about _ => about

def subcommands : CommandTree → List CommandTree
  | command _ _ subcommands => subcommands

end CommandTree

/-! ## Pages -/

/-- A manual page: a command under the title of the page. -/
structure Page where
  command : CommandTree
  /-- Whether the page leaves out the subcommand that explains the others. -/
  hidesHelp : Bool

def Page.file (page : Page) : String := page.command.name ++ ".1"

namespace CommandTree

/-- The pages of commands below the command with the title `above`. -/
def pagesBelow (above : String) : List CommandTree → List Page
  | [] => []
  | command name about subcommands :: rest =>
    let title := above ++ "-" ++ name
    ⟨command title about subcommands, true⟩ :: pagesBelow title subcommands
      ++ pagesBelow above rest

def pages (tree : CommandTree) : List Page :=
  ⟨tree, false⟩ :: pagesBelow tree.name tree.subcommands

end CommandTree

end Command

end JsonAutomata
