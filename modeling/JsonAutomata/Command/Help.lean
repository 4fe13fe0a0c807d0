import JsonAutomata.Command.Arguments
import JsonAutomata.Command.Manual

/-!
# Help — texts about the program itself

Explanations and completions are derived from what the commands understand, so that they cannot
fall behind it.
-/

namespace JsonAutomata

namespace Command

def program : CommandTree :=
  .command "jp" "Decode, re-encode or tokenize a JSON document" [
    .command "generate" "Generate shell completions and manual pages" [
      .command "shell" "Write completions for a shell: bash, elvish, fish, powershell or zsh" [],
      .command "man" "Write manual pages" []]]

def versionLine : String := "jp 0.1.0\n"

def CommandTree.find? (tree : CommandTree) : List String → Option CommandTree
  | [] => some tree
  | name :: names => (tree.subcommands.find? (·.name = name)).bind (find? · names)

def judgeOf? (path : List String) : Option Judge :=
  [mainJudge, generateJudge, shellJudge, manualJudge].find? (·.path = path)

def switchLine (s : Switch) : String :=
  let short := match s.short? with
    | some c => s!"-{c}, "
    | none => "    "
  s!"  {short}{s.display}: {s.about}\n"

def explanation (path : List String) : String :=
  let command := ((program.find? path.tail).getD program)
  let switches := match judgeOf? path with
    | some judge => judge.level.switches
    | none => commonSwitches
  let subcommands := command.subcommands.map fun c => s!"  {c.name}: {c.about}\n"
  let title := " ".intercalate path
  s!"{command.about}\n\nUsage: {title} [OPTIONS]\n\n"
    ++ (if subcommands.isEmpty then "" else "Commands:\n" ++ String.join subcommands ++ "\n")
    ++ "Options:\n" ++ String.join (switches.map switchLine)

def completableWords : List String :=
  mainJudge.level.subcommands ++ generateJudge.level.subcommands
    ++ mainJudge.level.switches.map Switch.display

def completionScript (shell : Shell) : String :=
  let words := " ".intercalate completableWords
  match shell with
  | .bash => s!"complete -f -W \"{words}\" jp\n"
  | .elvish => s!"set edit:completion:arg-completer[jp] = \x7b|@words| put {words} \x7d\n"
  | .fish => s!"complete -c jp -a \"{words}\"\n"
  | .powershell =>
    "Register-ArgumentCompleter -Native -CommandName jp -ScriptBlock "
      ++ s!"\x7b '{words}'.Split(' ') \x7d\n"
  | .zsh => s!"#compdef jp\ncompadd -- {words}\n"

end Command

end JsonAutomata
