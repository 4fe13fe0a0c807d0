import JsonAutomata.Command.Words

/-!
# Arguments — from a command line to a request

Words are judged from left to right, and the first fault counts. Asking for help or for the version
ends the reading, so that only faults before it count. There is one exception to the order: a value
in an argument of its own, and an operand, are judged when the next word or the end is reached, and
the name of a subcommand comes before them.

Which switches need or exclude each other is decided when everything else is known to be right, for
a subcommand before the command around it.
-/

namespace JsonAutomata

namespace Command

/-! ## Requests -/

inductive Format where
  | json
  | yaml
  | toml
  | cbor
  | msgpack
  deriving DecidableEq, Repr

def Format.ofName? : String → Option Format
  | "json" => some json
  | "yaml" => some yaml
  | "toml" => some toml
  | "cbor" => some cbor
  | "msgpack" => some msgpack
  | _ => none

inductive Shell where
  | bash
  | elvish
  | fish
  | powershell
  | zsh
  deriving DecidableEq, Repr

def Shell.ofName? : String → Option Shell
  | "bash" => some bash
  | "elvish" => some elvish
  | "fish" => some fish
  | "powershell" => some powershell
  | "zsh" => some zsh
  | _ => none

structure Options where
  /-- The file to read; the standard input if there is none. -/
  file : Option String
  compact : Bool
  tokens : Bool
  json : Bool
  depth : Bool
  noColor : Bool
  format : Format
  deriving DecidableEq, Repr

inductive Action where
  | convert (options : Options)
  | completions (shell : Shell)
  /-- Write manual pages into a directory, or into the current one. -/
  | manual (directory : Option String)
  deriving DecidableEq, Repr

structure Request where
  action : Action
  /-- How much more than usual to report; less if negative. -/
  verbosity : Int
  deriving DecidableEq, Repr

inductive Stop where
  | usage (error : UsageError)
  /-- The command with a path of names is to be explained. -/
  | help (path : List String)
  | version
  deriving DecidableEq, Repr

/-! ## Judging words -/

/-- The words of a command that were found right. -/
structure Line where
  /-- The switches without value, as often as they were given. -/
  switches : List Switch
  values : List (Switch × String)
  operand : Option String

namespace Line

def empty : Line := ⟨[], [], none⟩

def has (line : Line) (s : Switch) : Bool := line.switches.contains s

def value? (line : Line) (s : Switch) : Option String := line.values.lookup s

def count (line : Line) (s : Switch) : Nat := line.switches.count s

end Line

/-- A command: what it understands, and which values it admits. -/
structure Judge where
  /-- The names of the command and the commands around it. -/
  path : List String
  level : Level
  admits : String → Bool

def Switch.admits : Switch → String → Bool
  | .format, value => (Format.ofName? value).isSome
  | _, value => !value.isEmpty

namespace Judge

def accept (judge : Judge) (line : Line) : Word → Except UsageError Line
  | .plain s =>
    if line.has s && !s.isCounted then .error (.repeated s)
    else .ok { line with switches := s :: line.switches }
  | .valued s value _ =>
    if (line.value? s).isSome then .error (.repeated s)
    else if !s.admits value then .error (.invalidValue value)
    else .ok { line with values := (s, value) :: line.values }
  | .operand text =>
    if !judge.admits text then .error (.invalidValue text)
    else .ok { line with operand := some text }

/-- Whether a word is judged only when the next one is reached. -/
def isDeferred : Word → Bool
  | .plain _ => false
  | .valued _ _ attached => !attached
  | .operand _ => true

/-- Adds words to a line. The second part of the answer is the fault of the last word, if that word
is yet to be judged. -/
def settle (judge : Judge) (line : Line) (pending : Option UsageError) :
    List Word → Except Stop (Line × Option UsageError)
  | [] => .ok (line, pending)
  | word :: words =>
    match pending with
    -- The word before this one is judged now that there is another.
    | some e => .error (.usage e)
    | none =>
      if word = .plain .help then .error (.help judge.path)
      else if word = .plain .version then .error .version
      else match judge.accept line word with
        | .ok line => settle judge line none words
        | .error e =>
          if isDeferred word then settle judge line (some e) words else .error (.usage e)

/-- Fails with a fault that is yet to be judged. -/
def clear : Option UsageError → Except Stop Unit
  | none => .ok ()
  | some e => .error (.usage e)

/-- Decides which switches of a line need or exclude each other. -/
def validate (line : Line) : Except Stop Unit :=
  if line.has .verbose && line.has .quiet then .error (.usage (.conflict .verbose .quiet))
  else if line.has .json && !line.has .tokens then .error (.usage (.requires .json .tokens))
  else .ok ()

/-- Reads the arguments of a command, where `run` gives the request for a subcommand with its
arguments, and `done` the one without a subcommand. -/
def parse {α : Type} (judge : Judge) (run : String → List String → Except Stop α)
    (done : Line → Except Stop α) (arguments : List String) : Except Stop (Line × α) := do
  let (words, ending) := judge.level.read arguments
  let (line, pending) ← judge.settle .empty none words
  let result ← match ending with
    | .failed e => .error (.usage e)
    -- A fault that is yet to be judged waits until the subcommand has been read.
    | .subcommand name rest => run name rest
    | .finished => do
      clear pending
      done line
  clear pending
  validate line
  return (line, result)

end Judge

/-! ## The commands -/

def commonSwitches : List Switch := [.verbose, .quiet, .help]

def mainJudge : Judge where
  path := ["jp"]
  level :=
    { switches := [.compact, .tokens, .json, .depth, .noColor, .format, .version] ++ commonSwitches
      operands := 1
      subcommands := ["generate"] }
  admits name := !name.isEmpty

def generateJudge : Judge where
  path := ["jp", "generate"]
  level := ⟨commonSwitches, 0, ["shell", "man"]⟩
  admits _ := false

def shellJudge : Judge where
  path := ["jp", "generate", "shell"]
  level := ⟨commonSwitches, 1, []⟩
  admits name := (Shell.ofName? name).isSome

def manualJudge : Judge where
  path := ["jp", "generate", "man"]
  level := ⟨.outputDirectory :: commonSwitches, 0, []⟩
  admits _ := false

def noSubcommand {α : Type} (name : String) (_ : List String) : Except Stop α :=
  .error (.usage (.unexpected name))

def parseShell (arguments : List String) : Except Stop Action := do
  let done (line : Line) : Except Stop Action :=
    match line.operand.bind Shell.ofName? with
    | some shell => .ok (.completions shell)
    | none => .error (.usage .missingOperand)
  return (← shellJudge.parse noSubcommand done arguments).2

def parseManual (arguments : List String) : Except Stop Action := do
  let done (line : Line) : Except Stop Action := .ok (.manual (line.value? .outputDirectory))
  return (← manualJudge.parse noSubcommand done arguments).2

def parseGenerate (arguments : List String) : Except Stop Action := do
  let run (name : String) (rest : List String) : Except Stop Action :=
    if name = "shell" then parseShell rest
    else parseManual rest
  return (← generateJudge.parse run (fun _ => .error (.usage .missingSubcommand)) arguments).2

def Line.options (line : Line) : Options where
  file := line.operand
  compact := line.has .compact
  tokens := line.has .tokens
  json := line.has .json
  depth := line.has .depth
  noColor := line.has .noColor
  format := ((line.value? .format).bind Format.ofName?).getD .json

def parseArguments (arguments : List String) : Except Stop Request := do
  let done (line : Line) : Except Stop Action := .ok (.convert line.options)
  let (line, action) ← mainJudge.parse (fun _ => parseGenerate) done arguments
  return ⟨action, line.count .verbose - line.count .quiet⟩

end Command

end JsonAutomata
