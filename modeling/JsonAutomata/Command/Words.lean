import JsonAutomata.Command.Switch

/-!
# Words — what the arguments of a command are

Arguments are read from left to right. A switch is written with its long name, `--name`, or in a
cluster of short ones, `-xyz`. A value follows its switch, in the same argument (behind an equals
sign, which a short name does not need) or in the next one. What begins with no dash, a single dash,
and everything behind `--` are operands. The name of a subcommand ends the arguments of the command
itself.

`Level.read` gives the words up to the first place that cannot be read; what is wrong with words
that can be read is not decided here.
-/

namespace JsonAutomata

namespace Command

inductive UsageError where
  | unexpected (argument : String)
  | missingValue (switch : Switch)
  | unneededValue (switch : Switch)
  | invalidValue (value : String)
  | repeated (switch : Switch)
  | requires (switch other : Switch)
  | conflict (switch other : Switch)
  | missingOperand
  | missingSubcommand
  deriving DecidableEq, Repr

def UsageError.message : UsageError → String
  | unexpected argument => s!"unexpected argument '{argument}'"
  | missingValue switch => s!"{switch.display} needs a value"
  | unneededValue switch => s!"{switch.display} takes no value"
  | invalidValue value => s!"invalid value '{value}'"
  | repeated switch => s!"{switch.display} is given more than once"
  | requires switch other => s!"{switch.display} needs {other.display}"
  | conflict switch other => s!"{switch.display} and {other.display} exclude each other"
  | missingOperand => "an operand is missing"
  | missingSubcommand => "a subcommand is missing"

inductive Word where
  | plain (switch : Switch)
  /-- A switch with its value, in one argument if `attached`. -/
  | valued (switch : Switch) (value : String) (attached : Bool)
  | operand (text : String)
  deriving DecidableEq, Repr

inductive Ending where
  | finished
  | subcommand (name : String) (arguments : List String)
  | failed (error : UsageError)
  deriving DecidableEq, Repr

structure Level where
  switches : List Switch
  operands : Nat
  subcommands : List String

/-- What one argument with switches holds: its words, and a switch that still needs its value, or an
error. -/
structure Cluster where
  words : List Word
  next : Except UsageError (Option Switch)

namespace Cluster

def single (word : Word) : Cluster := ⟨[word], .ok none⟩

def failed (error : UsageError) : Cluster := ⟨[], .error error⟩

def cons (word : Word) (c : Cluster) : Cluster := ⟨word :: c.words, c.next⟩

end Cluster

namespace Level

def findLong? (level : Level) (name : String) : Option Switch :=
  level.switches.find? fun s => s.long = name

def findShort? (level : Level) (name : Char) : Option Switch :=
  level.switches.find? fun s => s.short? = some name

/-- Reads a switch with a long name and perhaps a value behind an equals sign. -/
def readLong (level : Level) (argument : String) (text : List Char) : Cluster :=
  let name := String.ofList (text.takeWhile (· ≠ '='))
  let value := match text.dropWhile (· ≠ '=') with
    | [] => none
    | _ :: value => some (String.ofList value)
  match level.findLong? name, value with
  | none, _ => .failed (.unexpected argument)
  | some s, none => if s.takesValue then ⟨[], .ok (some s)⟩ else .single (.plain s)
  | some s, some value =>
    if s.takesValue then .single (.valued s value true) else .failed (.unneededValue s)

/-- Reads switches with short names, the last of which can have its value behind it. -/
def readShort (level : Level) (argument : String) : List Char → Cluster
  | [] => ⟨[], .ok none⟩
  | c :: rest =>
    match level.findShort? c with
    | none => .failed (.unexpected argument)
    | some s =>
      if s.takesValue then
        match rest with
        | [] => ⟨[], .ok (some s)⟩
        | '=' :: value => .single (.valued s (String.ofList value) true)
        | value => .single (.valued s (String.ofList value) true)
      else (readShort level argument rest).cons (.plain s)

def readSwitches? (level : Level) (argument : String) : Option Cluster :=
  match argument.toList with
  | '-' :: '-' :: text => some (level.readLong argument text)
  | ['-'] => none
  | '-' :: text => some (level.readShort argument text)
  | _ => none

/-- Reads operands, of which the command takes `operands` more. -/
def readOperands (operands : Nat) : List String → List Word × Ending
  | [] => ([], .finished)
  | argument :: rest =>
    match operands with
    | 0 => ([], .failed (.unexpected argument))
    | n + 1 =>
      let (words, ending) := readOperands n rest
      (.operand argument :: words, ending)

/-- Reads arguments, of which the first is the value of `awaiting` if there is one. -/
def readFrom (level : Level) (operands : Nat) (awaiting : Option Switch) :
    List String → List Word × Ending
  | [] =>
    match awaiting with
    | none => ([], .finished)
    | some s => ([], .failed (.missingValue s))
  | argument :: rest =>
    -- The value of a switch is never taken for the name of a subcommand.
    if awaiting.isNone ∧ level.subcommands.contains argument then
      ([], .subcommand argument rest)
    else if argument = "--" then
      match awaiting with
      | none => readOperands operands rest
      | some s => ([], .failed (.missingValue s))
    else match level.readSwitches? argument, awaiting with
      | some _, some s => ([], .failed (.missingValue s))
      | some cluster, none =>
        match cluster.next with
        | .error e => (cluster.words, .failed e)
        | .ok next =>
          let (words, ending) := readFrom level operands next rest
          (cluster.words ++ words, ending)
      | none, some s =>
        let (words, ending) := readFrom level operands none rest
        (.valued s argument false :: words, ending)
      | none, none =>
        match operands with
        | 0 => ([], .failed (.unexpected argument))
        | n + 1 =>
          let (words, ending) := readFrom level n none rest
          (.operand argument :: words, ending)

def read (level : Level) (arguments : List String) : List Word × Ending :=
  level.readFrom level.operands none arguments

end Level

end Command

end JsonAutomata
