import JsonAutomata.Command.Help
import JsonAutomata.Exchange.Cbor
import JsonAutomata.Exchange.JsonText
import JsonAutomata.Exchange.MessagePack
import JsonAutomata.Exchange.Toml
import JsonAutomata.Exchange.Yaml
import JsonAutomata.Json.Decode
import JsonAutomata.Terminal.Ansi
import JsonAutomata.Terminal.ColoredValue
import JsonAutomata.Terminal.TokenListing

/-!
# Runs — what the program does with a command line

A run reads arguments, then perhaps a document, and ends with an outcome: the bytes for the standard
output, a verdict, and records for whoever wants to know more. What is written before a failure
stays written.
-/

namespace JsonAutomata

namespace Command

/-! ## Outcomes -/

inductive Verdict where
  | success
  | failure (report : Report)
  | misuse (error : UsageError)
  deriving DecidableEq, Repr

namespace Verdict

def code : Verdict → Nat
  | success => 0
  | failure _ => 1
  | misuse _ => 2

def text : Verdict → String
  | success => ""
  | failure report => report.display
  | misuse error => s!"error: {error.message}\n"

end Verdict

structure Outcome where
  output : List UInt8
  verdict : Verdict
  log : List Log.Record
  deriving DecidableEq, Repr

namespace Outcome

def written (output : List UInt8) : Outcome := ⟨output, .success, []⟩

def writtenText (text : List Char) : Outcome := written (Utf8.encode text)

def failed (context cause : String) : Outcome := ⟨[], .failure ⟨context, [cause]⟩, []⟩

/-- Puts bytes in front of what a run writes. -/
def after (bytes : List UInt8) (o : Outcome) : Outcome := { o with output := bytes ++ o.output }

def reporting (records : List Log.Record) (o : Outcome) : Outcome :=
  { o with log := records ++ o.log }

end Outcome

/-! ## Documents -/

def tokenDatum (t : Token) : Datum :=
  .mapping [("content", .text t.content), ("label", .text t.label),
    ("span", .mapping [("start", .integer t.span.start), ("end", .integer t.span.stop)])]

def writeTokens (colors : Bool) (options : Options) (scan : Scan) : Outcome :=
  match scan.result with
  | .error e => .failed "Failed to tokenize input" e.message
  | .ok tokens =>
    if options.json then
      let datum := Datum.sequence (tokens.map tokenDatum)
      let text := if options.compact then datum.toJson else datum.toJsonLines
      .writtenText (text.toList ++ ['\n'])
    else .writtenText (Terminal.tokenListing .ansi colors tokens)

def writeDocument (colors : Bool) (options : Options) (v : Value) : Outcome :=
  match options.format with
  | .json => .writtenText (Terminal.coloredValue .ansi colors (!options.compact) v)
  | .yaml => .writtenText (Yaml.write v.toDatum).toList
  | .toml =>
    match Toml.write (!options.compact) v.toDatum with
    | .ok text => .writtenText text.toList
    | .error e => .failed "Failed to convert to TOML" e.message
  | .cbor => .written (Cbor.encode v.toDatum)
  | .msgpack => .written (MessagePack.encode v.toDatum)

def decodeCauses (e : DecodeError) : List String :=
  e.message :: (e.source?.map LexError.message).toList

def convert (colors : Bool) (options : Options) (text : List Char) : Outcome :=
  let colors := colors && !options.noColor
  let scan := jsonLexer.scan text
  let compiled := Log.compiled jsonPatterns jsonLexer.automaton
  if options.tokens then
    (writeTokens colors options scan).reporting (compiled ++ scan.tokens.map Log.emitted)
  else
    let outcome : Outcome := match Decoder.interpret (some maxDepth) scan with
      | .error e => ⟨[], .failure ⟨"Failed to parse JSON", decodeCauses e⟩, []⟩
      | .ok v =>
        let depth := if options.depth then Utf8.encode s!"Depth: {v.depth}\n".toList else []
        (writeDocument colors options v).after depth
    outcome.reporting (compiled ++ Decoder.records scan)

/-! ## Input -/

def notText : String := "stream did not contain valid UTF-8"

/-- The text of a document that is read to its end, where `context` says what is read. -/
def streamText (context : String) : Except HostError (List UInt8) → Except Report (List Char)
  | .error e => .error ⟨context, [e.message]⟩
  | .ok bytes =>
    match Utf8.decode bytes with
    | .ok text => .ok text
    | .error _ => .error ⟨context, [notText]⟩

def openedText (name : String) : Opened → Except Report (List Char)
  | .unknown e => .error ⟨s!"Failed to stat file {name}", [e.message]⟩
  | .special content => streamText s!"Failed to read file {name}" content
  | .regular (.error e) => .error ⟨s!"Failed to map file {name}", [e.message]⟩
  | .regular (.ok bytes) =>
    match Utf8.decode bytes with
    | .ok text => .ok text
    | .error fault => .error ⟨"Input file is not valid UTF-8", [fault.message]⟩

def readText {m : Type → Type} [Monad m] (host : Host m) :
    Option String → m (Except Report (List Char))
  | none => return streamText "Failed to read STDIN" (← host.input)
  | some name => do
    match ← host.openFile name with
    | .error e => return .error ⟨s!"Failed to open file {name}", [e.message]⟩
    | .ok opened => return openedText name opened

/-! ## Runs -/

def perform {m : Type → Type} [Monad m] (host : Host m) (colors : Bool) : Action → m Outcome
  | .completions shell => return .writtenText (completionScript shell).toList
  | .manual directory => do
    match ← CommandTree.writeManual host program directory with
    | .error report => return ⟨[], .failure report, []⟩
    | .ok files =>
      return .writtenText (String.join (files.map fun file => s!"Generated: {file}\n")).toList
  | .convert options => do
    match ← readText host options.file with
    | .error report => return ⟨[], .failure report, []⟩
    | .ok text => return convert colors options text

def stopped : Stop → Outcome
  | .usage error => ⟨[], .misuse error, []⟩
  | .help path => .writtenText (explanation path).toList
  | .version => .writtenText versionLine.toList

/-- Runs the program with arguments; `colors` says whether the terminal shows colours. -/
def run {m : Type → Type} [Monad m] (host : Host m) (colors : Bool) (arguments : List String) :
    m Outcome :=
  match parseArguments arguments with
  | .error stop => return stopped stop
  | .ok request => do
    let outcome ← perform host colors request.action
    return { outcome with log := outcome.log.filter fun r => r.level.isShown request.verbosity }

end Command

end JsonAutomata
