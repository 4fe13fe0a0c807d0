/-!
# Switches — the options of the command line

Every command knows some of these. A switch has a long name, and perhaps a short one of one
character; two of them take a value.
-/

namespace JsonAutomata

namespace Command

inductive Switch where
  | compact
  | tokens
  | json
  | depth
  | noColor
  | format
  | outputDirectory
  | verbose
  | quiet
  | help
  | version
  deriving DecidableEq, Repr

namespace Switch

def long : Switch → String
  | compact => "compact"
  | tokens => "tokens"
  | json => "json"
  | depth => "depth"
  | noColor => "no-color"
  | format => "format"
  | outputDirectory => "output-dir"
  | verbose => "verbose"
  | quiet => "quiet"
  | help => "help"
  | version => "version"

def short? : Switch → Option Char
  | outputDirectory => some 'o'
  | verbose => some 'v'
  | quiet => some 'q'
  | help => some 'h'
  | version => some 'V'
  | _ => none

def takesValue : Switch → Bool
  | format | outputDirectory => true
  | _ => false

def isCounted : Switch → Bool
  | verbose | quiet => true
  | _ => false

def about : Switch → String
  | compact => "Write on one line"
  | tokens => "List the tokens instead of the document"
  | json => "List tokens as JSON, with --tokens"
  | depth => "Write the depth of the document first"
  | noColor => "Write without colors"
  | format => "Format of the document: json, yaml, toml, cbor or msgpack"
  | outputDirectory => "Directory for the pages"
  | verbose => "Report more"
  | quiet => "Report less"
  | help => "Explain the command"
  | version => "Tell the version"

def display (s : Switch) : String := "--" ++ s.long

end Switch

end Command

end JsonAutomata
