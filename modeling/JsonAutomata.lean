import JsonAutomata.Automaton.Allocation
import JsonAutomata.Automaton.Basic
import JsonAutomata.Automaton.Listing
import JsonAutomata.Automaton.Path
import JsonAutomata.Automaton.Search
import JsonAutomata.Automaton.Simulation
import JsonAutomata.Automaton.Thompson
import JsonAutomata.Command.Arguments
import JsonAutomata.Command.FileTree
import JsonAutomata.Command.Help
import JsonAutomata.Command.Host
import JsonAutomata.Command.Manual
import JsonAutomata.Command.Run
import JsonAutomata.Command.Switch
import JsonAutomata.Command.Tree
import JsonAutomata.Command.Words
import JsonAutomata.Exchange.Cbor
import JsonAutomata.Exchange.Datum
import JsonAutomata.Exchange.JsonReading
import JsonAutomata.Exchange.JsonText
import JsonAutomata.Exchange.MachineNumber
import JsonAutomata.Exchange.MessagePack
import JsonAutomata.Exchange.Toml
import JsonAutomata.Exchange.Yaml
import JsonAutomata.FloatingPoint.Arithmetic
import JsonAutomata.FloatingPoint.Format
import JsonAutomata.FloatingPoint.Layout
import JsonAutomata.FloatingPoint.Reading
import JsonAutomata.FloatingPoint.Rounding
import JsonAutomata.FloatingPoint.Shortest
import JsonAutomata.Json.Cursor
import JsonAutomata.Json.Decode
import JsonAutomata.Json.Descent
import JsonAutomata.Json.DecodeError
import JsonAutomata.Json.Layout
import JsonAutomata.Json.Number
import JsonAutomata.Json.Patterns
import JsonAutomata.Json.Quote
import JsonAutomata.Json.Reader
import JsonAutomata.Json.ToValue
import JsonAutomata.Json.TokenKind
import JsonAutomata.Json.Unescape
import JsonAutomata.Json.Value
import JsonAutomata.Lexer.Basic
import JsonAutomata.Lexer.Log
import JsonAutomata.Lexer.Stream
import JsonAutomata.Lexer.Token
import JsonAutomata.Main
import JsonAutomata.Pattern.CharClass
import JsonAutomata.Pattern.Language
import JsonAutomata.Pattern.Term
import JsonAutomata.Proofs.Automaton.Reachability
import JsonAutomata.Proofs.Sorted.Lookup
import JsonAutomata.Sorted.Map
import JsonAutomata.Sorted.Set
import JsonAutomata.Terminal.Ansi
import JsonAutomata.Terminal.ColoredValue
import JsonAutomata.Terminal.Sink
import JsonAutomata.Terminal.Style
import JsonAutomata.Terminal.TokenListing
import JsonAutomata.Text.Hex
import JsonAutomata.Text.Message
import JsonAutomata.Text.Numeral
import JsonAutomata.Text.Report
import JsonAutomata.Text.Unshown
import JsonAutomata.Text.Utf16
import JsonAutomata.Text.Utf8
import JsonAutomata.Proofs.Automaton.Assembly
import JsonAutomata.Proofs.Pattern.Prefixes
import JsonAutomata.Proofs.Thompson.Fragment
import JsonAutomata.Proofs.Automaton.Covering
import JsonAutomata.Proofs.Thompson.Paths
import JsonAutomata.Proofs.Thompson.Coverings
import JsonAutomata.Proofs.Thompson.Correctness
import JsonAutomata.Proofs.Lexer.Munch
import JsonAutomata.Proofs.Automaton.Shift
import JsonAutomata.Proofs.Thompson.Numbering
import JsonAutomata.Proofs.Automaton.Merging
import JsonAutomata.Proofs.Lexer.Acceptance
import JsonAutomata.Proofs.Automaton.Alphabet
import JsonAutomata.Proofs.Thompson.States
import JsonAutomata.Proofs.Thompson.Allocation
import JsonAutomata.Proofs.Thompson.Construction
import JsonAutomata.Proofs.Thompson.Relocation
import JsonAutomata.Proofs.Thompson.Blocks
import JsonAutomata.Proofs.Pattern.Parts
import JsonAutomata.Proofs.Thompson.Entering
import JsonAutomata.Proofs.Thompson.Labels
import JsonAutomata.Proofs.Lexer.Priority
import JsonAutomata.Proofs.Lexer.Session
import JsonAutomata.Proofs.Lexer.History
import JsonAutomata.Proofs.Lexer.Boundaries
import JsonAutomata.Proofs.Lexer.Streams
import JsonAutomata.Proofs.Lexer.Laziness
import JsonAutomata.Proofs.Lexer.Failures
import JsonAutomata.Proofs.Lexer.Locality
import JsonAutomata.Proofs.Lexer.Groups
import JsonAutomata.Proofs.Lexer.Contributions
import JsonAutomata.Proofs.Lexer.Transcripts
import JsonAutomata.Proofs.Json.Grammar
import JsonAutomata.Proofs.Pattern.Operators
import JsonAutomata.Proofs.Thompson.Derived
import JsonAutomata.Proofs.Json.Cursor
import JsonAutomata.Proofs.Json.Surrogates
import JsonAutomata.Proofs.Json.Lexemes
import JsonAutomata.Proofs.Json.PatternTexts
import JsonAutomata.Proofs.Json.Tokens
import JsonAutomata.Proofs.Json.Precedence
import JsonAutomata.Proofs.Json.Accepting
import JsonAutomata.Proofs.Json.Decoding
import JsonAutomata.Proofs.Json.Admitting
import JsonAutomata.Proofs.Json.DepthLimit
import JsonAutomata.Proofs.Json.Writing
import JsonAutomata.Proofs.Json.OneLine
import JsonAutomata.Proofs.Json.Indentation
import JsonAutomata.Proofs.Json.RoundTrip
import JsonAutomata.Proofs.Json.ViablePrefix
import JsonAutomata.Proofs.Json.Descent
import JsonAutomata.Proofs.Json.OpenContainers
import JsonAutomata.Proofs.Json.Values
import JsonAutomata.Proofs.Terminal.Erasure
import JsonAutomata.Proofs.Terminal.ColoredValue
import JsonAutomata.Proofs.Number.Digits
import JsonAutomata.Proofs.Number.Spelling
import JsonAutomata.Proofs.Number.NormalForm
import JsonAutomata.Proofs.Number.Equality
import JsonAutomata.Proofs.Json.Equivalence
import JsonAutomata.Proofs.Number.Coercions
import JsonAutomata.Proofs.Json.Decoded
import JsonAutomata.Proofs.Exchange.MachineForms
import JsonAutomata.Proofs.Json.Integers
import JsonAutomata.Proofs.Json.Reordering
import JsonAutomata.Proofs.Text.Numerals
import JsonAutomata.Proofs.Pattern.Display
import JsonAutomata.Proofs.Automaton.Closure
import JsonAutomata.Proofs.Command.ManualPages
import JsonAutomata.Proofs.Terminal.TokenLines
