import JsonAutomata.Text.Report
import JsonAutomata.Terminal.Ansi
import JsonAutomata.Terminal.ColoredValue
import JsonAutomata.Terminal.TokenListing
import JsonAutomata.Text.Utf8

/-!
# Sinks — writing to something that can fail

A sink takes bytes until its room is used up, and fails on the first byte after that. If whoever
reads from the sink has gone away, there is nobody left to write for, and writing counts as done;
any other failure is reported.
-/

namespace JsonAutomata

namespace Terminal

inductive SinkFault where
  | brokenPipe
  | other (message : String)
  deriving DecidableEq, Repr

structure Sink where
  /-- The number of bytes that it takes; none if there is no bound. -/
  room : Option Nat
  fault : SinkFault
  deriving DecidableEq, Repr

namespace Sink

def taken (sink : Sink) (bytes : List UInt8) : List UInt8 :=
  match sink.room with
  | none => bytes
  | some room => bytes.take room

def holds (sink : Sink) (bytes : List UInt8) : Bool := sink.room.all (bytes.length ≤ ·)

def report? (sink : Sink) (context : String) (bytes : List UInt8) : Option Report :=
  if sink.holds bytes then none
  else match sink.fault with
    | .brokenPipe => none
    | .other message => some ⟨context, [message]⟩

end Sink

structure Writing where
  bytes : List UInt8
  report : Option Report
  deriving DecidableEq, Repr

def Sink.write (sink : Sink) (context : String) (text : List Char) : Writing :=
  let bytes := Utf8.encode text
  ⟨sink.taken bytes, sink.report? context bytes⟩

def Sink.writeValueBy (painter : Painter) (sink : Sink) (colors pretty : Bool) (v : Value) :
    Writing :=
  sink.write "write colorized JSON to stdout" (coloredValue painter colors pretty v)

def Sink.writeTokensBy (painter : Painter) (sink : Sink) (colors : Bool) (tokens : List Token) :
    Writing :=
  sink.write "write tokens to stdout" (tokenListing painter colors tokens)

/-! ## The painter of the program -/

def Sink.writeValue : Sink → Bool → Bool → Value → Writing := writeValueBy .ansi

def Sink.writeTokens : Sink → Bool → List Token → Writing := writeTokensBy .ansi

end Terminal

end JsonAutomata
