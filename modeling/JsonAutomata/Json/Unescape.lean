import JsonAutomata.Json.DecodeError
import JsonAutomata.Text.Hex
import JsonAutomata.Text.Utf16

/-!
# Unescaping — the text that a string token denotes

Short escapes stand for one character, and `\u` with four hexadecimal digits for one UTF-16 unit.
Two units that form a surrogate pair stand for one character; a surrogate alone stands for none and
is refused at the place of its escape.
-/

namespace JsonAutomata

namespace Unescape

/-- The character that a backslash and one more character stand for. -/
def short? : Char → Option Char
  | '"' => some '"'
  | '\\' => some '\\'
  | '/' => some '/'
  | 'b' => some '\x08'
  | 'f' => some '\x0c'
  | 'n' => some '\n'
  | 'r' => some '\r'
  | 't' => some '\t'
  | _ => none

/-- The error for the escape at the beginning of `text`, of which `length` characters are shown. -/
def invalid (text : List Char) (length offset : Nat) : Except DecodeError (List Char) :=
  .error (.invalidEscape (String.ofList (text.take length)) offset)

def andThen (code : Nat) (rest : Except DecodeError (List Char)) : Except DecodeError (List Char) :=
  rest.map (Char.ofNat code :: ·)

/-- The unit that an escape of the form `\uXXXX` at the beginning of a text spells. -/
def unit? : List Char → Option Nat
  | '\\' :: 'u' :: h1 :: h2 :: h3 :: h4 :: _ => hexNumber? [h1, h2, h3, h4]
  | _ => none

/-- Resolves the escapes of a text that begins `offset` bytes into the document. -/
def resolve (offset : Nat) : List Char → Except DecodeError (List Char)
  | [] => .ok []
  | c :: rest =>
    if c ≠ '\\' then (resolve (offset + c.utf8Size) rest).map (c :: ·)
    else match rest with
      | 'u' :: h1 :: h2 :: h3 :: h4 :: after =>
        match hexNumber? [h1, h2, h3, h4] with
        | none => invalid (c :: rest) 6 offset
        | some unit =>
          if Utf16.isHigh unit then
            -- The two escapes of a pair are shown together if the second one is wrong.
            match after with
            | '\\' :: 'u' :: l1 :: l2 :: l3 :: l4 :: after =>
              match (hexNumber? [l1, l2, l3, l4]).filter Utf16.isLow with
              | none => invalid (c :: rest) 12 offset
              | some low => andThen (Utf16.combine unit low) (resolve (offset + 12) after)
            | _ => invalid (c :: rest) 12 offset
          else if Utf16.isLow unit then invalid (c :: rest) 6 offset
          else andThen unit (resolve (offset + 6) after)
      -- Fewer than four characters are left.
      | 'u' :: _ => invalid (c :: rest) 6 offset
      | e :: after =>
        match short? e with
        | none => invalid (c :: rest) 2 offset
        | some d => (resolve (offset + 2) after).map (d :: ·)
      | [] => invalid (c :: rest) 2 offset

def inner? : List Char → Option (List Char)
  | '"' :: rest => if rest.getLast? = some '"' then some rest.dropLast else none
  | _ => none

end Unescape

def Token.unescape (t : Token) : Except DecodeError String :=
  match Unescape.inner? t.content.toList with
  | none => .error (.unexpectedToken t.content .stringLiteral t.span.start)
  | some inner => (Unescape.resolve (t.span.start + 1) inner).map String.ofList

end JsonAutomata
