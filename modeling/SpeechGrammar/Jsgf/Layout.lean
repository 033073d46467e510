import SpeechGrammar.Jsgf.Reader
import SpeechGrammar.Text.Blank

/-!
# Layout

Blank characters and comments may stand between the parts of a grammar text. A comment runs from `//` to the end of
its line, or from `/*` to the next `*/`; a comment of the second kind that is not closed is none. A carriage return
ends a line only together with a line feed: a line comment that meets another one is no comment either.
-/

namespace SpeechGrammar.Jsgf

/-- What follows the first `*/`. -/
def afterClosing : List Char → Option (List Char)
  | [] => none
  | '*' :: '/' :: rest => some rest
  | _ :: cs => afterClosing cs

/-- The first character ends a line. -/
def startsLineEnding : List Char → Bool
  | '\r' :: '\n' :: _ => true
  | '\n' :: _ => true
  | [] => true
  | _ => false

namespace Reader

/-- Blank characters, at least one. -/
def blanks : Reader Unit := do
  let _ ← run Text.isBlank

/-- A comment to the end of the line, without the line ending. -/
def lineComment : Reader Unit := do
  literal ['/', '/']
  skip fun c => c != '\r' && c != '\n'
  fun s => if startsLineEnding s then .ok ((), s) else refuse s

/-- A comment with an end of its own. -/
def blockComment : Reader Unit := do
  literal ['/', '*']
  fun s =>
    match afterClosing s with
    | some rest => .ok ((), rest)
    | none => refuse s

/-- Blank characters and comments, as far as they go. -/
def layout : Reader Unit := do
  let _ ← many (orElse blanks (orElse lineComment blockComment))

/-- Spaces and tabs, the only layout within the header. -/
def spaces : Reader Unit := skip fun c => c == ' ' || c == '\t'

end Reader

end SpeechGrammar.Jsgf
