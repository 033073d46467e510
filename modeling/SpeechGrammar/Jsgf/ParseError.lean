import SpeechGrammar.Jsgf.Reader

/-!
# Messages about grammar texts

A message shows where the text stops being a grammar text, by a mark under the place, and what was expected there. A
text of one line is shown whole; otherwise the line with the place is shown, with its number and the column.
-/

namespace SpeechGrammar.Jsgf

/-- Where a text stops being a grammar text, and what was expected there. -/
structure ParseError where
  source : List Char
  /-- The part of the text from the place on. -/
  rest : List Char
  expected : List Expectation
  deriving DecidableEq, Repr

/-- The number of UTF-8 bytes. -/
def byteCount (cs : List Char) : Nat := cs.foldl (fun count c => count + c.utf8Size) 0

/-- The place of a failure in a text of several lines. -/
structure Place where
  /-- Counted from one. -/
  line : Nat
  /-- Counted from one. -/
  column : Nat
  /-- The line without its line feed. -/
  text : List Char
  deriving DecidableEq, Repr

/-- The characters after the last line feed. -/
def lastLine (cs : List Char) : List Char := (cs.reverse.takeWhile (· != '\n')).reverse

namespace Place

/-- The place between `before` and `c :: after`. A place before a character of several bytes is given in bytes. -/
def inside (before : List Char) (c : Char) (after : List Char) : Place where
  line := before.count '\n' + 1
  column := (if c.utf8Size = 1 then (lastLine before).length else byteCount (lastLine before)) + 1
  text := lastLine before ++ (c :: after).takeWhile (· != '\n')

/-- The place at the end of a text, which is after the last character of the line that this character is in. -/
def atEnd (source : List Char) : Place :=
  let front := source.dropLast
  { line := front.count '\n' + 1
    column := (lastLine front).length + 2
    text := lastLine front ++ (source.getLast?.toList).filter (· != '\n') }

/-- The place in front of the last part of a text. -/
def find (source rest : List Char) : Place :=
  match rest with
  | [] => atEnd source
  | c :: after => inside (source.take (source.length - rest.length)) c after

end Place

namespace ParseError

/-- The place in a text of several lines, with its line. -/
def inLines (place : Place) : String :=
  let line := toString place.line
  let margin := String.ofList (List.replicate line.length ' ')
  s!"parse error at line {line}, column {place.column}\n" ++
    s!"{margin} |\n" ++
    s!"{line} | " ++ String.ofList place.text ++ "\n" ++
    s!"{margin} | " ++ String.ofList (List.replicate (place.column - 1) ' ') ++ "^\n"

/-- The place in a text of one line, with the text. -/
def inOneLine (source rest : List Char) : String :=
  String.ofList source ++ "\n" ++
    String.ofList (List.replicate (byteCount source - byteCount rest) ' ') ++ "^\n"

/-- What was expected, if anything is known about it. -/
def expectation (expected : List Expectation) : String :=
  if expected.isEmpty then "" else "expected " ++ ", ".intercalate (expected.map Expectation.message)

/-- The message about a text. -/
def message (e : ParseError) : String :=
  "parse error: " ++
    (if e.source.contains '\n' then inLines (Place.find e.source e.rest) else inOneLine e.source e.rest) ++
    expectation e.expected

end ParseError

end SpeechGrammar.Jsgf
