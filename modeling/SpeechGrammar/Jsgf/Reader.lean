/-!
# Readers of text

A reader takes characters off the front of a text or fails. A failure is soft or hard: where there are several ways to
go on, a soft failure of one leads to the next, and a hard failure ends the whole reading. A failure keeps the text
that was left where it arose, and what was expected there.
-/

namespace SpeechGrammar.Jsgf

/-- What a reader was looking for when it failed. -/
inductive Expectation where
  | headerMark
  | version
  | declaration
  | grammarName
  | importedName
  | closingBrace
  | ruleReference
  | item
  | ruleName
  | expansion
  | semicolon
  deriving DecidableEq, Repr

/-- The wording of an expectation. -/
def Expectation.message : Expectation → String
  | .headerMark => "`#JSGF`"
  | .version => "version"
  | .declaration => "grammar declaration"
  | .grammarName => "grammar name"
  | .importedName => "imported name"
  | .closingBrace => "closing '\x7d'"
  | .ruleReference => "rule reference"
  | .item => "token, reference or group"
  | .ruleName => "rule name"
  | .expansion => "rule expansion"
  | .semicolon => "`;`"

/-- Why and where a reader failed. -/
structure Failure where
  /-- No other way is tried. -/
  hard : Bool
  /-- The text left at the place of the failure. -/
  rest : List Char
  /-- What was expected, from the innermost reader outwards. -/
  expected : List Expectation
  deriving DecidableEq, Repr

/-- Takes characters off the front of a text, or fails. -/
abbrev Reader := StateT (List Char) (Except Failure)

namespace Reader

variable {α : Type}

/-- A soft failure right here. -/
def refuse : Reader α := fun s => .error ⟨false, s, []⟩

/-- A hard failure right here. -/
def abort (expected : List Expectation) : Reader α := fun s => .error ⟨true, s, expected⟩

/-- Exactly these characters. -/
def literal (cs : List Char) : Reader Unit := fun s =>
  match cs.isPrefixOf? s with
  | some rest => .ok ((), rest)
  | none => refuse s

/-- Exactly this character. -/
def char (c : Char) : Reader Unit := literal [c]

/-- All characters of the class up to the first other one, and at least one. -/
def run (p : Char → Bool) : Reader (List Char) := fun s =>
  if (s.takeWhile p).isEmpty then refuse s else .ok (s.takeWhile p, s.dropWhile p)

/-- All characters of the class up to the first other one. -/
def skip (p : Char → Bool) : Reader Unit := fun s => .ok ((), s.dropWhile p)

/-- Only the end of the text. -/
def atEnd : Reader Unit := fun s => if s.isEmpty then .ok ((), s) else refuse s

/-- Failures become hard. -/
def cut (p : Reader α) : Reader α := fun s =>
  match p s with
  | .error f => .error { f with hard := true }
  | .ok r => .ok r

/-- Failures tell what was expected. -/
def expecting (e : Expectation) (p : Reader α) : Reader α := fun s =>
  match p s with
  | .error f => .error { f with expected := f.expected ++ [e] }
  | .ok r => .ok r

/-- The second reader where the first fails softly. -/
def orElse (p q : Reader α) : Reader α := fun s =>
  match p s with
  | .error f => if f.hard then .error f else q s
  | .ok r => .ok r

/-- The reader, or nothing where it fails softly. -/
def optionally (p : Reader α) : Reader (Option α) := orElse (some <$> p) (pure none)

/-- The reader and then `more`, or nothing where the reader fails softly. -/
def again (p : Reader α) (more : Reader (List α)) : Reader (List α) := fun s =>
  match p s with
  | .error f => if f.hard then .error f else .ok ([], s)
  | .ok (a, rest) =>
    match more rest with
    | .error f => .error f
    | .ok (as, rest) => .ok (a :: as, rest)

/-- The reader as often as it succeeds, but at most `n` times. -/
def atMost (p : Reader α) : Nat → Reader (List α)
  | 0 => pure []
  | n + 1 => again p (atMost p n)

/-- The reader as often as it succeeds, but at most once more than `bound` has characters. -/
def manyWithin (p : Reader α) : (bound : List Char) → Reader (List α)
  | [] => again p (pure [])
  | _ :: bound => again p (manyWithin p bound)

/-- The reader as often as it succeeds. Every reader that is repeated takes at least one character, so the text itself
bounds the number of repetitions. -/
def many (p : Reader α) : Reader (List α) := fun s => manyWithin p s s

/-- The reader as often as it succeeds, but at least once. -/
def atLeastOnce (p : Reader α) : Reader (List α) := do
  let a ← p
  let as ← many p
  pure (a :: as)

end Reader

end SpeechGrammar.Jsgf
