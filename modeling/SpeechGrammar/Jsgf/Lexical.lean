import SpeechGrammar.Text.Blank
import SpeechGrammar.Text.Alphanumeric

/-!
# Characters and quoting in grammar text

The classes of characters that names and bare tokens are made of, and the way in which any text can stand between
delimiters: the closing delimiter and the backslash are written with a backslash in front. What is written so is read
back, whatever follows (**`unescape_escape`**).
-/

namespace SpeechGrammar.Jsgf

/-- The characters that mean something in grammar text; a bare token holds none of them. -/
def reserved : List Char := [';', '=', '|', '*', '+', '<', '>', '(', ')', '[', ']', '{', '}', '/', '"', '\\']

/-- A character of a token that needs no quotes. -/
def isBare (c : Char) : Bool := !Text.isBlank c && !reserved.contains c

/-- A character of the name of a rule. -/
def isRuleNameChar (c : Char) : Bool := isBare c && c != '.'

/-- A character of the name of a grammar. -/
def isGrammarNameChar (c : Char) : Bool := Text.isAlphanumeric c || ['_', '.', '-', '$'].contains c

/-- A character of a word in the header. -/
def isHeaderChar (c : Char) : Bool := !Text.isBlank c && c != ';'

/-- A character of an imported name. -/
def isImportChar (c : Char) : Bool := c != '>' && !Text.isBlank c

/-- A character between the angle brackets of a reference. -/
def isReferenceChar (c : Char) : Bool := !Text.isBlank c && c != '<' && c != '>'

/-- A character of a weight. -/
def isWeightChar (c : Char) : Bool := c.isDigit || c == '.'

/-- The text with a backslash before each `close` and each backslash. -/
def escape (close : Char) : List Char → List Char
  | [] => []
  | c :: cs => if c = close ∨ c = '\\' then '\\' :: c :: escape close cs else c :: escape close cs

/-- How a text ends before its closing delimiter. -/
inductive Unclosed where
  /-- Where a character or the delimiter is due. -/
  | midway
  /-- Right after a backslash. -/
  | afterBackslash
  deriving DecidableEq, Repr

/-- Reads up to the first `close` that has no backslash before it: the text and what follows. A backslash before any
other character than `close` and a backslash stands for itself. -/
def unescape (close : Char) : List Char → Except Unclosed (List Char × List Char)
  | [] => .error .midway
  | c :: cs =>
    if c = close then .ok ([], cs)
    else if c = '\\' then
      match cs with
      | [] => .error .afterBackslash
      | d :: ds =>
        (unescape close ds).map fun (text, rest) =>
          (if d = close ∨ d = '\\' then d :: text else '\\' :: d :: text, rest)
    else (unescape close cs).map fun (text, rest) => (c :: text, rest)

/-- Reading inverts escaping, whatever follows the delimiter. -/
theorem unescape_escape {close : Char} (hclose : close ≠ '\\') (cs rest : List Char) :
    unescape close (escape close cs ++ close :: rest) = .ok (cs, rest) := by
  induction cs with
  | nil =>
    rw [escape, List.nil_append, unescape.eq_def]
    simp
  | cons c cs ih =>
    by_cases h : c = close ∨ c = '\\'
    · simp only [escape, h, ↓reduceIte, List.cons_append]
      rw [unescape]
      simp [hclose.symm, ih, h, Except.map]
    · have h' := not_or.mp h
      simp only [escape, h, ↓reduceIte, List.cons_append]
      rw [unescape.eq_def]
      simp [h'.1, h'.2, ih, Except.map]

end SpeechGrammar.Jsgf
