import SpeechGrammar.Text.Blank

/-!
# Parse trees

How a rule fits the words that were spoken: which branch of each choice was taken, how often each repetition was
passed, and which tags lie on the way.
-/

namespace SpeechGrammar

/-- One node of a parse tree. -/
inductive ParseTree where
  /-- A token of the grammar, with its text. -/
  | token (text : String)
  | tag (value : String)
  /-- The items of a sequence, or the repetitions that were passed. -/
  | sequence (items : List ParseTree)
  /-- The branch that was taken, with its place among the branches. -/
  | alternative (index : Nat) (branch : ParseTree)
  /-- The body of a rule that was referred to. -/
  | rule (name : String) (body : ParseTree)

namespace ParseTree

instance : Inhabited ParseTree := ⟨.sequence []⟩

mutual

/-- The values of the tags, from left to right. -/
def tags : ParseTree → List String
  | .token _ => []
  | .tag value => [value]
  | .sequence items => tagsAll items
  | .alternative _ branch => tags branch
  | .rule _ body => tags body

/-- The values of the tags, from left to right. -/
def tagsAll : List ParseTree → List String
  | [] => []
  | t :: ts => tags t ++ tagsAll ts

end

mutual

/-- The words of the tokens, from left to right. -/
def tokens : ParseTree → List String
  | .token text => Text.words text
  | .tag _ => []
  | .sequence items => tokensAll items
  | .alternative _ branch => tokens branch
  | .rule _ body => tokens body

/-- The words of the tokens, from left to right. -/
def tokensAll : List ParseTree → List String
  | [] => []
  | t :: ts => tokens t ++ tokensAll ts

end

mutual

/-- The tree in one line: tokens, tags in braces, and the bodies of rules in parentheses. -/
def text : ParseTree → String
  | .token text => text
  | .tag value => "\x7b" ++ value ++ "\x7d"
  | .sequence items => " ".intercalate (textAll items)
  | .alternative _ branch => text branch
  | .rule name body => "(<" ++ name ++ "> = " ++ text body ++ ")"

/-- The texts of the trees. -/
def textAll : List ParseTree → List String
  | [] => []
  | t :: ts => text t :: textAll ts

end

end ParseTree

/-- How a rule fits the words that were spoken. -/
structure Parse where
  rule : String
  body : ParseTree

namespace Parse

/-- The parse as a node of a tree. -/
def tree (p : Parse) : ParseTree := .rule p.rule p.body

/-- The values of the tags, from left to right. -/
def tags (p : Parse) : List String := p.body.tags

/-- The words of the tokens, from left to right. -/
def tokens (p : Parse) : List String := p.body.tokens

/-- The parse in one line. -/
def text (p : Parse) : String := p.tree.text

end Parse

end SpeechGrammar
