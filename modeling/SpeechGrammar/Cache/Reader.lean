import SpeechGrammar.Cache.Writer

/-!
# Reading payloads

The inverse of writing. Numbers may be written wider than they need to be, up to the width of their type. Where bytes
run out, the error tells how many are missing for the piece that is being read.

A text takes memory for all bytes that are announced (`Read.reserve`), and a list only for what is read. There is as
much memory as is needed, but no piece of it has more than `maxMemory` bytes.

Components are nested. `component` reads those that are nested less deep than there are bytes, which are all, since
each has a byte of its own.
-/

namespace SpeechGrammar.Cache

/-- The number with the given bytes, lowest first. -/
def ofLittleEndian : List UInt8 → Nat
  | [] => 0
  | b :: bs => b.toNat + 256 * ofLittleEndian bs

/-- The number of bytes in the largest piece of memory, one less than half of the numbers of 64 bits. -/
def maxMemory : Nat := 0x7FFFFFFFFFFFFFFF

/-- Takes bytes off the front, or stops. -/
abbrev Decoder := StateT (List UInt8) (Except Stop)

namespace Read

/-- The first bytes and the rest, or how many are missing. -/
def splitExactly : (count : Nat) → List UInt8 → Except Nat (List UInt8 × List UInt8)
  | 0, bs => .ok ([], bs)
  | count + 1, [] => .error (count + 1)
  | count + 1, b :: bs => (splitExactly count bs).map fun (front, rest) => (b :: front, rest)

/-- The first bytes are those that stand in front. -/
theorem splitExactly_append (front rest : List UInt8) :
    splitExactly front.length (front ++ rest) = .ok (front, rest) := by
  induction front with
  | nil => simp [splitExactly]
  | cons b bs ih => simp [splitExactly, ih, Except.map]

/-- Exactly so many bytes. -/
def bytes (count : Nat) : Decoder (List UInt8) := fun bs =>
  match splitExactly count bs with
  | .ok r => .ok r
  | .error missing => .error (.fault (.unexpectedEnd missing))

/-- One byte. -/
def byte : Decoder UInt8
  | [] => .error (.fault (.unexpectedEnd 1))
  | b :: bs => .ok (b, bs)

/-- A number of so many bytes. -/
def fixed (count : Nat) : Decoder Nat := ofLittleEndian <$> bytes count

/-- What a number counts, which decides how wide it may be. -/
inductive NumberUse where
  /-- A kind of component or a repetition bound. -/
  | small
  /-- An id, a generation, or the length of a text. -/
  | large
  /-- The length of a list. -/
  | listLength

/-- The widest type for a number, as errors name it. For large numbers it depends on the bytes that are left. -/
def NumberUse.expected (left : Nat) : NumberUse → IntegerType
  | .small => .word32
  | .large => if 9 ≤ left then .word32 else .word64
  | .listLength => .size

/-- The type of the width that a first byte above 252 announces. -/
def announced (first : UInt8) : IntegerType :=
  if first = 253 then .word64 else if first = 254 then .word128 else .reserved

/-- A whole number in any width that its use allows. -/
def number (use : NumberUse) : Decoder Nat := fun bs =>
  match bs with
  | [] => .error (.fault (.unexpectedEnd 1))
  | b :: rest =>
    if b < 251 then .ok (b.toNat, rest)
    else if b = 251 then fixed 2 rest
    else if b = 252 then fixed 4 rest
    else
      match b, use with
      | 253, .large | 253, .listLength => fixed 8 rest
      | _, _ => .error (.fault (.tooWide (use.expected bs.length) (announced b)))

/-- A number of 64 bits. -/
def word : Decoder UInt64 := Nat.toUInt64 <$> number .large

/-- Yes or no. -/
def flag : Decoder Bool := do
  match ← byte with
  | 0 => pure false
  | 1 => pure true
  | b => throw (.fault (.invalidBool b))

/-- Something that may be absent. -/
def option {α : Type} (read : Decoder α) : Decoder (Option α) := do
  match ← byte with
  | 0 => pure none
  | 1 => some <$> read
  | b => throw (.fault (.invalidOption b))

/-- So many things one after the other. -/
def times {α : Type} (read : Decoder α) : Nat → Decoder (List α)
  | 0 => pure []
  | n + 1 => do
    let a ← read
    let as ← times read n
    pure (a :: as)

/-- A list after its length. -/
def list {α : Type} (read : Decoder α) : Decoder (List α) := do
  let n ← number .listLength
  times read n

/-- Takes memory for so many bytes. -/
def reserve (count : Nat) : Decoder Unit := if maxMemory < count then throw .abort else pure ()

/-- A text after the number of its bytes. Memory for them is taken before it shows whether they are there. -/
def text : Decoder String := do
  let n ← number .large
  reserve n
  let bs ← bytes n
  match Text.ofUtf8? bs with
  | some s => pure s
  | none => throw (.fault (.utf8 ((Text.Utf8Fault.find bs).getD ⟨0, none⟩)))

/-- A single-precision number. -/
def single : Decoder Single := (fun n => ⟨n.toUInt32⟩) <$> fixed 4

/-- The upper bound of a repetition. -/
def bound : Decoder Bound := do
  match ← option (number .small) with
  | some max => pure (.finite max)
  | none => pure .indefinite

/-- A component of a kind, where `inner` reads the components in it. -/
def componentOf (inner : Decoder Component) : (kind : Nat) → Decoder Component
  | 0 => .token <$> text
  | 1 => do
    let rule ← text
    let grammar ← option text
    pure (.reference ⟨rule, grammar⟩)
  | 2 => do
    let branches ← list inner
    let weights ← option (list single)
    pure (.alternatives branches weights)
  | 3 => .sequence <$> list inner
  | 4 => do
    let body ← inner
    let min ← number .small
    let max ← bound
    let probability ← option single
    pure (.count body min max probability)
  | 5 => .tag <$> text
  | kind => throw (.fault (.unknownComponent kind))

/-- A component with others nested in it less than so deep. Without a byte there is no component. -/
def componentWithin : (depth : Nat) → Decoder Component
  | 0 => throw (.fault (.unexpectedEnd 1))
  | depth + 1 => do
    let kind ← number .small
    componentOf (componentWithin depth) kind

/-- A component. -/
def component : Decoder Component := fun bs => componentWithin bs.length bs

/-- A rule with its id. -/
def entry : Decoder Entry := do
  let name ← text
  let isPublic ← flag
  let id ← word
  let activatable ← flag
  let body ← component
  pure ⟨⟨name, isPublic, body⟩, id, activatable⟩

/-- A payload. -/
def payload : Decoder Payload := do
  let name ← text
  let locale ← option text
  let generation ← word
  let ruleCount ← number .large
  let digest ← option (times byte 32)
  let rules ← list entry
  let root ← option text
  let nextId ← word
  pure ⟨name, locale, generation, ruleCount, digest, rules, root, nextId⟩

end Read

end SpeechGrammar.Cache
