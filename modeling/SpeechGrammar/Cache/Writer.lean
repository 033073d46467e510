import SpeechGrammar.Cache.Payload

/-!
# Writing payloads

Numbers up to 250 are one byte; larger ones are written lowest byte first, after a byte that tells how many bytes there
are. A list is written after its length, a text likewise after the number of its bytes, and something optional after a
byte that tells whether it is there. A component is written after the number of its kind.
-/

namespace SpeechGrammar.Cache

/-- The lowest bytes of a number, lowest first. -/
def littleEndian : (count : Nat) → Nat → List UInt8
  | 0, _ => []
  | count + 1, n => n.toUInt8 :: littleEndian count (n / 256)

/-- There are as many bytes as asked for. -/
@[simp] theorem length_littleEndian (count n : Nat) : (littleEndian count n).length = count := by
  induction count generalizing n with
  | zero => rfl
  | succ count ih => simp [littleEndian, ih]

namespace Write

/-- A whole number, in as few bytes as possible. -/
def number (n : Nat) : List UInt8 :=
  if n < 251 then [n.toUInt8]
  else if n < 0x10000 then 251 :: littleEndian 2 n
  else if n < 0x100000000 then 252 :: littleEndian 4 n
  else 253 :: littleEndian 8 n

/-- Yes or no. -/
def flag (b : Bool) : List UInt8 := [if b then 1 else 0]

/-- Something that may be absent. -/
def option {α : Type} (write : α → List UInt8) : Option α → List UInt8
  | none => [0]
  | some a => 1 :: write a

/-- A list after its length. -/
def list {α : Type} (write : α → List UInt8) (as : List α) : List UInt8 := number as.length ++ as.flatMap write

/-- A text after the number of its bytes. -/
def text (s : String) : List UInt8 := number (Text.utf8 s).length ++ Text.utf8 s

/-- The bits of a single-precision number. -/
def single (x : Single) : List UInt8 := littleEndian 4 x.bits.toNat

/-- The finite upper bound of a repetition. -/
def bound : Bound → List UInt8
  | .finite max => option number (some max)
  | .indefinite => option number none

mutual

/-- A component after the number of its kind. -/
def component : Component → List UInt8
  | .token s => number 0 ++ text s
  | .reference r => number 1 ++ text r.rule ++ option text r.grammar
  | .alternatives branches weights =>
    number 2 ++ number branches.length ++ components branches ++ option (list single) weights
  | .sequence items => number 3 ++ number items.length ++ components items
  | .count body min max probability =>
    number 4 ++ component body ++ number min ++ bound max ++ option single probability
  | .tag value => number 5 ++ text value

/-- Components one after the other. -/
def components : List Component → List UInt8
  | [] => []
  | c :: cs => component c ++ components cs

end

/-- A rule with its id. -/
def entry (e : Entry) : List UInt8 :=
  text e.rule.name ++ flag e.rule.isPublic ++ number e.id.toNat ++ flag e.activatable ++ component e.rule.body

/-- A payload. -/
def payload (p : Payload) : List UInt8 :=
  text p.name ++ option text p.locale ++ number p.generation.toNat ++ number p.ruleCount ++ option id p.digest ++
    list entry p.rules ++ option text p.root ++ number p.nextId.toNat

end Write

end SpeechGrammar.Cache
