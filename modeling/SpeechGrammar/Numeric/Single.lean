import SpeechGrammar.Numeric.Decimal

/-!
# Single-precision numbers

A number of the binary interchange format of 32 bits is kept as its bits. Without its sign it is a whole number of
steps of `2 ^ -149`, which makes all arithmetic here arithmetic of natural numbers. `Single.ofDecimal` rounds a
decimal to the nearest number of the format, and `Single.text` writes the shortest decimal that is rounded back:
the coarsest decimal grid with such a point is taken, and on it the nearer of the two points beside the number.
-/

namespace SpeechGrammar

/-- A number in the binary interchange format of 32 bits. -/
structure Single where
  bits : UInt32
  deriving DecidableEq, Repr

namespace Single

/-- The bits without the sign, in the order of the absolute values. -/
def magnitude (x : Single) : Nat := x.bits.toNat % 0x80000000

/-- The sign bit is set. -/
def signed (x : Single) : Bool := 0x80000000 ≤ x.bits.toNat

/-- The magnitude of infinity; only those of NaNs lie above it. -/
def infinite : Nat := 0x7F800000

/-- The magnitude of the number one. -/
def one : Nat := 0x3F800000

/-- No number at all. -/
def isNaN (x : Single) : Bool := infinite < x.magnitude

/-- Neither infinite nor a NaN. -/
def isFinite (x : Single) : Bool := x.magnitude < infinite

/-- Less than zero, which the negative zero is not. -/
def isNegative (x : Single) : Bool := x.signed && x.magnitude != 0 && !x.isNaN

/-- At least zero and at most one. -/
def isProbability (x : Single) : Bool := x.magnitude == 0 || (!x.signed && x.magnitude ≤ one)

/-- Equal as numbers: the two zeros are, and a NaN equals nothing. -/
def equals (x y : Single) : Bool := !x.isNaN && !y.isNaN && (x.bits == y.bits || (x.magnitude == 0 && y.magnitude == 0))

/-! ## Values and rounding -/

/-- The absolute value of a finite number, counted in steps of `2 ^ -149`. -/
def steps (magnitude : Nat) : Nat :=
  if magnitude < 0x800000 then magnitude
  else (0x800000 + magnitude % 0x800000) * Nat.pow 2 (magnitude / 0x800000 - 1)

/-- The whole number nearest to a quotient; of two the even one. -/
def roundHalfEven (num den : Nat) : Nat :=
  let q := num / den
  let r := num % den
  if den < 2 * r ∨ (2 * r = den ∧ q % 2 = 1) then q + 1 else q

/-- The magnitude nearest to a quotient; of two the even one, and infinity from half a step above the largest on. -/
def nearest (num den : Nat) : Nat :=
  let scaled := num * Nat.pow 2 149
  let shift := (scaled / den).log2 - 23
  min infinite (shift * 0x800000 + roundHalfEven scaled (den * Nat.pow 2 shift))

/-- The magnitude nearest to a decimal. -/
def magnitudeOf (d : Decimal) : Nat := nearest d.digits (Nat.pow 10 d.places)

/-- The number nearest to a decimal. -/
def ofDecimal (d : Decimal) : Single := ⟨(magnitudeOf d).toUInt32⟩

/-! ## Shortest decimals -/

/-- The multiples of `10 ^ tens / 10 ^ places`. -/
structure Grid where
  tens : Nat
  places : Nat

/-- From the coarsest grid that has a finite number beside zero to one that holds every finite number. -/
def grids : List Grid :=
  (List.range 39).reverse.map (⟨·, 0⟩) ++ (List.range 149).map (⟨0, · + 1⟩)

/-- Of the two points of a grid beside the number, the nearer one that is rounded back to it; an exact tie goes up. -/
def onGrid (magnitude : Nat) (g : Grid) : Option Decimal :=
  let num := steps magnitude * Nat.pow 10 g.places
  let den := Nat.pow 2 149 * Nat.pow 10 g.tens
  let below : Decimal := ⟨num / den * Nat.pow 10 g.tens, g.places⟩
  let above : Decimal := ⟨(num / den + 1) * Nat.pow 10 g.tens, g.places⟩
  if magnitudeOf below = magnitude ∧ (magnitudeOf above ≠ magnitude ∨ 2 * (num % den) < den) then some below
  else if magnitudeOf above = magnitude then some above
  else none

/-- The decimal that is the number exactly. -/
def exactly (magnitude : Nat) : Decimal := ⟨steps magnitude * Nat.pow 5 149, 149⟩

/-- The shortest decimal that is rounded back to a finite number. -/
def shortest (magnitude : Nat) : Decimal := (grids.findSome? (onGrid magnitude)).getD (exactly magnitude)

/-- The text of a number: all digits of its shortest decimal, and no exponent. -/
def text (x : Single) : List Char :=
  if x.isNaN then "NaN".toList
  else (if x.signed then ['-'] else []) ++
    if x.isFinite then (shortest x.magnitude).text else "inf".toList

end Single

end SpeechGrammar
