/-!
# Decimal numbers

A decimal is a whole number of steps of some power of ten below one. Its text has all of its places, after a point if
there are any, and at least one digit before it. A text is read as a decimal if it holds digits, at least one of
them, and at most one point (`Decimal.read?`).
-/

namespace SpeechGrammar

/-- The number `digits / 10 ^ places`. -/
structure Decimal where
  digits : Nat
  places : Nat
  deriving DecidableEq, Repr

namespace Decimal

/-- The digits of the number, with zeros in front until one stands before the point. -/
def padded (d : Decimal) : List Char :=
  let cs := Nat.toDigits 10 d.digits
  List.replicate (d.places + 1 - cs.length) '0' ++ cs

/-- The number in positional notation. -/
def text (d : Decimal) : List Char :=
  let cs := d.padded
  if d.places = 0 then cs else cs.take (cs.length - d.places) ++ '.' :: cs.drop (cs.length - d.places)

/-- The number that digits with at most one point among them stand for. -/
def read? (cs : List Char) : Option Decimal :=
  let whole := cs.takeWhile Char.isDigit
  match cs.dropWhile Char.isDigit with
  | [] => if whole.isEmpty then none else some ⟨Nat.ofDigitChars 10 whole 0, 0⟩
  | c :: fraction =>
    if c == '.' && fraction.all Char.isDigit && !(whole.isEmpty && fraction.isEmpty) then
      some ⟨Nat.ofDigitChars 10 (whole ++ fraction) 0, fraction.length⟩
    else none

end Decimal

end SpeechGrammar
