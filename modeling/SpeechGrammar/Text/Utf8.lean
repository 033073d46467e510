/-!
# UTF-8

Texts are kept as UTF-8 bytes. `utf8` writes a text and `ofUtf8?` reads it back (**`ofUtf8?_utf8`**). Of bytes that are
no UTF-8, `Utf8Fault.find` tells how many form complete characters, and how many more make up the faulty sequence;
there is no such number when the bytes end within a character that could still be completed.
-/

namespace SpeechGrammar.Text

/-- The bytes of a text. -/
def utf8 (s : String) : List UInt8 := s.toUTF8.data.toList

/-- The text with the given bytes, if they are UTF-8. -/
def ofUtf8? (bs : List UInt8) : Option String := String.fromUTF8? ⟨bs.toArray⟩

/-- Reading inverts writing. -/
theorem ofUtf8?_utf8 (s : String) : ofUtf8? (utf8 s) = some s := by
  simp only [ofUtf8?, utf8, String.fromUTF8?, String.toUTF8_eq_toByteArray, Array.toArray_toList]
  rw [dif_pos s.isValidUTF8]
  rfl

/-- Where and how bytes stop being UTF-8. -/
structure Utf8Fault where
  /-- How many bytes come before the faulty sequence. -/
  validUpTo : Nat
  /-- How many bytes the faulty sequence has, if it is not just cut short. -/
  length : Option Nat
  deriving DecidableEq, Repr

/-- A byte that goes on with a character. -/
def isContinuation (b : UInt8) : Bool := 0x80 ≤ b && b ≤ 0xBF

/-- The bytes that may stand second in a character whose first byte is given. -/
def isSecond (first b : UInt8) : Bool :=
  if first == 0xE0 then 0xA0 ≤ b && b ≤ 0xBF
  else if first == 0xED then 0x80 ≤ b && b ≤ 0x9F
  else if first == 0xF0 then 0x90 ≤ b && b ≤ 0xBF
  else if first == 0xF4 then 0x80 ≤ b && b ≤ 0x8F
  else isContinuation b

/-- How many bytes a character has, by its first byte; none for a byte that starts no character. -/
def encodedLength (first : UInt8) : Option Nat :=
  if first < 0x80 then some 1
  else if 0xC2 ≤ first && first ≤ 0xDF then some 2
  else if 0xE0 ≤ first && first ≤ 0xEF then some 3
  else if 0xF0 ≤ first && first ≤ 0xF4 then some 4
  else none

/-- Reads on in a character that still wants `more` bytes and has `taken` already: the bytes after the character, or
the length of the faulty sequence. -/
def passContinuations (taken : Nat) : Nat → List UInt8 → Except (Option Nat) (List UInt8)
  | 0, bs => .ok bs
  | _ + 1, [] => .error none
  | more + 1, b :: bs => if isContinuation b then passContinuations (taken + 1) more bs else .error (some taken)

/-- Reads one character from its first byte on: the bytes after it, or the length of the faulty sequence. -/
def passCharacter (first : UInt8) (bs : List UInt8) : Except (Option Nat) (List UInt8) :=
  match encodedLength first with
  | none => .error (some 1)
  | some n =>
    match n, bs with
    | 0, _ | 1, _ => .ok bs
    | _, [] => .error none
    | n + 2, b :: bs => if isSecond first b then passContinuations 2 n bs else .error (some 1)

theorem length_passContinuations {taken more : Nat} {bs rest : List UInt8}
    (h : passContinuations taken more bs = .ok rest) : rest.length ≤ bs.length := by
  induction more generalizing taken bs with
  | zero => simp_all [passContinuations]
  | succ more ih =>
    cases bs with
    | nil => simp [passContinuations] at h
    | cons b bs =>
      rw [passContinuations] at h
      split at h
      · have := ih h
        simp only [List.length_cons]
        omega
      · simp at h

theorem length_passCharacter {first : UInt8} {bs rest : List UInt8} (h : passCharacter first bs = .ok rest) :
    rest.length ≤ bs.length := by
  unfold passCharacter at h
  split at h
  · simp at h
  · split at h
    · simp_all
    · simp_all
    · simp at h
    · split at h
      · have := length_passContinuations h
        simp only [List.length_cons]
        omega
      · simp at h

/-- The first fault in bytes that come after `before` others; none if there is none. -/
def Utf8Fault.findFrom (before : Nat) : List UInt8 → Option Utf8Fault
  | [] => none
  | b :: bs =>
    match h : passCharacter b bs with
    | .error length => some ⟨before, length⟩
    | .ok rest =>
      have : rest.length ≤ bs.length := length_passCharacter h
      findFrom (before + (bs.length + 1 - rest.length)) rest
termination_by bs => bs.length

/-- The first fault in the bytes. -/
def Utf8Fault.find (bs : List UInt8) : Option Utf8Fault := findFrom 0 bs

end SpeechGrammar.Text
