import SpeechGrammar.Component.Shape
import SpeechGrammar.Text.Utf8

/-!
# Faults of cached grammars

Why bytes cannot be read as a grammar: the header is not right, the payload cannot be decoded, or what it says is not a
possible state of a grammar.

One outcome is no error that a caller is told. If a text is announced that is longer than any piece of memory, the
program is ended (`Stop.abort`, `Error.aborted`).
-/

namespace SpeechGrammar.Cache

/-- The widths of whole numbers. -/
inductive IntegerType where
  | word32
  | word64
  | word128
  /-- As wide as a number that counts what fits into memory. -/
  | size
  /-- No width at all. -/
  | reserved
  deriving DecidableEq, Repr

/-- The name of a width. -/
def IntegerType.message : IntegerType → String
  | .word32 => "U32"
  | .word64 => "U64"
  | .word128 => "U128"
  | .size => "Usize"
  | .reserved => "Reserved"

/-- Why a payload cannot be decoded. -/
inductive DecodeError where
  /-- So many bytes are missing. -/
  | unexpectedEnd (missing : Nat)
  | invalidBool (byte : UInt8)
  /-- Neither absent nor present. -/
  | invalidOption (byte : UInt8)
  /-- A number is written wider than it may be. -/
  | tooWide (expected found : IntegerType)
  | utf8 (fault : Text.Utf8Fault)
  | unknownComponent (variant : Nat)
  deriving DecidableEq, Repr

/-- The length of a faulty sequence, if it has one. -/
def lengthMessage : Option Nat → String
  | none => "None"
  | some n => s!"Some({n})"

/-- The wording of an error. -/
def DecodeError.message : DecodeError → String
  | .unexpectedEnd missing => "UnexpectedEnd \x7b additional: " ++ toString missing ++ " \x7d"
  | .invalidBool byte => s!"InvalidBooleanValue({byte.toNat})"
  | .invalidOption byte =>
    "UnexpectedVariant \x7b type_name: \"Option<T>\", allowed: Range \x7b min: 0, max: 1 \x7d, found: " ++
      toString byte.toNat ++ " \x7d"
  | .tooWide expected found =>
    "InvalidIntegerType \x7b expected: " ++ expected.message ++ ", found: " ++ found.message ++ " \x7d"
  | .utf8 fault =>
    "Utf8 \x7b inner: Utf8Error \x7b valid_up_to: " ++ toString fault.validUpTo ++ ", error_len: " ++
      lengthMessage fault.length ++ " \x7d \x7d"
  | .unknownComponent variant =>
    s!"OtherString(\"invalid value: integer `{variant}`, expected variant index 0 <= i < 6\")"

/-- Why the reading of a payload stops before its end. -/
inductive Stop where
  /-- The payload cannot be decoded. -/
  | fault (error : DecodeError)
  /-- There is no memory for a text that is announced. The program is ended. -/
  | abort
  deriving DecidableEq, Repr

/-- Why a payload is no possible state of a grammar. -/
inductive PayloadFault where
  | ruleCount (said found : Nat)
  | emptyGrammarName
  | emptyRuleName
  | duplicateName (rule : String)
  | duplicateId (id : UInt64)
  | idNotBelowNext (id : UInt64) (rule : String) (next : UInt64)
  | privateActivatable (rule : String)
  | unknownRoot (root : String)
  | privateRoot (root : String)
  | shape (rule : String) (fault : ShapeFault)
  deriving DecidableEq, Repr

/-- The wording of a fault. -/
def PayloadFault.message : PayloadFault → String
  | .ruleCount said found => s!"metadata says {said} rules but payload has {found}"
  | .emptyGrammarName => "empty grammar name"
  | .emptyRuleName => "empty rule name"
  | .duplicateName rule => s!"duplicate rule name '{rule}'"
  | .duplicateId id => s!"duplicate insertion id {id}"
  | .idNotBelowNext id rule next => s!"insertion id {id} of rule '{rule}' not below next id {next}"
  | .privateActivatable rule => s!"private rule '{rule}' marked activatable"
  | .unknownRoot root => s!"root '{root}' is not a rule of the grammar"
  | .privateRoot root => s!"root '{root}' is private"
  | .shape rule fault => s!"rule '{rule}': {fault.message}"

/-- The version of the format that is written and read. -/
def formatVersion : Nat := 1

/-- Why bytes cannot be read as a grammar. -/
inductive Error where
  | badMagic
  | incompatibleVersion (version : Nat)
  | checksumMismatch
  | lengthMismatch (expected actual : Nat)
  | decode (error : DecodeError)
  | invalid (fault : PayloadFault)
  /-- There are no bytes, since there is no such file. -/
  | missingFile
  /-- No error is returned, since the program is ended. -/
  | aborted
  deriving DecidableEq, Repr

/-- The wording of an error. -/
def Error.message : Error → String
  | .badMagic => "not a rulegram binary: invalid magic bytes"
  | .incompatibleVersion version =>
    s!"incompatible format version: blob is v{version}, engine supports v{formatVersion}"
  | .checksumMismatch => "integrity check failed: BLAKE3 checksum mismatch"
  | .lengthMismatch expected actual => s!"payload length mismatch: expected {expected} bytes, got {actual}"
  | .decode error => "failed to decode payload: " ++ error.message
  | .invalid fault => "validation failed: " ++ fault.message
  | .missingFile => "I/O error during deserialization: No such file or directory (os error 2)"
  | .aborted => "capacity overflow"

/-- What a reader of bytes says when the reading of their payload stops. -/
def Stop.error : Stop → Error
  | .fault error => .decode error
  | .abort => .aborted

end SpeechGrammar.Cache
