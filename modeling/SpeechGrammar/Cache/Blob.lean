import SpeechGrammar.Cache.Reader
import SpeechGrammar.Digest.Blake3

/-!
# Cached grammars as bytes

A header of 32 bytes, and the payload after it. The header has the magic bytes, the version of the format, that of the
writer and flags, which are not looked at, the length of the payload, and the first half of its hash. The bytes after
the payload are ignored, as are those at its end that are not needed.
-/

namespace SpeechGrammar.Cache

/-- The first bytes of every cached grammar. -/
def magic : List UInt8 := [0x52, 0x47, 0x52, 0x4D]

/-- The version of the writer. -/
def engineVersion : Nat := 1

/-- The number of bytes before the payload. -/
def headerSize : Nat := 32

/-- The first half of the hash of a payload. -/
def checksum (payload : List UInt8) : List UInt8 := (Blake3.hash payload).take 16

/-- The header of a payload. -/
def header (payload : List UInt8) : List UInt8 :=
  magic ++ littleEndian 2 formatVersion ++ littleEndian 2 engineVersion ++ littleEndian 4 0 ++
    littleEndian 4 payload.length ++ checksum payload

/-- The header has its fixed size. -/
theorem length_header (payload : List UInt8) : (header payload).length = headerSize := by
  simp [header, magic, checksum, headerSize, Blake3.length_hash]

/-- The bytes of a payload with its header. -/
def frame (payload : List UInt8) : List UInt8 := header payload ++ payload

/-- The digest of a source text. -/
def digestOf (source : String) : List UInt8 := Blake3.hash (Text.utf8 source)

/-- The bytes of a snapshot that was loaded from a source text, if there was one. -/
def encode (s : Snapshot) (source : Option String) : List UInt8 :=
  frame (Write.payload (Payload.ofSnapshot s (source.map digestOf)))

/-- The number at so many bytes from the start. -/
def numberAt (bs : List UInt8) (offset count : Nat) : Nat := ofLittleEndian ((bs.drop offset).take count)

/-- The payload that the header announces. -/
def payloadBytes (bs : List UInt8) : Except Error (List UInt8) :=
  if bs.length < headerSize then .error (.lengthMismatch headerSize bs.length)
  else if bs.take 4 ≠ magic then .error .badMagic
  else if numberAt bs 4 2 ≠ formatVersion then .error (.incompatibleVersion (numberAt bs 4 2))
  else if bs.length < headerSize + numberAt bs 12 4 then
    .error (.lengthMismatch (numberAt bs 12 4) (bs.length - headerSize))
  else .ok ((bs.drop headerSize).take (numberAt bs 12 4))

/-- The payload has the hash that the header announces. -/
def checksumFits (bs payload : List UInt8) : Bool := checksum payload == (bs.drop 16).take 16

/-- Decodes a payload. -/
def decodePayload (payload : List UInt8) : Except Error Payload :=
  match Read.payload payload with
  | .ok (p, _) => .ok p
  | .error stop => .error stop.error

/-- The snapshot that was written. -/
def decode (bs : List UInt8) : Except Error Snapshot := do
  let payload ← payloadBytes bs
  if !checksumFits bs payload then throw .checksumMismatch
  let p ← decodePayload payload
  p.snapshot

/-- The digest of the source text, if there was one. The hash of the payload is not looked at. -/
def sourceDigest (bs : List UInt8) : Except Error (Option (List UInt8)) := do
  let payload ← payloadBytes bs
  let p ← decodePayload payload
  pure p.digest

end SpeechGrammar.Cache
