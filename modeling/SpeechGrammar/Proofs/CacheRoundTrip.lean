import SpeechGrammar.Workspace
import SpeechGrammar.Proofs.CacheCodec
import SpeechGrammar.Proofs.CacheValidation
import SpeechGrammar.Proofs.Runs

/-!
# Cached grammars are restored as they were

The header leads to the payload and fits it (`payloadBytes_frame`, `checksumFits_frame`), so a state that can be stored
is decoded from its own bytes, with the digest of its source text (`decode_encode`, `sourceDigest_encode`). Every state
of a run can be stored as long as the ids last (**`Grammar.decode_encode_run`**). Bytes may say that no more than one id
is left. When it is used, the next id starts again at zero, and the reader refuses what the writer has written
(**`Grammar.decode_encode_wrapped`**).
-/

namespace SpeechGrammar

namespace Cache

/-! ## The header -/

section

variable {s : Snapshot} {payload : List UInt8} {source : Option String}

theorem numberAt_append {front field rest : List UInt8} {offset count : Nat} (hfront : front.length = offset)
    (hfield : field.length = count) : numberAt (front ++ (field ++ rest)) offset count = ofLittleEndian field := by
  rw [numberAt, List.drop_left' hfront, List.take_left' hfield]

/-- The fields of the header before the length of the payload. -/
def headerStart : List UInt8 :=
  magic ++ littleEndian 2 formatVersion ++ littleEndian 2 engineVersion ++ littleEndian 4 0

theorem length_magic : magic.length = 4 := rfl

theorem length_headerStart : headerStart.length = 12 := by
  simp only [headerStart, List.length_append, length_littleEndian, length_magic]

theorem frame_eq_start (payload : List UInt8) :
    frame payload = headerStart ++ (littleEndian 4 payload.length ++ (checksum payload ++ payload)) := by
  simp only [frame, header, headerStart, List.append_assoc]

theorem frame_eq_magic (payload : List UInt8) :
    ∃ rest, frame payload = magic ++ (littleEndian 2 formatVersion ++ rest) := by
  rw [frame_eq_start, headerStart]
  simp only [List.append_assoc]
  exact ⟨_, rfl⟩

theorem length_frame (payload : List UInt8) : (frame payload).length = headerSize + payload.length := by
  rw [frame, List.length_append, length_header]

/-- The length of the payload stands in the header. -/
theorem numberAt_frame (h : payload.length < 2 ^ 32) : numberAt (frame payload) 12 4 = payload.length := by
  rw [frame_eq_start, numberAt_append length_headerStart (length_littleEndian 4 _), ofLittleEndian_littleEndian h]

theorem drop_frame (payload : List UInt8) : (frame payload).drop headerSize = payload := by
  rw [frame, List.drop_left' (length_header payload)]

/-- The checksum stands at the end of the header. -/
theorem checksum_frame (payload : List UInt8) : ((frame payload).drop 16).take 16 = checksum payload := by
  have hstart : (headerStart ++ littleEndian 4 payload.length).length = 16 := by
    rw [List.length_append, length_littleEndian, length_headerStart]
  have hchecksum : (checksum payload).length = 16 := by simp [checksum, Blake3.length_hash]
  rw [frame_eq_start, ← List.append_assoc, List.drop_left' hstart, List.take_left' hchecksum]

/-- The bytes begin with a whole header, the magic bytes and the version that is read. -/
structure Headed (bs : List UInt8) : Prop where
  length : headerSize ≤ bs.length
  magic : bs.take 4 = Cache.magic
  version : numberAt bs 4 2 = formatVersion

theorem headed_frame (payload : List UInt8) : Headed (frame payload) where
  length := by
    rw [length_frame]
    omega
  magic := by
    obtain ⟨rest, hversion⟩ := frame_eq_magic payload
    rw [hversion, List.take_left' length_magic]
  version := by
    obtain ⟨rest, hversion⟩ := frame_eq_magic payload
    rw [hversion, numberAt_append length_magic (length_littleEndian 2 _), ofLittleEndian_littleEndian (by decide)]

/-- Behind such a header there are as many bytes of payload as it says, or else the bytes are refused. -/
theorem Headed.payloadBytes_eq {bs : List UInt8} (h : Headed bs) : payloadBytes bs =
    if bs.length < headerSize + numberAt bs 12 4 then
      .error (.lengthMismatch (numberAt bs 12 4) (bs.length - headerSize))
    else .ok ((bs.drop headerSize).take (numberAt bs 12 4)) := by
  rw [payloadBytes, if_neg (Nat.not_lt.mpr h.length), if_neg (not_not.mpr h.magic), if_neg (not_not.mpr h.version)]

/-- The payload is found behind its header. -/
theorem payloadBytes_frame (h : payload.length < 2 ^ 32) : payloadBytes (frame payload) = .ok payload := by
  rw [(headed_frame payload).payloadBytes_eq, numberAt_frame h, length_frame, if_neg (Nat.lt_irrefl _), drop_frame,
    List.take_length]

/-- The header has the checksum of its payload. -/
theorem checksumFits_frame (payload : List UInt8) : checksumFits (frame payload) payload = true := by
  rw [checksumFits, checksum_frame]
  exact beq_self_eq_true _

/-! ## States -/

/-- When bytes are decoded. -/
theorem decode_eq_ok_iff {bs : List UInt8} :
    decode bs = .ok s ↔
      ∃ payload p, payloadBytes bs = .ok payload ∧ checksumFits bs payload = true ∧ decodePayload payload = .ok p ∧
        p.snapshot = .ok s := by
  simp only [decode, bind, Except.bind]
  cases hb : payloadBytes bs with
  | error e => simp
  | ok payload =>
    cases hc : checksumFits bs payload with
    | false => simp [throw, throwThe, MonadExceptOf.throw, hc]
    | true =>
      cases hp : decodePayload payload with
      | error e => simp [hc, hp]
      | ok p => simp [hc, hp]

theorem snapshot_eq_ok_iff {p : Payload} : p.snapshot = .ok s ↔ p.fault? = none ∧ p.toSnapshot = s := by
  unfold Payload.snapshot
  cases p.fault? <;> simp

/-- The payload of a state is read back, also if it has a fault elsewhere than in a body. -/
theorem decodePayload_ofSnapshot (hbodies : ∀ e ∈ s.entries, e.rule.body.fault? = none)
    (h : (Write.payload (Payload.ofSnapshot s (source.map digestOf))).length < 2 ^ 32) :
    decodePayload (Write.payload (Payload.ofSnapshot s (source.map digestOf))) =
      .ok (Payload.ofSnapshot s (source.map digestOf)) := by
  have hdigest : ∀ d, source.map digestOf = some d → d.length = 32 := by
    intro d hd
    obtain ⟨text, -, rfl⟩ := Option.map_eq_some_iff.mp hd
    exact Blake3.length_hash _
  have hmemory := Nat.le_trans (Nat.le_of_lt h) (show 2 ^ 32 ≤ maxMemory by decide)
  have hread := reads_payload (p := .ofSnapshot s (source.map digestOf)) hbodies rfl hdigest hmemory []
  rw [List.append_nil] at hread
  rw [decodePayload, hread]

/-- **A state that can be stored is restored from its bytes.** -/
theorem decode_encode (hs : Storable s)
    (h : (Write.payload (Payload.ofSnapshot s (source.map digestOf))).length < 2 ^ 32) :
    decode (encode s source) = .ok s :=
  decode_eq_ok_iff.mpr ⟨_, _, payloadBytes_frame h, checksumFits_frame _, decodePayload_ofSnapshot hs.bodies h,
    snapshot_eq_ok_iff.mpr ⟨Payload.fault?_ofSnapshot hs, Payload.toSnapshot_ofSnapshot hs.toConsistent⟩⟩

/-- **The digest of the source text is found in the bytes.** -/
theorem sourceDigest_encode (hs : Storable s)
    (h : (Write.payload (Payload.ofSnapshot s (source.map digestOf))).length < 2 ^ 32) :
    sourceDigest (encode s source) = .ok (source.map digestOf) := by
  simp only [sourceDigest, encode, payloadBytes_frame h, decodePayload_ofSnapshot hs.bodies h, bind, Except.bind]
  rfl

/-- A state whose payload has a fault is refused. -/
theorem decode_encode_of_fault (hbodies : ∀ e ∈ s.entries, e.rule.body.fault? = none)
    (h : (Write.payload (Payload.ofSnapshot s (source.map digestOf))).length < 2 ^ 32) {f : PayloadFault}
    (hf : (Payload.ofSnapshot s (source.map digestOf)).fault? = some f) :
    decode (encode s source) = .error (.invalid f) := by
  simp only [decode, encode, payloadBytes_frame h, checksumFits_frame, decodePayload_ofSnapshot hbodies h, bind,
    Except.bind, Payload.snapshot, hf]
  rfl

/-- What has been restored can be stored again. -/
theorem storable_of_decode {bs : List UInt8} (h : decode bs = .ok s) : Storable s := by
  obtain ⟨payload, p, -, -, -, hp⟩ := decode_eq_ok_iff.mp h
  obtain ⟨hfault, rfl⟩ := snapshot_eq_ok_iff.mp hp
  exact Payload.storable_toSnapshot hfault

/-- A state with one rule. -/
def lone (rule : Rule) (id nextId generation : UInt64) : Snapshot :=
  ⟨"switch", none, [⟨rule, id, rule.isPublic⟩], none, nextId, generation⟩

/-- Any rule with a name and a faultless body is restored from bytes, and so are any counters above its id. -/
theorem decode_lone {rule : Rule} {id nextId generation : UInt64} (hname : rule.name ≠ "")
    (hbody : rule.body.fault? = none) (hid : id < nextId)
    (h : (Write.payload (.ofSnapshot (lone rule id nextId generation) none)).length < 2 ^ 32) :
    decode (encode (lone rule id nextId generation) none) = .ok (lone rule id nextId generation) := by
  have hstorable : Storable (lone rule id nextId generation) :=
    { names := List.nodup_singleton _
      ascending := List.pairwise_singleton _ _
      below := List.forall_mem_singleton.mpr hid
      activatable := List.forall_mem_singleton.mpr fun hpublic => hpublic
      root := nofun
      named := show "switch" ≠ "" by decide
      rulesNamed := List.forall_mem_singleton.mpr hname
      bodies := List.forall_mem_singleton.mpr hbody }
  exact @decode_encode _ none hstorable h

end

end Cache

namespace Grammar

open Cache

section

variable {s : Snapshot} {options : SearchOptions} {linked : Bool} {os : List Operation} {source : Option String}

/-! ## Runs -/

theorem ruleFault?_eq_none_iff {rule : Rule} :
    ruleFault? rule = none ↔ Rule.isName rule.name = true ∧ rule.body.fault? = none := by
  unfold ruleFault?
  cases Rule.isName rule.name <;> simp

/-- A rule that can be added can be stored. -/
theorem storable_of_ruleFault? {rule : Rule} (h : ruleFault? rule = none) :
    rule.name ≠ "" ∧ rule.body.fault? = none := by
  obtain ⟨hname, hbody⟩ := ruleFault?_eq_none_iff.mp h
  refine ⟨?_, hbody⟩
  rintro hempty
  rw [hempty] at hname
  exact absurd hname (by decide)

/-- Every state of a run can be stored, if its grammar has a name and the ids last. -/
theorem storable_run (start : (∃ name locale, s = .empty name locale) ∨ ∃ bytes, Cache.decode bytes = .ok s)
    (room : s.nextId.toNat + ((ofSnapshot s options linked).additions os).length < 2 ^ 64)
    (hname : ((ofSnapshot s options linked).run os).committed.name ≠ "") :
    Storable ((ofSnapshot s options linked).run os).committed := by
  have hstart : s.Consistent ∧ ∀ e ∈ s.entries, e.rule.name ≠ "" ∧ e.rule.body.fault? = none := by
    rcases start with ⟨name, locale, rfl⟩ | ⟨bytes, hbytes⟩
    · exact ⟨Snapshot.empty_consistent name locale, nofun⟩
    · have hs := storable_of_decode hbytes
      exact ⟨hs.toConsistent, fun e he => ⟨hs.rulesNamed e he, hs.bodies e he⟩⟩
  have hlogged : (ofSnapshot s options linked).committed.Logged s.entries := hstart.1.logged
  have hrun := logged_run hlogged room
  have hrules := hrun.forall_rule (P := fun rule => rule.name ≠ "" ∧ rule.body.fault? = none)
    (List.forall_mem_append.mpr
      ⟨hstart.2, fun e he => storable_of_ruleFault? (checked_ofSnapshot.additions e he)⟩)
  exact ⟨hrun.consistent, hname, fun e he => (hrules e he).1, fun e he => (hrules e he).2⟩

/-- **Every state that a run comes to is restored from its bytes**, with the digest of the source text, whether the run
starts with an empty grammar or with one that was restored itself, and as long as the ids last. -/
theorem decode_encode_run (start : (∃ name locale, s = .empty name locale) ∨ ∃ bytes, Cache.decode bytes = .ok s)
    (room : s.nextId.toNat + ((ofSnapshot s options linked).additions os).length < 2 ^ 64)
    (hname : ((ofSnapshot s options linked).run os).committed.name ≠ "")
    (hlength : (Write.payload (.ofSnapshot ((ofSnapshot s options linked).run os).committed
      (source.map digestOf))).length < 2 ^ 32) :
    Cache.decode (((ofSnapshot s options linked).run os).encode source) =
        .ok ((ofSnapshot s options linked).run os).committed ∧
      sourceDigest (((ofSnapshot s options linked).run os).encode source) = .ok (source.map digestOf) := by
  have hs := storable_run start room hname
  exact ⟨decode_encode hs hlength, sourceDigest_encode hs hlength⟩

end

theorem switchRun_decode_encode :
    Cache.decode ((switch.run switchRun).encode (some "#JSGF V1.0; grammar switch;")) =
        .ok (switch.run switchRun).committed ∧
      sourceDigest ((switch.run switchRun).encode (some "#JSGF V1.0; grammar switch;")) =
        .ok (some (digestOf "#JSGF V1.0; grammar switch;")) := by
  have room : (Snapshot.empty "switch" none).nextId.toNat + (switch.additions switchRun).length < 2 ^ 64 := by
    decide +kernel
  have hname : (switch.run switchRun).committed.name ≠ "" := by decide +kernel
  have hlength : (Write.payload (.ofSnapshot (switch.run switchRun).committed
      (Option.map digestOf (some "#JSGF V1.0; grammar switch;")))).length < 2 ^ 32 := by decide +kernel
  exact @decode_encode_run (.empty "switch" none) default false switchRun _ (.inl ⟨"switch", none, rfl⟩) room hname
    hlength

/-! ## When the ids are used up -/

/-- A rule that is there. -/
def onRule : Rule := ⟨"on", true, .token "on"⟩

/-- A rule that is added. -/
def offRule : Rule := ⟨"off", true, .token "off"⟩

/-- After this number a counter starts again at zero. -/
def lastCount : UInt64 := .ofNat (2 ^ 64 - 1)

/-- A state that has one id left. -/
def spent : Snapshot := Cache.lone onRule 0 lastCount 1

/-- What becomes of it when the id is used. -/
def worn : Grammar := (ofSnapshot spent default false).run [.addRule offRule, .commit]

/-- Its state, whose next id has started again. -/
def wrapped : Snapshot := ⟨"switch", none, [⟨onRule, 0, true⟩, ⟨offRule, lastCount, true⟩], none, 0, 2⟩

theorem worn_committed : worn.committed = wrapped := rfl

/-- **A state whose next id has started again at zero is not restored.** The state before it was restored from bytes. -/
theorem decode_encode_wrapped :
    Cache.decode (Cache.encode spent none) = .ok spent ∧ worn.committed.nextId = 0 ∧ worn.committed.name ≠ "" ∧
      (Write.payload (.ofSnapshot worn.committed none)).length < 2 ^ 32 ∧
      Cache.decode (worn.encode none) = .error (.invalid (.idNotBelowNext 0 "on" 0)) := by
  have hbodies : ∀ e ∈ wrapped.entries, e.rule.body.fault? = none :=
    List.forall_mem_cons.mpr ⟨rfl, List.forall_mem_singleton.mpr rfl⟩
  have hlength : (Write.payload (.ofSnapshot wrapped none)).length < 2 ^ 32 := by decide
  rw [Grammar.encode, worn_committed]
  exact ⟨decode_lone (by decide) rfl (by decide) (by decide), rfl, by decide, hlength,
    @decode_encode_of_fault wrapped none hbodies hlength _ rfl⟩

end Grammar

end SpeechGrammar
