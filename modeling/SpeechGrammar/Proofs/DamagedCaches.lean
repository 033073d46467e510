import SpeechGrammar.Proofs.CacheRoundTrip

/-!
# Damaged caches

What a reader says of the bytes of a state that were cut off or changed on their way (**`decode_damaged`**). Every check of
the reader looks at one slice of the bytes, and a slice depends only on the bytes at its places. So a change in one field
of the header leaves the checks before it as they were (`Headed.of_agree`), and the check of this field fails.

Whether a change of the payload, or of its length, is found out is up to the hash. All that is asked of it is that it
tells the payload that is read from the one that was written (`TellsApart`).
-/

namespace SpeechGrammar.Cache

/-! ## Slices of bytes -/

section

variable {bs bs' : List UInt8} {offset count i : Nat}

/-- A slice depends only on the bytes at its places. -/
theorem slice_congr (h : ∀ j, offset ≤ j → j < offset + count → bs'[j]? = bs[j]?) :
    (bs'.drop offset).take count = (bs.drop offset).take count := by
  refine List.ext_getElem? fun j => ?_
  rw [List.getElem?_take, List.getElem?_take]
  split
  · rw [List.getElem?_drop, List.getElem?_drop]
    exact h (offset + j) (Nat.le_add_right _ _) (by omega)
  · rfl

/-- A slice with another byte at one of its places is another one. -/
theorem slice_ne (hle : offset ≤ i) (hlt : i < offset + count) (h : bs'[i]? ≠ bs[i]?) :
    (bs'.drop offset).take count ≠ (bs.drop offset).take count := by
  intro heq
  have hplace := congrArg (fun slice => slice[i - offset]?) heq
  simp only [List.getElem?_take, List.getElem?_drop, show i - offset < count by omega, ↓reduceIte,
    Nat.add_sub_cancel' hle] at hplace
  exact h hplace

theorem numberAt_congr (h : ∀ j, offset ≤ j → j < offset + count → bs'[j]? = bs[j]?) :
    numberAt bs' offset count = numberAt bs offset count := congrArg ofLittleEndian (slice_congr h)

/-- Bytes of one number are no bytes of another. -/
theorem ofLittleEndian_injective : ∀ {bs bs' : List UInt8}, bs.length = bs'.length →
    ofLittleEndian bs = ofLittleEndian bs' → bs = bs'
  | [], [], _, _ => rfl
  | b :: bs, b' :: bs', hlength, h => by
    have hb := b.toNat_lt
    have hb' := b'.toNat_lt
    simp only [ofLittleEndian] at h
    obtain rfl : b = b' := UInt8.toNat_inj.mp (by omega)
    rw [ofLittleEndian_injective (Nat.succ.inj hlength) (by omega)]

theorem numberAt_ne (hlength : bs'.length = bs.length) (hle : offset ≤ i) (hlt : i < offset + count)
    (h : bs'[i]? ≠ bs[i]?) : numberAt bs' offset count ≠ numberAt bs offset count := by
  refine fun heq => slice_ne hle hlt h (ofLittleEndian_injective ?_ heq)
  simp only [List.length_take, List.length_drop, hlength]

end

/-! ## What the checks say -/

section

variable {bs bs' payload p : List UInt8} {e : Error}

/-- The magic bytes and the version are in the first six bytes. -/
theorem Headed.of_agree (h : Headed bs) (hlength : headerSize ≤ bs'.length) (hagree : ∀ j < 6, bs'[j]? = bs[j]?) :
    Headed bs' where
  length := hlength
  magic := (@slice_congr bs bs' 0 4 fun j _ hj => hagree j (by omega)).trans h.magic
  version := (numberAt_congr fun j _ hj => hagree j (by omega)).trans h.version

theorem decode_of_error (h : payloadBytes bs = .error e) : decode bs = .error e := by
  rw [decode, h]
  rfl

theorem sourceDigest_of_error (h : payloadBytes bs = .error e) : sourceDigest bs = .error e := by
  rw [sourceDigest, h]
  rfl

/-- A payload that is found is decoded if its checksum is the one in the header. -/
theorem decode_of_ok (h : payloadBytes bs = .ok p) : decode bs =
    if checksumFits bs p then decodePayload p >>= Payload.snapshot else .error .checksumMismatch := by
  simp only [decode, h, bind, Except.bind]
  cases checksumFits bs p <;> rfl

theorem checksumFits_iff : checksumFits bs p = true ↔ checksum p = (bs.drop 16).take 16 := beq_iff_eq

theorem decode_of_mismatch (h : payloadBytes bs = .ok p) (hc : checksum p ≠ (bs.drop 16).take 16) :
    decode bs = .error .checksumMismatch := by
  rw [decode_of_ok h, if_neg (checksumFits_iff.not.mpr hc)]

/-- The hash of the payload that is read is not that of the one that was written, if the payloads differ. -/
def TellsApart (bs payload : List UInt8) : Prop :=
  ∀ p, payloadBytes bs = .ok p → p ≠ payload → checksum p ≠ checksum payload

/-- Another payload under the old checksum is refused. -/
theorem TellsApart.decode_eq (h : TellsApart bs payload) (hp : payloadBytes bs = .ok p) (hne : p ≠ payload)
    (hc : (bs.drop 16).take 16 = checksum payload) : decode bs = .error .checksumMismatch :=
  decode_of_mismatch hp (by rw [hc]; exact h p hp hne)

end

/-! ## Bytes that are cut off -/

section

variable {payload : List UInt8} {i n : Nat} {byte : UInt8}

/-- What is left when the end of the bytes is missing is too short, for a header or for the payload. -/
theorem payloadBytes_take (room : payload.length < 2 ^ 32) (hn : n < (frame payload).length) :
    payloadBytes ((frame payload).take n) = .error (if n < headerSize then .lengthMismatch headerSize n
      else .lengthMismatch payload.length (n - headerSize)) := by
  have hlength : ((frame payload).take n).length = n := List.length_take_of_le (Nat.le_of_lt hn)
  have hagree : ∀ j < n, ((frame payload).take n)[j]? = (frame payload)[j]? :=
    fun j hj => List.getElem?_take_of_lt hj
  rw [length_frame] at hn
  by_cases hshort : n < headerSize
  · rw [payloadBytes, hlength, if_pos hshort, if_pos hshort]
  · have hheader : 16 ≤ n := Nat.le_trans (by decide) (Nat.not_lt.mp hshort)
    have hheaded : Headed ((frame payload).take n) :=
      (headed_frame payload).of_agree (by rw [hlength]; exact Nat.not_lt.mp hshort) fun j hj => hagree j (by omega)
    have hcount : numberAt ((frame payload).take n) 12 4 = payload.length :=
      (numberAt_congr fun j _ hj => hagree j (by omega)).trans (numberAt_frame room)
    rw [hheaded.payloadBytes_eq, hcount, hlength, if_pos hn, if_neg hshort]

/-! ## A byte that is changed -/

theorem decode_set_magic (hne : ((frame payload).set i byte)[i]? ≠ (frame payload)[i]?) (hlt : i < 4) :
    decode ((frame payload).set i byte) = .error .badMagic := by
  have hlength := (headed_frame payload).length
  have hmagic : ((frame payload).set i byte).take 4 ≠ magic := by
    rw [← (headed_frame payload).magic]
    exact slice_ne (Nat.zero_le i) (by omega) hne
  refine decode_of_error ?_
  rw [payloadBytes, List.length_set, if_neg (Nat.not_lt.mpr hlength), if_pos hmagic]

theorem decode_set_version (hne : ((frame payload).set i byte)[i]? ≠ (frame payload)[i]?) (hle : 4 ≤ i) (hlt : i < 6) :
    ∃ version ≠ formatVersion, decode ((frame payload).set i byte) = .error (.incompatibleVersion version) := by
  have hlength := (headed_frame payload).length
  have hmagic : ((frame payload).set i byte).take 4 = magic :=
    (@slice_congr _ _ 0 4 fun j _ hj => List.getElem?_set_ne (by omega)).trans (headed_frame payload).magic
  have hversion : numberAt ((frame payload).set i byte) 4 2 ≠ formatVersion := by
    rw [← (headed_frame payload).version]
    exact numberAt_ne List.length_set hle hlt hne
  refine ⟨_, hversion, decode_of_error ?_⟩
  rw [payloadBytes, List.length_set, if_neg (Nat.not_lt.mpr hlength), if_neg (not_not.mpr hmagic), if_pos hversion]

/-- Behind the version a change leaves the bytes with the right header. -/
theorem headed_set (hle : 6 ≤ i) : Headed ((frame payload).set i byte) :=
  (headed_frame payload).of_agree (by rw [List.length_set]; exact (headed_frame payload).length) fun j hj =>
    List.getElem?_set_ne (by omega)

/-- Before the checksum or behind it a change leaves it as it was. -/
theorem checksum_set (h : i < 16 ∨ 32 ≤ i) :
    (((frame payload).set i byte).drop 16).take 16 = checksum payload :=
  (slice_congr fun j hj hlt => List.getElem?_set_ne (by omega)).trans (checksum_frame payload)

/-- Behind the length a change leaves as many bytes of payload. -/
theorem payloadBytes_set (room : payload.length < 2 ^ 32) (hle : 16 ≤ i) :
    payloadBytes ((frame payload).set i byte) =
      .ok ((((frame payload).set i byte).drop headerSize).take payload.length) := by
  have hcount : numberAt ((frame payload).set i byte) 12 4 = payload.length :=
    (numberAt_congr fun j _ hj => List.getElem?_set_ne (by omega)).trans (numberAt_frame room)
  rw [(headed_set (by omega)).payloadBytes_eq, hcount, List.length_set, length_frame, if_neg (Nat.lt_irrefl _)]

/-- With another length there are not enough bytes, or else other ones are hashed. -/
theorem decode_set_count (room : payload.length < 2 ^ 32)
    (hne : ((frame payload).set i byte)[i]? ≠ (frame payload)[i]?) (hle : 12 ≤ i) (hlt : i < 16)
    (hapart : TellsApart ((frame payload).set i byte) payload) :
    decode ((frame payload).set i byte) = .error .checksumMismatch ∨
      ∃ expected actual, decode ((frame payload).set i byte) = .error (.lengthMismatch expected actual) := by
  have hcount : numberAt ((frame payload).set i byte) 12 4 ≠ payload.length := by
    rw [← numberAt_frame room]
    exact numberAt_ne List.length_set hle (by omega) hne
  have hheaded : Headed ((frame payload).set i byte) := headed_set (by omega)
  have hpayload := hheaded.payloadBytes_eq
  split at hpayload
  · exact .inr ⟨_, _, decode_of_error hpayload⟩
  · rename_i henough
    refine .inl (hapart.decode_eq hpayload (fun heq => hcount ?_) (checksum_set (.inl hlt)))
    rw [← congrArg List.length heq, List.length_take, List.length_drop]
    omega

theorem decode_set_checksum (room : payload.length < 2 ^ 32)
    (hne : ((frame payload).set i byte)[i]? ≠ (frame payload)[i]?) (hle : 16 ≤ i) (hlt : i < 32) :
    decode ((frame payload).set i byte) = .error .checksumMismatch := by
  have hsame : ((frame payload).set i byte).drop headerSize = payload := by
    rw [List.drop_set_of_lt (show i < headerSize from hlt), drop_frame]
  have hpayload : payloadBytes ((frame payload).set i byte) = .ok payload := by
    rw [payloadBytes_set room hle, hsame, List.take_length]
  refine decode_of_mismatch hpayload ?_
  rw [← checksum_frame payload]
  exact (slice_ne hle (by omega) hne).symm

theorem decode_set_payload (room : payload.length < 2 ^ 32) (hi : i < (frame payload).length)
    (hne : ((frame payload).set i byte)[i]? ≠ (frame payload)[i]?) (hle : 32 ≤ i)
    (hapart : TellsApart ((frame payload).set i byte) payload) :
    decode ((frame payload).set i byte) = .error .checksumMismatch := by
  have hwhole : ((frame payload).drop headerSize).take payload.length = payload := by
    rw [drop_frame, List.take_length]
  rw [length_frame] at hi
  refine hapart.decode_eq (payloadBytes_set room (by omega)) (fun heq => ?_) (checksum_set (.inr hle))
  exact slice_ne hle hi hne (heq.trans hwhole.symm)

/-! ## Bytes that are not looked at -/

/-- What stands in the unused bytes of the header and behind the payload makes no difference. -/
theorem decode_of_agree (room : payload.length < 2 ^ 32) {bs : List UInt8} (hlength : (frame payload).length ≤ bs.length)
    (hagree : ∀ j < (frame payload).length, j < 6 ∨ 12 ≤ j → bs[j]? = (frame payload)[j]?) :
    decode bs = decode (frame payload) := by
  rw [length_frame] at hlength hagree
  have hheader : headerSize = 32 := rfl
  have hheaded : Headed bs := (headed_frame payload).of_agree (by omega) fun j hj => hagree j (by omega) (.inl hj)
  have hcount : numberAt bs 12 4 = payload.length :=
    (numberAt_congr fun j hle hj => hagree j (by omega) (.inr hle)).trans (numberAt_frame room)
  have hpayload : (bs.drop headerSize).take payload.length = payload := by
    rw [slice_congr fun j hle hj => hagree j hj (.inr (by omega)), drop_frame, List.take_length]
  have hchecksum : (bs.drop 16).take 16 = ((frame payload).drop 16).take 16 :=
    slice_congr fun j hle hj => hagree j (by omega) (.inr (by omega))
  have hbytes : payloadBytes bs = .ok payload := by
    rw [hheaded.payloadBytes_eq, hcount, if_neg (by omega), hpayload]
  rw [decode_of_ok hbytes, decode_of_ok (payloadBytes_frame room), checksumFits, checksumFits, hchecksum]

end

/-! ## Damage -/

/-- **Damage to the bytes of a state is detected.** Whatever is left when the end is missing is refused for its length. A
byte that is changed before the unused bytes of the header or behind them is found out: the magic bytes, the version,
the length, the checksum and the payload each by its own check, the last ones if the hash tells the payload that is read
from the one that was written. The unused bytes may be anything, and so may what follows. -/
theorem decode_damaged {s : Snapshot} {source : Option String} (hs : decode (encode s source) = .ok s)
    (room : (Write.payload (Payload.ofSnapshot s (source.map digestOf))).length < 2 ^ 32) :
    (∀ n < (encode s source).length, ∃ expected actual,
      decode ((encode s source).take n) = .error (.lengthMismatch expected actual) ∧
        sourceDigest ((encode s source).take n) = .error (.lengthMismatch expected actual)) ∧
      (∀ i byte, i < (encode s source).length → (encode s source)[i]? ≠ some byte →
        TellsApart ((encode s source).set i byte) (Write.payload (Payload.ofSnapshot s (source.map digestOf))) →
        (i < 4 → decode ((encode s source).set i byte) = .error .badMagic) ∧
        (4 ≤ i → i < 6 → ∃ version ≠ formatVersion,
          decode ((encode s source).set i byte) = .error (.incompatibleVersion version)) ∧
        (12 ≤ i → i < 16 → decode ((encode s source).set i byte) = .error .checksumMismatch ∨
          ∃ expected actual, decode ((encode s source).set i byte) = .error (.lengthMismatch expected actual)) ∧
        (16 ≤ i → decode ((encode s source).set i byte) = .error .checksumMismatch)) ∧
      ∀ bs, (encode s source).length ≤ bs.length →
        (∀ i < (encode s source).length, i < 6 ∨ 12 ≤ i → bs[i]? = (encode s source)[i]?) → decode bs = .ok s := by
  refine ⟨fun n hn => ?_, fun i byte hi hb hapart => ?_, fun bs hlength hagree => ?_⟩
  · have hcut := payloadBytes_take room hn
    split at hcut <;> exact ⟨_, _, decode_of_error hcut, sourceDigest_of_error hcut⟩
  · have hne : (encode s source |>.set i byte)[i]? ≠ (encode s source)[i]? := by
      rw [List.getElem?_set_self hi]
      exact hb.symm
    refine ⟨decode_set_magic hne, decode_set_version hne, fun hle hlt => decode_set_count room hne hle hlt hapart,
      fun hle => ?_⟩
    by_cases hlt : i < 32
    · exact decode_set_checksum room hne hle hlt
    · exact decode_set_payload room hi hne (Nat.not_lt.mp hlt) hapart
  · exact (decode_of_agree room hlength hagree).trans hs

/-- A state with one rule, whose payload has 24 bytes. -/
def spare : Snapshot := lone ⟨"on", true, .token "on"⟩ 0 1 1

/-- Half of its bytes, its bytes with another one in the payload, and its bytes with other flags and one more. -/
theorem spare_decode_damaged :
    decode (encode spare none) = .ok spare ∧
      (∃ expected actual, decode ((encode spare none).take 24) = .error (.lengthMismatch expected actual)) ∧
      decode ((encode spare none).set 40 7) = .error .checksumMismatch ∧
      decode ((encode spare none).set 8 1 ++ [0]) = .ok spare := by
  have room : (Write.payload (Payload.ofSnapshot spare none)).length < 2 ^ 32 := by decide
  have hs : decode (encode spare none) = .ok spare := decode_lone (by decide) rfl (by decide) room
  have hlength : (encode spare none).length = 56 := by decide +kernel
  have hchanged : (encode spare none)[40]? ≠ some 7 := by decide +kernel
  have hapart : TellsApart ((encode spare none).set 40 7) (Write.payload (Payload.ofSnapshot spare none)) := by
    intro p hp _
    obtain rfl := Except.ok.inj ((payloadBytes_set room (by decide)).symm.trans hp)
    decide +kernel
  obtain ⟨hcut, hset, hsame⟩ := @decode_damaged spare none hs room
  obtain ⟨expected, actual, hshort, -⟩ := hcut 24 (by omega)
  refine ⟨hs, ⟨expected, actual, hshort⟩, (hset 40 7 (by omega) hchanged hapart).2.2.2 (by decide), hsame _ ?_ ?_⟩
  · rw [List.length_append, List.length_set]
    omega
  · intro i hi hplace
    rw [List.getElem?_append_left (by rw [List.length_set]; exact hi), List.getElem?_set_ne (by omega)]

end SpeechGrammar.Cache
