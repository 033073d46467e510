import SpeechGrammar.Proofs.AnnouncedLengths
import SpeechGrammar.Proofs.DamagedCaches

/-!
# The two readers of cached grammars

One reader gives the state that was cached, and one gives only the digest of its source text. Each finds the payload in
its own way: the first compares the number of the bytes with the end of the payload and then takes a slice, and the
second takes a slice that may not be there (`checkedDecode`, `checkedSourceDigest`). Neither looks past the end of the
bytes, whatever they are (`checkedDecode_eq`, `checkedSourceDigest_eq`). What the second refuses the first refuses as
well, with the same error, unless the checksum is wrong. And what the second takes, the first takes as well, unless the
checksum is wrong or the payload is no possible state.

Both return something for all bytes, except where the payload announces a text that is longer than all memory: then the
program is ended (**`readers_agree`**). The reader of digests does not look at the checksum, so that bytes which nobody
has written are enough for this (`readers_aborted`).
-/

namespace SpeechGrammar.Cache

/-! ## Looking at places that are there -/

/-- A reader that gives nothing if the program is ended: it looks past the end of the bytes, or a number does not fit
into 64 bits, or there is no memory. -/
abbrev Access := ExceptT Error Option

/-- What a reader gives, if it returns at all. -/
def returned {α : Type} : Except Error α → Option (Except Error α)
  | .error .aborted => none
  | result => some result

/-- The bytes from one place up to another, if these places are there. -/
def slice? (bs : List UInt8) (start stop : Nat) : Option (List UInt8) :=
  if start ≤ stop ∧ stop ≤ bs.length then some ((bs.drop start).take (stop - start)) else none

/-- The sum of two numbers, if it fits into 64 bits. -/
def sum? (m n : Nat) : Option Nat := if m + n < 2 ^ 64 then some (m + n) else none

/-- The difference of two numbers, if it is not negative. -/
def difference? (m n : Nat) : Option Nat := if n ≤ m then some (m - n) else none

/-- What is looked at of a header. -/
structure Fields where
  version : Nat
  /-- The length of the payload. -/
  count : Nat
  checksum : List UInt8

/-- The fields of a header with the magic bytes. -/
def fields (bs : List UInt8) : Access Fields := do
  if bs.length < headerSize then throw (.lengthMismatch headerSize bs.length)
  let start ← slice? bs 0 4
  if start ≠ magic then throw .badMagic
  let version ← slice? bs 4 6
  let count ← slice? bs 12 16
  let checksum ← slice? bs 16 32
  pure ⟨ofLittleEndian version, ofLittleEndian count, checksum⟩

/-- What the payload says, if there is memory for all texts that it announces. -/
def checkedPayload (payload : List UInt8) : Access Payload :=
  match Read.payload payload with
  | .ok (p, _) => pure p
  | .error (.fault e) => throw (.decode e)
  | .error .abort => liftM (none : Option Payload)

/-- The state that was cached. The end of the payload is compared before the payload is taken. -/
def checkedDecode (bs : List UInt8) : Access Snapshot := do
  let header ← fields bs
  if header.version ≠ formatVersion then throw (.incompatibleVersion header.version)
  let stop ← sum? headerSize header.count
  if bs.length < stop then
    let left ← difference? bs.length headerSize
    throw (.lengthMismatch header.count left)
  let payload ← slice? bs headerSize stop
  let found ← slice? (Blake3.hash payload) 0 16
  if found ≠ header.checksum then throw .checksumMismatch
  let p ← checkedPayload payload
  ofExcept p.snapshot

/-- The digest of the source text. The payload is taken if it is there. -/
def checkedSourceDigest (bs : List UInt8) : Access (Option (List UInt8)) := do
  let header ← fields bs
  if header.version ≠ formatVersion then throw (.incompatibleVersion header.version)
  let stop ← sum? headerSize header.count
  let left ← difference? bs.length headerSize
  match slice? bs headerSize stop with
  | none => throw (.lengthMismatch header.count left)
  | some payload =>
    let p ← checkedPayload payload
    pure p.digest

section

variable {α β : Type} {bs payload : List UInt8} {start stop m n : Nat} {e : Error}

/-! ## What the caller is told -/

theorem returned_of_ne {result : Except Error α} (h : result ≠ .error .aborted) : returned result = some result := by
  unfold returned
  split
  · exact absurd rfl h
  · rfl

/-- What both readers may find wrong: the first bytes, the version, that there are fewer bytes than expected, or the
form of the payload. -/
inductive Unreadable : Error → Prop
  | badMagic : Unreadable .badMagic
  | incompatibleVersion {version : Nat} : version ≠ formatVersion → Unreadable (.incompatibleVersion version)
  | lengthMismatch {expected actual : Nat} : actual < expected → Unreadable (.lengthMismatch expected actual)
  | decode (e : DecodeError) : Unreadable (.decode e)

theorem unreadable_of_payloadBytes (h : payloadBytes bs = .error e) : Unreadable e := by
  unfold payloadBytes at h
  split at h
  · cases h
    exact .lengthMismatch ‹_›
  · split at h
    · cases h
      exact .badMagic
    · split at h
      · cases h
        exact .incompatibleVersion ‹_›
      · split at h
        · cases h
          exact .lengthMismatch (by omega)
        · cases h

theorem Unreadable.ne_aborted (h : Unreadable e) : e ≠ .aborted := by
  rintro rfl
  cases h

/-- What cannot be read is told to the caller. -/
theorem Unreadable.returned_eq (h : Unreadable e) : returned (.error e : Except Error α) = some (.error e) :=
  returned_of_ne fun he => h.ne_aborted (Except.error.inj he)

/-! ## What the readers look at -/

theorem sourceDigest_of_ok (h : payloadBytes bs = .ok payload) :
    sourceDigest bs = decodePayload payload >>= fun p => pure p.digest := by
  rw [sourceDigest, h]
  rfl

theorem slice?_of_le (h : start ≤ stop) (h' : stop ≤ bs.length) :
    slice? bs start stop = some ((bs.drop start).take (stop - start)) := if_pos ⟨h, h'⟩

theorem slice?_of_lt (h : bs.length < stop) : slice? bs start stop = none :=
  if_neg fun h' => Nat.not_le.mpr h h'.2

theorem difference?_of_le (h : n ≤ m) : difference? m n = some (m - n) := if_pos h

/-- The length of a payload has four bytes, so its end has a place. -/
theorem sum?_numberAt (bs : List UInt8) (offset : Nat) :
    sum? headerSize (numberAt bs offset 4) = some (headerSize + numberAt bs offset 4) := by
  have hlength : ((bs.drop offset).take 4).length ≤ 4 := List.length_take_le 4 _
  have hlt : numberAt bs offset 4 < 256 ^ 4 :=
    Nat.lt_of_lt_of_le (ofLittleEndian_lt _) (Nat.pow_le_pow_right (by decide) hlength)
  refine if_pos ?_
  rw [headerSize]
  omega

theorem lift_some (a : α) : (liftM (some a) : Access α) = pure a := rfl

theorem throw_bind (e : Error) (k : α → Access β) : (throw e : Access α) >>= k = throw e := rfl

theorem run_throw (e : Error) : (throw e : Access α).run = some (.error e) := rfl

theorem run_ofExcept (x : Except Error α) : (ofExcept x : Access α).run = some x := by
  cases x <;> rfl

/-- **The payload is decoded, or the program is ended.** -/
theorem run_checkedPayload (payload : List UInt8) :
    (checkedPayload payload).run = returned (decodePayload payload) := by
  unfold checkedPayload decodePayload
  cases Read.payload payload with
  | ok result => rfl
  | error stop =>
    cases stop with
    | fault e => rfl
    | abort => rfl

theorem run_checkedPayload_bind {k : Payload → Access β} {f : Payload → Except Error β}
    (h : ∀ p, (k p).run = returned (f p)) :
    (checkedPayload payload >>= k).run = returned (decodePayload payload >>= f) := by
  rw [ExceptT.run_bind, run_checkedPayload]
  cases hdecode : decodePayload payload with
  | ok p => exact h p
  | error e => cases e <;> rfl

theorem run_snapshot (p : Payload) : (ofExcept p.snapshot : Access Snapshot).run = returned p.snapshot := by
  rw [run_ofExcept, returned_of_ne]
  unfold Payload.snapshot
  split <;> nofun

theorem fields_of_lt (h : bs.length < headerSize) : fields bs = throw (.lengthMismatch headerSize bs.length) := by
  rw [fields, if_pos h, throw_bind]

theorem fields_of_le (h : headerSize ≤ bs.length) : fields bs =
    if bs.take 4 ≠ magic then throw .badMagic
    else pure ⟨numberAt bs 4 2, numberAt bs 12 4, (bs.drop 16).take 16⟩ := by
  have hle : 32 ≤ bs.length := h
  have hstart : slice? bs 0 4 = some (bs.take 4) := slice?_of_le (by decide) (by omega)
  have hversion : slice? bs 4 6 = some ((bs.drop 4).take 2) := slice?_of_le (by decide) (by omega)
  have hcount : slice? bs 12 16 = some ((bs.drop 12).take 4) := slice?_of_le (by decide) (by omega)
  have hchecksum : slice? bs 16 32 = some ((bs.drop 16).take 16) := slice?_of_le (by decide) hle
  simp only [fields, if_neg (Nat.not_lt.mpr h), hstart, hversion, hcount, hchecksum, lift_some, pure_bind, throw_bind]
  rfl

/-- Before the payload is looked at, both readers do the same: the bytes are refused for their header or for its
version, or else the header is the right one. -/
theorem headed_or_refused (bs : List UInt8) :
    (Headed bs ∧ fields bs = pure ⟨formatVersion, numberAt bs 12 4, (bs.drop 16).take 16⟩) ∨
      ∃ e, payloadBytes bs = .error e ∧ ∀ {α : Type} (next : Fields → Access α), (do
        let header ← fields bs
        if header.version ≠ formatVersion then throw (.incompatibleVersion header.version)
        else next header : Access α) = throw e := by
  by_cases hlength : bs.length < headerSize
  · exact .inr ⟨_, if_pos hlength, fun next => by rw [fields_of_lt hlength, throw_bind]⟩
  · have hfields := fields_of_le (Nat.not_lt.mp hlength)
    by_cases hmagic : bs.take 4 = magic
    · rw [if_neg (not_not.mpr hmagic)] at hfields
      by_cases hversion : numberAt bs 4 2 = formatVersion
      · exact .inl ⟨⟨Nat.not_lt.mp hlength, hmagic, hversion⟩, hversion ▸ hfields⟩
      · refine .inr ⟨_, ?_, fun next => by rw [hfields, pure_bind, if_pos hversion]⟩
        rw [payloadBytes, if_neg hlength, if_neg (not_not.mpr hmagic), if_pos hversion]
    · rw [if_pos hmagic] at hfields
      refine .inr ⟨.badMagic, ?_, fun next => by rw [hfields, throw_bind]⟩
      rw [payloadBytes, if_neg hlength, if_pos hmagic]

/-- The comparison with the end of the payload and the slice up to this end are the same check. -/
theorem Headed.payload_or_short (h : Headed bs) :
    (∃ p, payloadBytes bs = .ok p ∧ ¬ bs.length < headerSize + numberAt bs 12 4 ∧
        slice? bs headerSize (headerSize + numberAt bs 12 4) = some p) ∨
      (payloadBytes bs = .error (.lengthMismatch (numberAt bs 12 4) (bs.length - headerSize)) ∧
        bs.length < headerSize + numberAt bs 12 4 ∧ slice? bs headerSize (headerSize + numberAt bs 12 4) = none) := by
  by_cases hlt : bs.length < headerSize + numberAt bs 12 4
  · exact .inr ⟨by rw [h.payloadBytes_eq, if_pos hlt], hlt, slice?_of_lt hlt⟩
  · refine .inl ⟨_, by rw [h.payloadBytes_eq, if_neg hlt], hlt, ?_⟩
    rw [slice?_of_le (Nat.le_add_right _ _) (Nat.not_lt.mp hlt), Nat.add_sub_cancel_left]

/-- **The reader of states looks only at places that are there.** -/
theorem checkedDecode_eq (bs : List UInt8) : (checkedDecode bs).run = returned (decode bs) := by
  have hfound (p : List UInt8) : slice? (Blake3.hash p) 0 16 = some (checksum p) :=
    slice?_of_le (Nat.zero_le _) (by rw [Blake3.length_hash]; decide)
  obtain ⟨hheaded, hfields⟩ | ⟨e, hpayload, hrefused⟩ := headed_or_refused bs
  · simp only [checkedDecode, hfields, pure_bind, throw_bind, ne_eq, not_true_eq_false, ↓reduceIte, sum?_numberAt,
      lift_some, difference?_of_le hheaded.length]
    obtain ⟨p, hpayload, hlt, hslice⟩ | ⟨hpayload, hlt, -⟩ := hheaded.payload_or_short
    · rw [decode_of_ok hpayload, if_neg hlt, hslice, lift_some, pure_bind, hfound, lift_some, pure_bind]
      by_cases hfits : checksum p = (bs.drop 16).take 16
      · rw [if_neg (not_not.mpr hfits), if_pos (checksumFits_iff.mpr hfits)]
        exact run_checkedPayload_bind run_snapshot
      · rw [if_pos hfits, if_neg (checksumFits_iff.not.mpr hfits), run_throw]
        rfl
    · rw [decode_of_error hpayload, if_pos hlt, run_throw]
      rfl
  · simp only [checkedDecode, throw_bind]
    rw [decode_of_error hpayload, hrefused, run_throw, (unreadable_of_payloadBytes hpayload).returned_eq]

/-- **The reader of digests looks only at places that are there.** -/
theorem checkedSourceDigest_eq (bs : List UInt8) : (checkedSourceDigest bs).run = returned (sourceDigest bs) := by
  obtain ⟨hheaded, hfields⟩ | ⟨e, hpayload, hrefused⟩ := headed_or_refused bs
  · simp only [checkedSourceDigest, hfields, pure_bind, throw_bind, ne_eq, not_true_eq_false, ↓reduceIte, sum?_numberAt,
      lift_some, difference?_of_le hheaded.length]
    obtain ⟨p, hpayload, -, hslice⟩ | ⟨hpayload, -, hslice⟩ := hheaded.payload_or_short
    · rw [sourceDigest_of_ok hpayload, hslice]
      exact run_checkedPayload_bind fun p => rfl
    · rw [sourceDigest_of_error hpayload, hslice, run_throw]
      rfl
  · simp only [checkedSourceDigest, throw_bind]
    rw [sourceDigest_of_error hpayload, hrefused, run_throw, (unreadable_of_payloadBytes hpayload).returned_eq]

/-! ## What the readers say -/

theorem unreadable_or_aborted (h : decodePayload payload = .error e) : Unreadable e ∨ e = .aborted := by
  unfold decodePayload at h
  cases hread : Read.payload payload with
  | ok result =>
    rw [hread] at h
    cases h
  | error stop =>
    rw [hread] at h
    cases stop with
    | fault error =>
      cases h
      exact .inl (.decode error)
    | abort =>
      cases h
      exact .inr rfl

/-- What the two readers say of the same bytes: both refuse them with the same error, or end the program, or take them,
but for the checksum and for what makes a payload impossible. -/
inductive Agree : Except Error Snapshot → Except Error (Option (List UInt8)) → Prop
  | unreadable {e : Error} : Unreadable e → Agree (.error e) (.error e)
  | aborted : Agree (.error .aborted) (.error .aborted)
  | damaged {result : Except Error (Option (List UInt8))} :
    (∀ e, result = .error e → Unreadable e ∨ e = .aborted) → Agree (.error .checksumMismatch) result
  | invalid (fault : PayloadFault) (digest : Option (List UInt8)) : Agree (.error (.invalid fault)) (.ok digest)
  | restored (s : Snapshot) (digest : Option (List UInt8)) : Agree (.ok s) (.ok digest)

theorem agree_decode_sourceDigest (bs : List UInt8) : Agree (decode bs) (sourceDigest bs) := by
  cases hbytes : payloadBytes bs with
  | error e =>
    rw [decode_of_error hbytes, sourceDigest_of_error hbytes]
    exact .unreadable (unreadable_of_payloadBytes hbytes)
  | ok payload =>
    rw [decode_of_ok hbytes, sourceDigest_of_ok hbytes]
    cases hread : decodePayload payload with
    | error e =>
      have he := unreadable_or_aborted hread
      split
      · obtain he | rfl := he
        · exact .unreadable he
        · exact .aborted
      · exact .damaged fun e' he' => Except.error.inj he' ▸ he
    | ok p =>
      split
      · show Agree p.snapshot (.ok p.digest)
        unfold Payload.snapshot
        split
        · exact .invalid _ _
        · exact .restored _ _
      · exact .damaged nofun

/-- The bytes announce a text that is longer than all memory. -/
def Endless (bs : List UInt8) : Prop := ∃ payload, payloadBytes bs = .ok payload ∧ Overlong Read.payload payload

theorem sourceDigest_eq_aborted_iff (bs : List UInt8) : sourceDigest bs = .error .aborted ↔ Endless bs := by
  cases hbytes : payloadBytes bs with
  | error e =>
    rw [sourceDigest_of_error hbytes]
    have he := (unreadable_of_payloadBytes hbytes).ne_aborted
    simp [Endless, hbytes, he]
  | ok payload =>
    rw [sourceDigest_of_ok hbytes]
    simp only [Endless, hbytes, Except.ok.injEq, exists_eq_left', ← decodePayload_eq_aborted_iff]
    cases decodePayload payload with
    | error e =>
      constructor <;> intro h <;> cases h <;> rfl
    | ok p => exact ⟨nofun, nofun⟩

/-- **The two readers agree on all bytes.** Where there is a state there is an answer for its digest. Where the reader
of digests fails, the reader of states fails with the same error, or because of the checksum, which only it looks at.
Where the reader of digests does not fail, the other one fails at most because of the checksum, or because the payload
is no possible state. Neither of them looks at a place that is not there, and there are no other errors than these. The
program is ended exactly if a text is announced that is longer than all memory, by the reader of states only if the
checksum is right. -/
theorem readers_agree (bs : List UInt8) :
    (∀ s, decode bs = .ok s → ∃ digest, sourceDigest bs = .ok digest) ∧
      (∀ e, sourceDigest bs = .error e →
        (Unreadable e ∨ e = .aborted) ∧ (decode bs = .error e ∨ decode bs = .error .checksumMismatch)) ∧
      (∀ digest, sourceDigest bs = .ok digest →
        (∃ s, decode bs = .ok s) ∨ decode bs = .error .checksumMismatch ∨
          ∃ fault, decode bs = .error (.invalid fault)) ∧
      (∀ e, decode bs = .error e →
        Unreadable e ∨ e = .checksumMismatch ∨ (∃ fault, e = .invalid fault) ∨ e = .aborted) ∧
      (sourceDigest bs = .error .aborted ↔ Endless bs) ∧
      (decode bs = .error .aborted ↔ Endless bs ∧ decode bs ≠ .error .checksumMismatch) ∧
      (checkedDecode bs).run = returned (decode bs) ∧ (checkedSourceDigest bs).run = returned (sourceDigest bs) := by
  rw [checkedDecode_eq, checkedSourceDigest_eq, ← sourceDigest_eq_aborted_iff]
  have hagree := agree_decode_sourceDigest bs
  generalize decode bs = state, sourceDigest bs = digest at hagree ⊢
  cases hagree with
  | unreadable he => simp [he, he.ne_aborted]
  | aborted => simp
  | damaged he => simpa using he
  | invalid fault digest => simp
  | restored s digest => simp

/-- A payload that begins with the length of a text and ends there. -/
def endless : List UInt8 := Write.number (2 ^ 64 - 1)

/-- **Both readers end the program**, although the bytes have the right header. -/
theorem readers_aborted :
    sourceDigest (frame endless) = .error .aborted ∧ decode (frame endless) = .error .aborted ∧
      (checkedSourceDigest (frame endless)).run = none ∧ (checkedDecode (frame endless)).run = none := by
  have hbytes : payloadBytes (frame endless) = .ok endless := payloadBytes_frame (by decide)
  have hpayload : decodePayload endless = .error .aborted := rfl
  have hdigest : sourceDigest (frame endless) = .error .aborted := by
    rw [sourceDigest_of_ok hbytes, hpayload]
    rfl
  have hdecode : decode (frame endless) = .error .aborted := by
    rw [decode_of_ok hbytes, if_pos (checksumFits_frame endless), hpayload]
    rfl
  rw [checkedSourceDigest_eq, checkedDecode_eq, hdigest, hdecode]
  exact ⟨rfl, rfl, rfl, rfl⟩

end

/-- A byte of the payload is another one: only the reader of states finds this out. -/
example : (sourceDigest ((encode spare none).set 40 7)).toOption = some none ∧
    (decode ((encode spare none).set 40 7)).toOption.isNone = true := by
  decide +kernel

end SpeechGrammar.Cache
