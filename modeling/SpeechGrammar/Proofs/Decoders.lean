import SpeechGrammar.Proofs.CacheCodec

/-!
# What decoders take

A decoder takes some bytes off the front, and what it reads depends only on these (`Cache.Local`). This is so for one
decoder after another (`Cache.Local.bind`), for pieces of bytes, and for numbers, which have one of several forms
(`Cache.numberFrom`). A number that is larger than all memory has one form only (**`Cache.eq_number_of_huge`**).
-/

namespace SpeechGrammar.Cache

open Read

section

variable {α β : Type} {read read' : Decoder α} {next next' : α → Decoder β} {bs w rest before : List UInt8} {a : α}
  {b : β} {stop : Stop} {count n m : Nat}

/-! ## One decoder after another -/

theorem bind_of_ok (h : read bs = .ok (a, rest)) : (read >>= next) bs = next a rest := by
  show (read bs >>= fun p => next p.1 p.2) = _
  rw [h]
  rfl

theorem bind_of_error (h : read bs = .error stop) : (read >>= next) bs = .error stop := by
  show (read bs >>= fun p => next p.1 p.2) = _
  rw [h]
  rfl

theorem bind_eq_ok (h : (read >>= next) bs = .ok (b, rest)) :
    ∃ a mid, read bs = .ok (a, mid) ∧ next a mid = .ok (b, rest) := by
  cases hread : read bs with
  | error stop =>
    rw [bind_of_error hread] at h
    cases h
  | ok result =>
    rw [bind_of_ok hread] at h
    exact ⟨_, _, rfl, h⟩

theorem bind_eq_error (h : (read >>= next) bs = .error stop) :
    read bs = .error stop ∨ ∃ a mid, read bs = .ok (a, mid) ∧ next a mid = .error stop := by
  cases hread : read bs with
  | error stop' =>
    rw [bind_of_error hread] at h
    cases h
    exact .inl rfl
  | ok result =>
    rw [bind_of_ok hread] at h
    exact .inr ⟨_, _, rfl, h⟩

theorem map_eq_bind (f : α → β) (read : Decoder α) : f <$> read = read >>= fun a => pure (f a) := rfl

/-! ## What is left over -/

/-- What the decoder reads depends only on the bytes that it takes. -/
def Local (read : Decoder α) : Prop :=
  ∀ bs a rest, read bs = .ok (a, rest) → ∃ w, bs = w ++ rest ∧ Reads read w a

theorem Local.pure (a : α) : Local (pure a : Decoder α) := by
  intro bs b rest h
  cases h
  exact ⟨[], rfl, .pure _⟩

theorem Local.throw (stop : Stop) : Local (throw stop : Decoder α) := nofun

theorem Local.bind (h : Local read) (hnext : ∀ a, Local (next a)) : Local (read >>= next) := by
  intro bs b rest hread
  obtain ⟨a, mid, hfirst, hsecond⟩ := bind_eq_ok hread
  obtain ⟨w, rfl, hw⟩ := h _ _ _ hfirst
  obtain ⟨v, rfl, hv⟩ := hnext a _ _ _ hsecond
  exact ⟨w ++ v, (List.append_assoc w v rest).symm, hw.bind hv⟩

/-- There is no more left than there was. -/
theorem Local.length_le (h : Local read) (hread : read bs = .ok (a, rest)) : rest.length ≤ bs.length := by
  obtain ⟨w, rfl, -⟩ := h _ _ _ hread
  rw [List.length_append]
  omega

theorem local_times (h : Local read) : ∀ n, Local (times read n)
  | 0 => .pure []
  | n + 1 => h.bind fun a => (local_times h n).bind fun as => .pure (a :: as)

/-- Of bytes with one more at the end, either all are taken, or this one is left. -/
theorem Local.all_or_last (h : Local read) {last : UInt8} (hread : read (before ++ [last]) = .ok (a, rest)) :
    rest = [] ∨ ∃ w v, before = w ++ v ∧ rest = v ++ [last] ∧ Reads read w a := by
  obtain ⟨w, hbs, hw⟩ := h _ _ _ hread
  rcases List.eq_nil_or_concat rest with rfl | ⟨v, c, rfl⟩
  · exact .inl rfl
  · rw [List.concat_eq_append, ← List.append_assoc] at hbs
    obtain ⟨rfl, hlast⟩ := List.append_inj' hbs rfl
    cases hlast
    exact .inr ⟨w, v, rfl, List.concat_eq_append, hw⟩

/-! ## Bytes and numbers -/

theorem local_byte : Local byte := by
  intro bs b rest h
  cases bs with
  | nil => cases h
  | cons c bs =>
    cases h
    exact ⟨[b], rfl, fun _ => rfl⟩

theorem splitExactly_ok (h : splitExactly count bs = .ok (w, rest)) : bs = w ++ rest ∧ w.length = count := by
  induction count generalizing bs w with
  | zero =>
    cases h
    exact ⟨rfl, rfl⟩
  | succ count ih =>
    cases bs with
    | nil => cases h
    | cons b bs =>
      rw [splitExactly] at h
      cases hsplit : splitExactly count bs with
      | error missing =>
        rw [hsplit] at h
        cases h
      | ok result =>
        rw [hsplit] at h
        cases h
        obtain ⟨rfl, hlength⟩ := ih hsplit
        exact ⟨rfl, by rw [List.length_cons, hlength]⟩

theorem splitExactly_error (h : splitExactly count bs = .error m) : count = m + bs.length := by
  induction count generalizing bs with
  | zero => cases h
  | succ count ih =>
    cases bs with
    | nil =>
      cases h
      rfl
    | cons b bs =>
      rw [splitExactly] at h
      cases hsplit : splitExactly count bs with
      | error missing =>
        rw [hsplit] at h
        cases h
        rw [ih hsplit, List.length_cons]
        rfl
      | ok result =>
        rw [hsplit] at h
        cases h

theorem bytes_ok (h : bytes count bs = .ok (w, rest)) : bs = w ++ rest ∧ w.length = count := by
  unfold bytes at h
  split at h
  · cases h
    exact splitExactly_ok ‹_›
  · cases h

theorem bytes_error (h : bytes count bs = .error stop) :
    ∃ m, stop = .fault (.unexpectedEnd m) ∧ count = m + bs.length := by
  unfold bytes at h
  split at h
  · cases h
  · cases h
    exact ⟨_, rfl, splitExactly_error ‹_›⟩

theorem bytes_of_lt (h : bs.length < count) :
    bytes count bs = .error (.fault (.unexpectedEnd (count - bs.length))) := by
  cases hbytes : bytes count bs with
  | ok result =>
    obtain ⟨rfl, rfl⟩ := bytes_ok hbytes
    rw [List.length_append] at h
    omega
  | error stop =>
    obtain ⟨m, rfl, rfl⟩ := bytes_error hbytes
    rw [Nat.add_sub_cancel]

theorem local_bytes (count : Nat) : Local (bytes count) := by
  intro bs w rest h
  obtain ⟨rfl, rfl⟩ := bytes_ok h
  exact ⟨w, rfl, reads_bytes w⟩

theorem fixed_ok (h : fixed count bs = .ok (n, rest)) :
    ∃ w, bs = w ++ rest ∧ w.length = count ∧ n = ofLittleEndian w := by
  rw [fixed, map_eq_bind] at h
  obtain ⟨w, mid, hbytes, hpure⟩ := bind_eq_ok h
  cases hpure
  exact ⟨w, (bytes_ok hbytes).1, (bytes_ok hbytes).2, rfl⟩

theorem fixed_error (h : fixed count bs = .error stop) :
    ∃ m, stop = .fault (.unexpectedEnd m) ∧ count = m + bs.length := by
  rw [fixed, map_eq_bind] at h
  obtain hbytes | ⟨w, mid, -, hpure⟩ := bind_eq_error h
  · exact bytes_error hbytes
  · cases hpure

theorem local_fixed (count : Nat) : Local (fixed count) :=
  (local_bytes count).bind fun w => Local.pure (ofLittleEndian w)

/-- A number is its first byte, or it stands in some bytes after it, or its width is not allowed. -/
inductive NumberFrom (use : NumberUse) (first : UInt8) : Prop
  | short (hshort : first < 251) (h : ∀ rest, number use (first :: rest) = .ok (first.toNat, rest))
  | wide (count : Nat) (hcount : count = 2 ∨ count = 4 ∨ count = 8 ∧ first = 253)
    (h : ∀ rest, number use (first :: rest) = fixed count rest)
  | tooWide (h : ∀ rest, ∃ expected, number use (first :: rest) = .error (.fault (.tooWide expected (announced first))))

theorem numberFrom (use : NumberUse) (first : UInt8) : NumberFrom use first := by
  by_cases hshort : first < 251
  · exact .short hshort fun rest => if_pos hshort
  · by_cases h2 : first = 251
    · subst h2
      exact .wide 2 (.inl rfl) fun rest => rfl
    · by_cases h4 : first = 252
      · subst h4
        exact .wide 4 (.inr (.inl rfl)) fun rest => rfl
      · by_cases h8 : first = 253
        · subst h8
          cases use with
          | small => exact .tooWide fun rest => ⟨_, rfl⟩
          | large => exact .wide 8 (.inr (.inr ⟨rfl, rfl⟩)) fun rest => rfl
          | listLength => exact .wide 8 (.inr (.inr ⟨rfl, rfl⟩)) fun rest => rfl
        · refine .tooWide fun rest => ⟨use.expected (first :: rest).length, ?_⟩
          rw [number, if_neg hshort, if_neg h2, if_neg h4]
          · exact fun h => absurd h h8
          · exact fun h => absurd h h8

/-- Where a number has been read: it is the first byte, or it stands in some bytes after it. -/
theorem number_ok {use : NumberUse} (h : number use bs = .ok (n, rest)) :
    (∃ first, bs = first :: rest ∧ n = first.toNat ∧ ∀ rest', number use (first :: rest') = .ok (n, rest')) ∨
      ∃ first w, bs = first :: (w ++ rest) ∧ n = ofLittleEndian w ∧
        (w.length = 2 ∨ w.length = 4 ∨ w.length = 8 ∧ first = 253) ∧
        ∀ rest', number use (first :: rest') = fixed w.length rest' := by
  cases bs with
  | nil => cases h
  | cons first bs =>
    cases numberFrom use first with
    | short _ hnumber =>
      rw [hnumber] at h
      cases h
      exact .inl ⟨first, rfl, rfl, hnumber⟩
    | wide count hcount hnumber =>
      rw [hnumber] at h
      obtain ⟨w, rfl, rfl, rfl⟩ := fixed_ok h
      exact .inr ⟨first, w, rfl, rfl, hcount, hnumber⟩
    | tooWide hnumber =>
      obtain ⟨expected, herror⟩ := hnumber bs
      rw [herror] at h
      cases h

theorem local_number (use : NumberUse) : Local (number use) := by
  intro bs n rest h
  obtain ⟨first, rfl, -, hnumber⟩ | ⟨first, w, rfl, rfl, -, hnumber⟩ := number_ok h
  · exact ⟨[first], rfl, hnumber⟩
  · exact ⟨first :: w, rfl, fun rest' => (hnumber (w ++ rest')).trans ((reads_bytes w).map ofLittleEndian rest')⟩

/-- A number takes a byte. -/
theorem length_lt_of_number {use : NumberUse} (h : number use bs = .ok (n, rest)) : rest.length < bs.length := by
  obtain ⟨first, rfl, -⟩ | ⟨first, w, rfl, -⟩ := number_ok h
  · exact Nat.lt_succ_self _
  · rw [List.length_cons, List.length_append]
    omega

/-- Writing inverts reading, for so many bytes. -/
theorem littleEndian_ofLittleEndian (w : List UInt8) : littleEndian w.length (ofLittleEndian w) = w := by
  induction w with
  | nil => rfl
  | cons b w ih =>
    have hb := b.toNat_lt
    have hdiv : (b.toNat + 256 * ofLittleEndian w) / 256 = ofLittleEndian w := by omega
    have hbyte : (b.toNat + 256 * ofLittleEndian w).toUInt8 = b := by
      rw [← UInt8.toNat_inj, Nat.toUInt8, UInt8.toNat_ofNat']
      omega
    rw [List.length_cons, ofLittleEndian, littleEndian, hdiv, hbyte, ih]

theorem ofLittleEndian_lt (w : List UInt8) : ofLittleEndian w < 256 ^ w.length := by
  induction w with
  | nil => exact Nat.one_pos
  | cons b w ih =>
    have hb := b.toNat_lt
    rw [ofLittleEndian, List.length_cons, Nat.pow_succ]
    omega

theorem ofLittleEndian_concat_pos {last : UInt8} (hlast : 0 < last) (w : List UInt8) :
    0 < ofLittleEndian (w ++ [last]) := by
  induction w with
  | nil =>
    have : 0 < last.toNat := hlast
    simpa [ofLittleEndian] using this
  | cons b w ih =>
    rw [List.cons_append, ofLittleEndian]
    omega

/-- A number beyond all memory has only one form. -/
theorem eq_number_of_huge (h : number .large bs = .ok (n, rest)) (hn : maxMemory < n) :
    bs = Write.number n ++ rest ∧ n < 2 ^ 64 := by
  rw [maxMemory] at hn
  obtain ⟨first, rfl, rfl, -⟩ | ⟨first, w, rfl, rfl, hwidth, -⟩ := number_ok h
  · have := first.toNat_lt
    omega
  · have hlt := ofLittleEndian_lt w
    have hcanonical := littleEndian_ofLittleEndian w
    obtain hlength | hlength | ⟨hlength, rfl⟩ := hwidth
    · rw [hlength] at hlt
      omega
    · rw [hlength] at hlt
      omega
    · rw [hlength] at hlt hcanonical
      refine ⟨?_, hlt⟩
      rw [Write.number, if_neg (by omega), if_neg (by omega), if_neg (by omega), hcanonical]
      rfl

/-- A number that takes several bytes, the last of which is not 0, does not fit into one byte. -/
theorem le_of_number_all {first last : UInt8} (h : number .large (first :: bs ++ [last]) = .ok (n, []))
    (hlast : 0 < last) : 256 ≤ n := by
  obtain ⟨first', hbs, -⟩ | ⟨first', w, hbs, rfl, hwidth, -⟩ := number_ok h
  · have hlength := congrArg List.length hbs
    simp at hlength
  · rw [List.cons_append, List.append_nil, List.cons.injEq] at hbs
    obtain ⟨-, rfl⟩ := hbs
    cases bs with
    | nil =>
      rw [List.nil_append, List.length_singleton] at hwidth
      omega
    | cons b bs =>
      have := ofLittleEndian_concat_pos hlast bs
      rw [List.cons_append, ofLittleEndian]
      omega

end

end SpeechGrammar.Cache
