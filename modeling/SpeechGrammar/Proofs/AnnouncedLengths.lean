import SpeechGrammar.Cache.Blob
import SpeechGrammar.Proofs.Decoders

/-!
# Announced lengths

A text may be announced that is longer than any piece of memory. Whether a payload has a text at some place can be seen
from the bytes before it: if a length follows and nothing else, then as many bytes are missing (`Cache.TextAfter`), and
nothing but a text lacks more than 8 bytes. Each decoder passes this on (`Cache.Orderly`); for components the bound on
their nesting makes no difference (**`Cache.componentWithin_eq`**). The reading of a payload ends the program exactly if
a length beyond all memory stands at a place where the payload has a text (**`Cache.decodePayload_eq_aborted_iff`**).
-/

namespace SpeechGrammar.Cache

open Read

section

variable {α β : Type} {read read' : Decoder α} {next next' : α → Decoder β} {bs w rest before : List UInt8} {a : α}
  {stop : Stop} {count n m : Nat}

/-! ## Where a text is announced -/

/-- After these bytes the decoder expects a text: if a length follows and nothing else, then as many bytes are missing.
Lengths up to 8 are left out, since other things may lack as many bytes. -/
def TextAfter (read : Decoder α) (before : List UInt8) : Prop :=
  ∀ count : UInt8, 8 < count → count < 251 → read (before ++ [count]) = .error (.fault (.unexpectedEnd count.toNat))

/-- A length beyond all memory stands where the decoder expects a text. -/
def Overlong (read : Decoder α) (bs : List UInt8) : Prop :=
  ∃ before n after, bs = before ++ (Write.number n ++ after) ∧ maxMemory < n ∧ n < 2 ^ 64 ∧ TextAfter read before

/-- The reading does not stop for the length of a text. -/
def Stop.Minor (stop : Stop) : Prop := stop ≠ .abort ∧ ∀ m, stop = .fault (.unexpectedEnd m) → m ≤ 8

/-- What the decoder reads depends only on the bytes that it takes, and it ends the program exactly for a text that is
longer than all memory. Without a byte it lacks no more than another piece may lack. -/
structure Orderly (read : Decoder α) : Prop where
  isLocal : Local read
  missing : ∀ m, read [] = .error (.fault (.unexpectedEnd m)) → m ≤ 8
  abort_iff : ∀ bs, read bs = .error .abort ↔ Overlong read bs

theorem TextAfter.at_nine (h : TextAfter read before) : read (before ++ [9]) = .error (.fault (.unexpectedEnd 9)) :=
  h 9 (by decide) (by decide)

theorem TextAfter.at_ten (h : TextAfter read before) : read (before ++ [10]) = .error (.fault (.unexpectedEnd 10)) :=
  h 10 (by decide) (by decide)

theorem Orderly.of_minor (hlocal : Local read) (h : ∀ bs stop, read bs = .error stop → stop.Minor) : Orderly read where
  isLocal := hlocal
  missing m hm := (h _ _ hm).2 m rfl
  abort_iff bs := by
    constructor
    · intro habort
      exact absurd rfl (h _ _ habort).1
    · rintro ⟨before, n, after, -, -, -, htext⟩
      exact absurd ((h _ _ htext.at_nine).2 9 rfl) (by decide)

theorem orderly_pure (a : α) : Orderly (pure a : Decoder α) := .of_minor (.pure a) nofun

theorem orderly_throw (h : stop.Minor) : Orderly (throw stop : Decoder α) := by
  refine .of_minor (.throw stop) fun bs stop' hstop => ?_
  cases hstop
  exact h

/-! ## One orderly decoder after another -/

/-- A text is expected within the first decoder, or after what it takes. -/
theorem textAfter_bind_iff (h : Orderly read) (hnext : ∀ a, Orderly (next a)) :
    TextAfter (read >>= next) before ↔
      TextAfter read before ∨ ∃ w v a, before = w ++ v ∧ Reads read w a ∧ TextAfter (next a) v := by
  constructor
  · intro htext
    by_cases hsplit : ∃ w v a, before = w ++ v ∧ Reads read w a
    · obtain ⟨w, v, a, rfl, hw⟩ := hsplit
      refine .inr ⟨w, v, a, rfl, hw, fun count hlow hhigh => ?_⟩
      have hcount := htext count hlow hhigh
      rwa [List.append_assoc, bind_of_ok (hw _)] at hcount
    · refine .inl fun count hlow hhigh => ?_
      obtain hread | ⟨a, mid, hread, hmid⟩ := bind_eq_error (htext count hlow hhigh)
      · exact hread
      · obtain rfl | ⟨w, v, hbefore, -, hw⟩ := h.isLocal.all_or_last hread
        · exact absurd ((hnext a).missing _ hmid) (Nat.not_le.mpr hlow)
        · exact absurd ⟨w, v, a, hbefore, hw⟩ hsplit
  · rintro (htext | ⟨w, v, a, rfl, hw, htext⟩) count hlow hhigh
    · exact bind_of_error (htext count hlow hhigh)
    · rw [List.append_assoc, bind_of_ok (hw _)]
      exact htext count hlow hhigh

theorem Orderly.bind (h : Orderly read) (hnext : ∀ a, Orderly (next a)) : Orderly (read >>= next) where
  isLocal := h.isLocal.bind fun a => (hnext a).isLocal
  missing m hm := by
    obtain hread | ⟨a, mid, hread, hmid⟩ := bind_eq_error hm
    · exact h.missing m hread
    · have hnil : mid = [] := List.length_eq_zero_iff.mp (Nat.le_zero.mp (h.isLocal.length_le hread))
      exact (hnext a).missing m (hnil ▸ hmid)
  abort_iff bs := by
    constructor
    · intro habort
      obtain hread | ⟨a, mid, hread, hmid⟩ := bind_eq_error habort
      · obtain ⟨before, n, after, rfl, hn, hn', htext⟩ := (h.abort_iff bs).mp hread
        exact ⟨before, n, after, rfl, hn, hn', (textAfter_bind_iff h hnext).mpr (.inl htext)⟩
      · obtain ⟨w, rfl, hw⟩ := h.isLocal _ _ _ hread
        obtain ⟨before, n, after, rfl, hn, hn', htext⟩ := ((hnext a).abort_iff mid).mp hmid
        refine ⟨w ++ before, n, after, (List.append_assoc _ _ _).symm, hn, hn', ?_⟩
        exact (textAfter_bind_iff h hnext).mpr (.inr ⟨w, before, a, rfl, hw, htext⟩)
    · rintro ⟨before, n, after, rfl, hn, hn', htext⟩
      obtain htext | ⟨w, v, a, rfl, hw, htext⟩ := (textAfter_bind_iff h hnext).mp htext
      · exact bind_of_error ((h.abort_iff _).mpr ⟨before, n, after, rfl, hn, hn', htext⟩)
      · rw [List.append_assoc, bind_of_ok (hw _)]
        exact ((hnext a).abort_iff _).mpr ⟨v, n, after, rfl, hn, hn', htext⟩

theorem Orderly.map (f : α → β) (h : Orderly read) : Orderly (f <$> read) := h.bind fun a => orderly_pure (f a)

theorem orderly_times (h : Orderly read) : ∀ n, Orderly (times read n)
  | 0 => orderly_pure []
  | n + 1 => h.bind fun a => (orderly_times h n).map (a :: ·)

/-! ## Pieces without text -/

theorem Stop.minor_fault {e : DecodeError} (h : ∀ m, e ≠ .unexpectedEnd m) : Stop.Minor (.fault e) :=
  ⟨nofun, fun m hm => absurd (Stop.fault.inj hm) (h m)⟩

theorem Stop.minor_missing (h : m ≤ 8) : Stop.Minor (.fault (.unexpectedEnd m)) := by
  refine ⟨nofun, fun m' hm => ?_⟩
  cases hm
  exact h

theorem orderly_byte : Orderly byte := by
  refine .of_minor local_byte fun bs stop h => ?_
  cases bs with
  | nil =>
    cases h
    exact Stop.minor_missing (by decide)
  | cons b bs => cases h

theorem orderly_fixed (hcount : count ≤ 8) : Orderly (fixed count) := by
  refine .of_minor (local_fixed count) fun bs stop h => ?_
  obtain ⟨m, rfl, rfl⟩ := fixed_error h
  exact Stop.minor_missing (Nat.le_of_add_right_le hcount)

theorem minor_of_number {use : NumberUse} (h : number use bs = .error stop) : stop.Minor := by
  cases bs with
  | nil =>
    cases h
    exact Stop.minor_missing (by decide)
  | cons first bs =>
    cases numberFrom use first with
    | short _ hnumber =>
      rw [hnumber] at h
      cases h
    | wide count hcount hnumber =>
      rw [hnumber] at h
      obtain ⟨m, rfl, rfl⟩ := fixed_error h
      exact Stop.minor_missing (by omega)
    | tooWide hnumber =>
      obtain ⟨expected, herror⟩ := hnumber bs
      rw [herror] at h
      cases h
      exact Stop.minor_fault nofun

theorem orderly_number (use : NumberUse) : Orderly (number use) :=
  .of_minor (local_number use) fun _ _ => minor_of_number

theorem orderly_word : Orderly word := (orderly_number .large).map Nat.toUInt64

theorem orderly_single : Orderly single := (orderly_fixed (by decide)).map _

theorem orderly_flag : Orderly flag := by
  refine orderly_byte.bind fun b => ?_
  split
  · exact orderly_pure false
  · exact orderly_pure true
  · exact orderly_throw (Stop.minor_fault nofun)

theorem orderly_option (h : Orderly read) : Orderly (option read) := by
  refine orderly_byte.bind fun b => ?_
  split
  · exact orderly_pure none
  · exact h.map some
  · exact orderly_throw (Stop.minor_fault nofun)

theorem orderly_list (h : Orderly read) : Orderly (list read) := (orderly_number .listLength).bind (orderly_times h)

theorem orderly_bound : Orderly bound := by
  refine (orderly_option (orderly_number .small)).bind fun max => ?_
  split
  · exact orderly_pure _
  · exact orderly_pure _

/-! ## Texts -/

/-- The text with the given bytes. -/
def textOf (bs : List UInt8) : Decoder String :=
  match Text.ofUtf8? bs with
  | some s => pure s
  | none => throw (.fault (.utf8 ((Text.Utf8Fault.find bs).getD ⟨0, none⟩)))

theorem text_eq : text = number .large >>= fun n => reserve n >>= fun _ => bytes n >>= textOf := rfl

theorem local_textOf (bs : List UInt8) : Local (textOf bs) := by
  unfold textOf
  split
  · exact .pure _
  · exact .throw _

theorem minor_of_textOf (h : textOf w bs = .error stop) : stop.Minor := by
  rw [textOf] at h
  cases htext : Text.ofUtf8? w with
  | some s =>
    rw [htext] at h
    cases h
  | none =>
    rw [htext] at h
    cases h
    exact Stop.minor_fault nofun

theorem local_text : Local text := by
  refine (local_number .large).bind fun n => Local.bind ?_ fun _ => (local_bytes n).bind local_textOf
  unfold reserve
  split
  · exact .throw _
  · exact .pure _

theorem text_of_gt (h : number .large bs = .ok (n, rest)) (hn : maxMemory < n) : text bs = .error .abort := by
  rw [text_eq, bind_of_ok h, reserve, if_pos hn]
  rfl

theorem text_of_le (h : number .large bs = .ok (n, rest)) (hn : n ≤ maxMemory) :
    text bs = (bytes n >>= textOf) rest := by
  rw [text_eq, bind_of_ok h]
  exact bind_of_ok (reads_reserve hn rest)

/-- Where the reading of a text stops. -/
theorem text_error (h : text bs = .error stop) :
    stop.Minor ∨ ∃ n rest, number .large bs = .ok (n, rest) ∧
      (maxMemory < n ∧ stop = .abort ∨ ∃ m, stop = .fault (.unexpectedEnd m) ∧ n = m + rest.length) := by
  cases hnumber : number .large bs with
  | error stop' =>
    rw [text_eq, bind_of_error hnumber] at h
    cases h
    exact .inl (minor_of_number hnumber)
  | ok result =>
    obtain ⟨n, rest⟩ := result
    by_cases hn : maxMemory < n
    · rw [text_of_gt hnumber hn] at h
      cases h
      exact .inr ⟨n, rest, rfl, .inl ⟨hn, rfl⟩⟩
    · rw [text_of_le hnumber (Nat.not_lt.mp hn)] at h
      obtain hbytes | ⟨w, mid, -, htext⟩ := bind_eq_error h
      · exact .inr ⟨n, rest, rfl, .inr (bytes_error hbytes)⟩
      · exact .inl (minor_of_textOf htext)

theorem textAfter_text_nil : TextAfter text [] := by
  intro count hlow hhigh
  have hnumber : number .large [count] = .ok (count.toNat, []) := if_pos hhigh
  have hle : count.toNat ≤ maxMemory := Nat.le_trans (Nat.le_of_lt count.toNat_lt) (by decide)
  have hpos : 0 < count.toNat := Nat.zero_lt_of_lt hlow
  rw [List.nil_append, text_of_le hnumber hle]
  exact bind_of_error (bytes_of_lt hpos)

/-- **A text begins with its length.** If two bytes that stand last in turn are the number of the missing bytes, then
there is nothing before them. -/
theorem textAfter_text_iff : TextAfter text before ↔ before = [] := by
  refine ⟨fun h => ?_, fun h => h ▸ textAfter_text_nil⟩
  obtain hminor | ⟨n, rest, hnumber, ⟨-, habort⟩ | ⟨m, hm, hn⟩⟩ := text_error h.at_nine
  · exact absurd (hminor.2 9 rfl) (by decide)
  · cases habort
  · cases hm
    obtain rfl | ⟨w, v, rfl, rfl, hw⟩ := (local_number .large).all_or_last hnumber
    · cases before with
      | nil => rfl
      | cons first bs =>
        have := le_of_number_all hnumber (by decide)
        rw [List.length_nil] at hn
        omega
    · -- the number is read without the last byte, so that the other byte would lack as many
      obtain hminor | ⟨n', rest', hnumber', ⟨-, habort⟩ | ⟨m', hm', hn'⟩⟩ := text_error h.at_ten
      · exact absurd (hminor.2 10 rfl) (by decide)
      · cases habort
      · cases hm'
        rw [List.append_assoc, hw] at hnumber'
        cases hnumber'
        simp only [List.length_append, List.length_singleton] at hn hn'
        omega

theorem orderly_text : Orderly text where
  isLocal := local_text
  missing m hm := by
    cases hm
    decide
  abort_iff bs := by
    constructor
    · intro habort
      obtain hminor | ⟨n, rest, hnumber, ⟨hn, -⟩ | ⟨m, hm, -⟩⟩ := text_error habort
      · exact absurd rfl hminor.1
      · obtain ⟨hbs, hlt⟩ := eq_number_of_huge hnumber hn
        exact ⟨[], n, rest, hbs, hn, hlt, textAfter_text_nil⟩
      · cases hm
    · rintro ⟨before, n, after, rfl, hn, hlt, htext⟩
      rw [textAfter_text_iff.mp htext, List.nil_append]
      exact text_of_gt (reads_number (u := .large) hlt after) hn

/-! ## Components -/

theorem orderly_componentOf {inner : Decoder Component} (h : Orderly inner) (kind : Nat) :
    Orderly (componentOf inner kind) := by
  unfold componentOf
  split
  · exact orderly_text.map _
  · exact orderly_text.bind fun rule => (orderly_option orderly_text).bind fun grammar => orderly_pure _
  · exact (orderly_list h).bind fun branches =>
      (orderly_option (orderly_list orderly_single)).bind fun weights => orderly_pure _
  · exact (orderly_list h).map _
  · exact h.bind fun body => (orderly_number .small).bind fun min => orderly_bound.bind fun max =>
      (orderly_option orderly_single).bind fun probability => orderly_pure _
  · exact orderly_text.map _
  · exact orderly_throw (Stop.minor_fault nofun)

theorem orderly_componentWithin : ∀ depth, Orderly (componentWithin depth)
  | 0 => orderly_throw (Stop.minor_missing (by decide))
  | depth + 1 => (orderly_number .small).bind (orderly_componentOf (orderly_componentWithin depth))

/-- The two decoders do the same with up to so many bytes. -/
def AgreeUpTo (limit : Nat) (read read' : Decoder α) : Prop := ∀ bs, bs.length ≤ limit → read bs = read' bs

theorem AgreeUpTo.refl (limit : Nat) (read : Decoder α) : AgreeUpTo limit read read := fun _ _ => rfl

theorem AgreeUpTo.bind {limit : Nat} (h : AgreeUpTo limit read read') (hlocal : Local read)
    (hnext : ∀ a, AgreeUpTo limit (next a) (next' a)) : AgreeUpTo limit (read >>= next) (read' >>= next') := by
  intro bs hbs
  have hread := h bs hbs
  cases hfirst : read bs with
  | error stop => rw [bind_of_error hfirst, bind_of_error (hread ▸ hfirst)]
  | ok result =>
    rw [bind_of_ok hfirst, bind_of_ok (hread ▸ hfirst)]
    exact hnext _ _ (Nat.le_trans (hlocal.length_le hfirst) hbs)

theorem AgreeUpTo.map {limit : Nat} (f : α → β) (h : AgreeUpTo limit read read') (hlocal : Local read) :
    AgreeUpTo limit (f <$> read) (f <$> read') := by
  rw [map_eq_bind, map_eq_bind]
  exact h.bind hlocal fun _ => .refl limit _

theorem AgreeUpTo.times {limit : Nat} (h : AgreeUpTo limit read read') (hlocal : Local read) :
    ∀ n, AgreeUpTo limit (times read n) (times read' n)
  | 0 => .refl limit _
  | n + 1 => h.bind hlocal fun _ => (h.times hlocal n).bind (local_times hlocal n) fun _ => .refl limit _

theorem AgreeUpTo.list {limit : Nat} (h : AgreeUpTo limit read read') (hlocal : Local read) :
    AgreeUpTo limit (list read) (list read') :=
  (AgreeUpTo.refl limit _).bind (local_number .listLength) (h.times hlocal)

theorem agreeUpTo_componentOf {limit : Nat} {inner inner' : Decoder Component} (h : AgreeUpTo limit inner inner')
    (hlocal : Local inner) (kind : Nat) : AgreeUpTo limit (componentOf inner kind) (componentOf inner' kind) := by
  have hlist := h.list hlocal
  have hlocals := (local_number .listLength).bind (local_times hlocal)
  unfold componentOf
  split
  · exact .refl limit _
  · exact .refl limit _
  · exact hlist.bind hlocals fun _ => .refl limit _
  · exact hlist.map _ hlocals
  · exact h.bind hlocal fun _ => .refl limit _
  · exact .refl limit _
  · exact .refl limit _

theorem componentWithin_nil (depth : Nat) : componentWithin depth [] = .error (.fault (.unexpectedEnd 1)) := by
  cases depth <;> rfl

theorem agreeUpTo_componentWithin {limit : Nat} : ∀ {depth depth' : Nat}, limit ≤ depth → limit ≤ depth' →
    AgreeUpTo limit (componentWithin depth) (componentWithin depth') := by
  induction limit with
  | zero =>
    intro depth depth' _ _ bs hbs
    rw [List.length_eq_zero_iff.mp (Nat.le_zero.mp hbs), componentWithin_nil, componentWithin_nil]
  | succ limit ih =>
    intro depth depth' hdepth hdepth' bs hbs
    obtain ⟨d, rfl⟩ := Nat.exists_eq_add_one.mpr (Nat.zero_lt_of_lt hdepth)
    obtain ⟨d', rfl⟩ := Nat.exists_eq_add_one.mpr (Nat.zero_lt_of_lt hdepth')
    rw [componentWithin, componentWithin]
    cases hkind : number .small bs with
    | error stop => rw [bind_of_error hkind, bind_of_error hkind]
    | ok result =>
      -- the kind takes a byte, so that one level less is enough for the others
      have hrest := length_lt_of_number hkind
      have hinner := ih (Nat.le_of_succ_le_succ hdepth) (Nat.le_of_succ_le_succ hdepth')
      rw [bind_of_ok hkind, bind_of_ok hkind]
      exact agreeUpTo_componentOf hinner (orderly_componentWithin d).isLocal _ _ (by omega)

/-- **The bound on the depth is never met.** Components are read in the same way with any bound that is as large as the
number of the bytes. -/
theorem componentWithin_eq {depth : Nat} (h : bs.length ≤ depth) : componentWithin depth bs = component bs :=
  agreeUpTo_componentWithin h (Nat.le_refl _) bs (Nat.le_refl _)

theorem local_component : Local component := by
  intro bs c rest h
  obtain ⟨w, rfl, -⟩ := (orderly_componentWithin _).isLocal _ _ _ h
  refine ⟨w, rfl, fun rest' => ?_⟩
  -- a bound for both continuations of the bytes that are taken
  have hboth : componentWithin ((w ++ rest).length + (w ++ rest').length) (w ++ rest) = .ok (c, rest) :=
    (componentWithin_eq (Nat.le_add_right _ _)).trans h
  obtain ⟨w', hw', hreads⟩ := (orderly_componentWithin _).isLocal _ _ _ hboth
  obtain rfl := List.append_cancel_right hw'
  rw [← hreads rest', componentWithin_eq (Nat.le_add_left _ _)]

theorem orderly_component : Orderly component where
  isLocal := local_component
  missing m hm := by
    rw [component, componentWithin_nil] at hm
    cases hm
    decide
  abort_iff bs := by
    refine ((orderly_componentWithin bs.length).abort_iff bs).trans ?_
    -- what is looked at for the places of texts has no more bytes than there are
    have hsame {before after : List UInt8} {n : Nat} (hbs : bs = before ++ (Write.number n ++ after)) :
        TextAfter (componentWithin bs.length) before ↔ TextAfter component before := by
      have hlength : ∀ last : UInt8, (before ++ [last]).length ≤ bs.length := fun last => by
        have := length_number_pos n
        rw [hbs, List.length_append, List.length_append, List.length_append, List.length_singleton]
        omega
      unfold TextAfter
      simp only [componentWithin_eq (hlength _)]
    constructor
    · rintro ⟨before, n, after, hbs, hn, hlt, htext⟩
      exact ⟨before, n, after, hbs, hn, hlt, (hsame hbs).mp htext⟩
    · rintro ⟨before, n, after, hbs, hn, hlt, htext⟩
      exact ⟨before, n, after, hbs, hn, hlt, (hsame hbs).mpr htext⟩

/-! ## Payloads -/

theorem orderly_entry : Orderly entry :=
  orderly_text.bind fun _ => orderly_flag.bind fun _ => orderly_word.bind fun _ => orderly_flag.bind fun _ =>
    orderly_component.bind fun _ => orderly_pure _

theorem orderly_payload : Orderly payload :=
  orderly_text.bind fun _ => (orderly_option orderly_text).bind fun _ => orderly_word.bind fun _ =>
    (orderly_number .large).bind fun _ => (orderly_option (orderly_times orderly_byte 32)).bind fun _ =>
      (orderly_list orderly_entry).bind fun _ => (orderly_option orderly_text).bind fun _ =>
        orderly_word.bind fun _ => orderly_pure _

/-- **The program is ended exactly for a text that is longer than all memory.** -/
theorem decodePayload_eq_aborted_iff (bs : List UInt8) : decodePayload bs = .error .aborted ↔ Overlong payload bs := by
  rw [← orderly_payload.abort_iff]
  unfold decodePayload
  constructor
  · intro h
    split at h
    · cases h
    · rename_i stop hstop
      cases stop with
      | fault e => cases h
      | abort => exact hstop
  · intro h
    rw [h]
    rfl

end

end SpeechGrammar.Cache
