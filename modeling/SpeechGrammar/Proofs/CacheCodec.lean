import Mathlib.Algebra.Group.Nat.Defs
import SpeechGrammar.Cache.Reader

/-!
# The reader inverts the writer

A decoder reads bytes as a value (`Cache.Reads`) if it takes exactly these bytes off the front, whatever comes after
them. Each decoder reads what the writer of the same name writes, up to whole payloads (**`Cache.reads_payload`**),
provided that all bytes fit into a piece of memory and that the bodies of the rules have no fault.
-/

namespace SpeechGrammar.Cache

open Read

/-- The decoder takes the bytes off the front and gives the value. -/
def Reads {α : Type} (read : Decoder α) (bytes : List UInt8) (a : α) : Prop :=
  ∀ rest, read (bytes ++ rest) = .ok (a, rest)

section

variable {α β : Type} {read : Decoder α} {write : α → List UInt8} {v w : List UInt8} {a : α} {b : β}

/-! ## Combining decoders -/

theorem Reads.pure (a : α) : Reads (pure a : Decoder α) [] a := fun _ => rfl

theorem Reads.bind {next : α → Decoder β} (h : Reads read v a) (hnext : Reads (next a) w b) :
    Reads (read >>= next) (v ++ w) b := by
  intro rest
  show (read (v ++ w ++ rest) >>= fun p => next p.1 p.2) = _
  rw [List.append_assoc, h]
  exact hnext rest

theorem Reads.map (f : α → β) (h : Reads read w a) : Reads (f <$> read) w (f a) := by
  intro rest
  show (read (w ++ rest) >>= fun p => Except.ok (f p.1, p.2)) = _
  rw [h]
  rfl

/-- What follows the last of several decoders takes no bytes. -/
theorem Reads.last {next : α → Decoder β} (h : Reads read w a) (hnext : next a = Pure.pure b) :
    Reads (read >>= next) w b := by
  rw [← List.append_nil w]
  exact h.bind (hnext ▸ .pure b)

/-! ## Numbers -/

theorem reads_bytes (w : List UInt8) : Reads (bytes w.length) w w := by
  intro rest
  simp only [bytes, splitExactly_append]

/-- Reading inverts writing, for a number that fits. -/
theorem ofLittleEndian_littleEndian {count n : Nat} (h : n < 256 ^ count) :
    ofLittleEndian (littleEndian count n) = n := by
  induction count generalizing n with
  | zero =>
    simp only [Nat.pow_zero, Nat.lt_one_iff] at h
    simp [littleEndian, ofLittleEndian, h]
  | succ count ih =>
    have hn : n / 256 < 256 ^ count := by rw [Nat.pow_succ] at h; omega
    simp only [littleEndian, ofLittleEndian, ih hn, UInt8.toNat_ofNat', Nat.toUInt8]
    omega

theorem reads_fixed {count n : Nat} (h : n < 256 ^ count) : Reads (fixed count) (littleEndian count n) n := by
  have hread := (reads_bytes (littleEndian count n)).map ofLittleEndian
  rwa [length_littleEndian, ofLittleEndian_littleEndian h] at hread

/-- The numbers that fit into the widest type that a use allows. -/
def Read.NumberUse.limit : NumberUse → Nat
  | .small => 2 ^ 32
  | .large => 2 ^ 64
  | .listLength => 2 ^ 64

/-- **Numbers are read in each of the four widths.** -/
theorem reads_number {u : NumberUse} {n : Nat} (h : n < u.limit) : Reads (number u) (Write.number n) n := by
  intro rest
  unfold Write.number
  split
  · rename_i hn
    have hbyte : n.toUInt8.toNat = n := by
      simp only [Nat.toUInt8, UInt8.toNat_ofNat']
      omega
    have hlt : n.toUInt8 < 251 := by
      rw [UInt8.lt_iff_toNat_lt, hbyte]
      exact hn
    simp only [List.cons_append, List.nil_append, number, if_pos hlt, hbyte]
  · split
    · exact reads_fixed (by omega) rest
    · split
      · exact reads_fixed (by omega) rest
      · cases u with
        | small => simp only [NumberUse.limit] at h; omega
        | large => exact reads_fixed h rest
        | listLength => exact reads_fixed h rest

theorem length_number_pos (n : Nat) : 0 < (Write.number n).length := by
  unfold Write.number
  split
  · exact Nat.one_pos
  · split
    · exact Nat.succ_pos _
    · split <;> exact Nat.succ_pos _

theorem reads_word (x : UInt64) : Reads word (Write.number x.toNat) x := by
  have hread := (reads_number (u := .large) x.toNat_lt).map Nat.toUInt64
  rwa [Nat.toUInt64, UInt64.ofNat_toNat] at hread

theorem reads_single (x : Single) : Reads single (Write.single x) x := by
  have hbits : Reads (fixed 4) (littleEndian 4 x.bits.toNat) x.bits.toNat := reads_fixed x.bits.toNat_lt
  have hread := hbits.map fun n => (⟨n.toUInt32⟩ : Single)
  rwa [Nat.toUInt32, UInt32.ofNat_toNat] at hread

theorem reads_flag (b : Bool) : Reads flag (Write.flag b) b := by
  intro rest
  cases b <;> rfl

/-! ## Options, lists and texts -/

theorem reads_option {x : Option α} (h : ∀ a, x = some a → Reads read (write a) a) :
    Reads (option read) (Write.option write x) x := by
  cases x with
  | none => exact fun _ => rfl
  | some a => exact fun rest => (h a rfl).map some rest

theorem reads_times {as : List α} (h : ∀ a ∈ as, Reads read (write a) a) :
    Reads (times read as.length) (as.flatMap write) as := by
  induction as with
  | nil => exact .pure []
  | cons a as ih =>
    rw [List.forall_mem_cons] at h
    rw [List.flatMap_cons]
    exact h.1.bind ((ih h.2).last rfl)

/-- There are no more elements than bytes. -/
theorem length_le_flatMap {as : List α} (hpos : ∀ a ∈ as, 0 < (write a).length) :
    as.length ≤ (as.flatMap write).length := by
  induction as with
  | nil => exact Nat.le_refl _
  | cons a as ih =>
    rw [List.forall_mem_cons] at hpos
    have := ih hpos.2
    simp only [List.flatMap_cons, List.length_append, List.length_cons]
    omega

theorem reads_list {as : List α} (hlen : as.length ≤ maxMemory) (h : ∀ a ∈ as, Reads read (write a) a) :
    Reads (list read) (Write.list write as) as :=
  (reads_number (u := .listLength) (Nat.lt_of_le_of_lt hlen (by decide))).bind (reads_times h)

theorem reads_reserve {n : Nat} (h : n ≤ maxMemory) : Reads (reserve n) [] () := by
  rw [reserve, if_neg (Nat.not_lt.mpr h)]
  exact .pure ()

theorem reads_text {s : String} (h : (Write.text s).length ≤ maxMemory) : Reads text (Write.text s) s := by
  have hlen : (Text.utf8 s).length ≤ maxMemory := by
    rw [Write.text, List.length_append] at h
    omega
  refine (reads_number (u := .large) (Nat.lt_of_le_of_lt hlen (by decide))).bind ?_
  refine (reads_reserve hlen).bind ((reads_bytes (Text.utf8 s)).last ?_)
  rw [Text.ofUtf8?_utf8]

theorem length_option_some (a : α) : (Write.option write (some a)).length = (write a).length + 1 := rfl

theorem reads_optionText {x : Option String} (h : (Write.option Write.text x).length ≤ maxMemory) :
    Reads (option text) (Write.option Write.text x) x := by
  refine reads_option fun s hs => reads_text ?_
  rw [hs, length_option_some] at h
  omega

end

/-! ## Components -/

theorem boundsFault?_eq_none {min : Nat} {max : Bound} (h : Component.boundsFault? min max = none) :
    min ≤ maxRepeatBound ∧ ∀ most, max = .finite most → most ≤ maxRepeatBound := by
  cases max with
  | indefinite =>
    simp only [Component.boundsFault?] at h
    split at h
    · cases h
    · exact ⟨by omega, nofun⟩
  | finite most =>
    simp only [Component.boundsFault?] at h
    split at h
    · cases h
    · split at h
      · cases h
      · refine ⟨by omega, fun _ hm => ?_⟩
        cases hm
        omega

theorem reads_bound {max : Bound} (h : ∀ most, max = .finite most → most ≤ maxRepeatBound) :
    Reads bound (Write.bound max) max := by
  cases max with
  | indefinite => exact fun _ => rfl
  | finite most =>
    have hmost : most < NumberUse.small.limit := Nat.lt_of_le_of_lt (h most rfl) (by decide)
    refine (reads_option (x := some most) fun n hn => ?_).last rfl
    cases hn
    exact reads_number hmost

/-- The components of a list are written one after the other. -/
theorem components_eq_flatMap (cs : List Component) : Write.components cs = cs.flatMap Write.component := by
  induction cs with
  | nil => rfl
  | cons c cs ih => rw [Write.components, ih, List.flatMap_cons]

theorem length_component_pos (c : Component) : 0 < (Write.component c).length := by
  cases c <;> simp only [Write.component, List.length_append] <;> have := length_number_pos <;> grind

theorem length_single (x : Single) : (Write.single x).length = 4 := length_littleEndian 4 _

theorem reads_weights {ws : Option (List Single)}
    (h : (Write.option (Write.list Write.single) ws).length ≤ maxMemory) :
    Reads (option (list single)) (Write.option (Write.list Write.single) ws) ws := by
  refine reads_option fun xs hxs => reads_list ?_ fun x _ => reads_single x
  rw [hxs, length_option_some, Write.list, List.length_append] at h
  have hpos : ∀ x ∈ xs, 0 < (Write.single x).length := fun x _ => by
    rw [length_single]
    exact Nat.succ_pos 3
  have := length_le_flatMap hpos
  omega

theorem reads_items {read : Decoder Component} {cs : List Component} (hlen : (Write.components cs).length ≤ maxMemory)
    (h : ∀ c ∈ cs, Reads read (Write.component c) c) :
    Reads (list read) (Write.number cs.length ++ Write.components cs) cs := by
  rw [components_eq_flatMap] at hlen ⊢
  have := length_le_flatMap fun c (_ : c ∈ cs) => length_component_pos c
  exact reads_list (by omega) h

/-- The kind of a component is its first byte, and its parts come after it. -/
theorem reads_componentWithin {kind depth : Nat} {w : List UInt8} {c : Component} (hkind : kind < 251)
    (h : Reads (componentOf (componentWithin depth) kind) w c) :
    Reads (componentWithin (depth + 1)) (Write.number kind ++ w) c :=
  (reads_number (u := .small) (Nat.lt_trans hkind (by decide))).bind h

mutual

/-- **A component without fault is read back**, if it is not nested deeper than allowed. -/
theorem reads_component : ∀ (c : Component) {d : Nat}, c.fault? = none →
    (Write.component c).length ≤ d → (Write.component c).length ≤ maxMemory →
    Reads (componentWithin d) (Write.component c) c
  | c, 0, _, hd, _ => absurd hd (Nat.not_le.mpr (length_component_pos c))
  | .token s, d + 1, _, hd, hmax => by
    simp only [Write.component, List.length_append] at hd hmax ⊢
    refine reads_componentWithin (by decide) ((reads_text ?_).map _)
    omega
  | .tag s, d + 1, _, hd, hmax => by
    simp only [Write.component, List.length_append] at hd hmax ⊢
    refine reads_componentWithin (by decide) ((reads_text ?_).map _)
    omega
  | .reference r, d + 1, _, hd, hmax => by
    simp only [Write.component, List.length_append, List.append_assoc] at hd hmax ⊢
    refine reads_componentWithin (by decide) ((reads_text ?_).bind ((reads_optionText ?_).last rfl))
    · omega
    · omega
  | .sequence items, d + 1, hf, hd, hmax => by
    have hkind := length_number_pos 3
    simp only [Write.component, List.length_append, List.append_assoc] at hd hmax ⊢
    have hlist := reads_items (by omega) (reads_components items hf (d := d) (by omega) (by omega))
    exact reads_componentWithin (by decide) (hlist.map _)
  | .alternatives branches weights, d + 1, hf, hd, hmax => by
    have hkind := length_number_pos 2
    simp only [Component.fault?, Option.or_eq_none_iff] at hf
    simp only [Write.component, List.length_append, List.append_assoc] at hd hmax ⊢
    have hlist := reads_items (by omega) (reads_components branches hf.2 (d := d) (by omega) (by omega))
    rw [← List.append_assoc (Write.number branches.length)]
    refine reads_componentWithin (by decide) (hlist.bind ((reads_weights ?_).last rfl))
    omega
  | .count body min max probability, d + 1, hf, hd, hmax => by
    have hkind := length_number_pos 4
    simp only [Component.fault?, Option.or_eq_none_iff] at hf
    obtain ⟨hmin, hmost⟩ := boundsFault?_eq_none hf.1
    have hsmall : min < NumberUse.small.limit := Nat.lt_of_le_of_lt hmin (by decide)
    simp only [Write.component, List.length_append, List.append_assoc] at hd hmax ⊢
    have hbody := reads_component body (d := d) hf.2.2 (by omega) (by omega)
    exact reads_componentWithin (by decide) (hbody.bind ((reads_number hsmall).bind
      ((reads_bound hmost).bind ((reads_option fun x _ => reads_single x).last rfl))))

theorem reads_components : ∀ (cs : List Component) {d : Nat}, Component.faultAmong? cs = none →
    (Write.components cs).length ≤ d → (Write.components cs).length ≤ maxMemory →
    ∀ c ∈ cs, Reads (componentWithin d) (Write.component c) c
  | [], _, _, _, _ => nofun
  | c :: cs, d, hf, hd, hmax => by
    simp only [Component.faultAmong?, Option.or_eq_none_iff] at hf
    simp only [Write.components, List.length_append] at hd hmax
    rw [List.forall_mem_cons]
    exact ⟨reads_component c hf.1 (by omega) (by omega), reads_components cs hf.2 (by omega) (by omega)⟩

end

/-! ## Entries and payloads -/

theorem reads_entry {e : Entry} (hf : e.rule.body.fault? = none) (h : (Write.entry e).length ≤ maxMemory) :
    Reads entry (Write.entry e) e := by
  simp only [Write.entry, List.length_append, List.append_assoc] at h ⊢
  -- a component is read with all bytes that are left as the limit of its depth
  have hbody : Reads component (Write.component e.rule.body) e.rule.body := fun rest =>
    reads_component e.rule.body hf (by rw [List.length_append]; omega) (by omega) rest
  exact (reads_text (by omega)).bind ((reads_flag _).bind ((reads_word _).bind ((reads_flag _).bind (hbody.last rfl))))

theorem reads_digest {digest : Option (List UInt8)} (h : ∀ d, digest = some d → d.length = 32) :
    Reads (option (times byte 32)) (Write.option id digest) digest := by
  refine reads_option fun d hd => ?_
  have hbytes : Reads (times byte d.length) (d.flatMap fun b => [b]) d := reads_times fun _ _ _ => rfl
  rwa [h d hd, List.flatMap_singleton'] at hbytes

theorem length_le_entries (es : List Entry) : es.length ≤ (es.flatMap Write.entry).length :=
  length_le_flatMap fun e _ => by
    have := length_component_pos e.rule.body
    simp only [Write.entry, List.length_append]
    omega

theorem reads_entries {es : List Entry} (hf : ∀ e ∈ es, e.rule.body.fault? = none)
    (h : (Write.list Write.entry es).length ≤ maxMemory) : Reads (list entry) (Write.list Write.entry es) es := by
  rw [Write.list, List.length_append] at h
  have hcount := length_le_entries es
  refine reads_list (by omega) fun e he => reads_entry (hf e he) ?_
  obtain ⟨before, after, rfl⟩ := List.append_of_mem he
  simp only [List.flatMap_append, List.flatMap_cons, List.length_append] at h
  omega

/-- **A payload is read back**, provided that the bodies of its rules have no fault and its digest has 32 bytes. -/
theorem reads_payload {p : Payload} (hrules : ∀ e ∈ p.rules, e.rule.body.fault? = none)
    (hcount : p.ruleCount = p.rules.length) (hdigest : ∀ d, p.digest = some d → d.length = 32)
    (h : (Write.payload p).length ≤ maxMemory) : Reads payload (Write.payload p) p := by
  simp only [Write.payload, List.length_append, List.append_assoc] at h ⊢
  have hentries : p.ruleCount ≤ (Write.list Write.entry p.rules).length := by
    rw [hcount, Write.list, List.length_append]
    exact Nat.le_add_left_of_le (length_le_entries p.rules)
  have hlarge : p.ruleCount < NumberUse.large.limit := Nat.lt_of_le_of_lt (m := maxMemory) (by omega) (by decide)
  refine (reads_text (by omega)).bind ((reads_optionText (by omega)).bind ((reads_word _).bind ?_))
  refine (reads_number hlarge).bind ((reads_digest hdigest).bind ?_)
  exact (reads_entries hrules (by omega)).bind ((reads_optionText (by omega)).bind ((reads_word _).last rfl))

end SpeechGrammar.Cache
