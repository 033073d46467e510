import SpeechGrammar.Numeric.Single
import Mathlib.Tactic.Ring
import Mathlib.Data.List.TakeWhile

/-!
# Reading numbers back

The text of a decimal is read as this decimal (`Decimal.read?_text`), and the decimal that is written for a number is
rounded to this number, whether it was found on one of the grids or is the number exactly
(`Single.magnitudeOf_shortest`). So the text of a finite number without a sign is read as this number
(**`Single.read?_text`**).
-/

namespace SpeechGrammar

namespace Decimal

variable {d : Decimal}

/-! ## Decimals -/

theorem ofDigitChars_zeros (n : Nat) (cs : List Char) :
    Nat.ofDigitChars 10 (List.replicate n '0' ++ cs) 0 = Nat.ofDigitChars 10 cs 0 := by
  induction n with
  | zero => rfl
  | succ n ih => rw [List.replicate_succ, List.cons_append, Nat.ofDigitChars_cons]; exact ih

theorem ofDigitChars_padded (d : Decimal) : Nat.ofDigitChars 10 d.padded 0 = d.digits := by
  rw [padded, ofDigitChars_zeros, Nat.ofDigitChars_toDigits (by decide) (by decide)]

theorem isDigit_of_mem_padded {c : Char} (hc : c ∈ d.padded) : c.isDigit = true := by
  rcases List.mem_append.mp hc with hc | hc
  · rw [(List.mem_replicate.mp hc).2]
    rfl
  · exact Nat.isDigit_of_mem_toDigits (by decide) (by decide) hc

theorem places_lt_length_padded (d : Decimal) : d.places < d.padded.length := by
  rw [padded, List.length_append, List.length_replicate]
  omega

/-- A text of digits is read as a whole number. -/
theorem read?_digits {cs : List Char} (hcs : ∀ c ∈ cs, c.isDigit = true) (hne : cs ≠ []) :
    read? cs = some ⟨Nat.ofDigitChars 10 cs 0, 0⟩ := by
  have htake : cs.takeWhile Char.isDigit = cs := List.takeWhile_eq_self_iff.mpr hcs
  have hdrop : cs.dropWhile Char.isDigit = [] := List.dropWhile_eq_nil_iff.mpr hcs
  simp [read?, htake, hdrop, hne]

/-- The places of a number are the digits after the point. -/
theorem read?_point {whole fraction : List Char} (hwhole : ∀ c ∈ whole, c.isDigit = true)
    (hfraction : ∀ c ∈ fraction, c.isDigit = true) (hne : whole ≠ []) :
    read? (whole ++ '.' :: fraction) = some ⟨Nat.ofDigitChars 10 (whole ++ fraction) 0, fraction.length⟩ := by
  have htake : (whole ++ '.' :: fraction).takeWhile Char.isDigit = whole := by
    rw [List.takeWhile_append_of_pos hwhole, List.takeWhile_cons_of_neg (by decide), List.append_nil]
  have hdrop : (whole ++ '.' :: fraction).dropWhile Char.isDigit = '.' :: fraction := by
    rw [List.dropWhile_append_of_pos hwhole, List.dropWhile_cons_of_neg (by decide)]
  have hall : fraction.all Char.isDigit = true := List.all_eq_true.mpr hfraction
  simp [read?, htake, hdrop, hall, hne]

/-- **The text of a decimal is read as this decimal.** -/
theorem read?_text (d : Decimal) : read? d.text = some d := by
  have hlength := d.places_lt_length_padded
  unfold text
  split
  · rename_i hplaces
    rw [read?_digits (fun c hc => isDigit_of_mem_padded hc) (List.ne_nil_of_length_pos (by omega)),
      ofDigitChars_padded, ← hplaces]
  · rw [read?_point (fun c hc => isDigit_of_mem_padded (List.mem_of_mem_take hc))
      (fun c hc => isDigit_of_mem_padded (List.mem_of_mem_drop hc)), List.take_append_drop, ofDigitChars_padded,
      List.length_drop, Nat.sub_sub_self hlength.le]
    refine List.ne_nil_of_length_pos ?_
    rw [List.length_take]
    omega

/-- The text of a decimal has digits and perhaps a point, and it starts with a digit. -/
theorem text_chars (d : Decimal) :
    (∀ c ∈ d.text, c.isDigit = true ∨ c = '.') ∧ ∃ c cs, d.text = c :: cs ∧ c.isDigit = true := by
  have hlength := d.places_lt_length_padded
  obtain ⟨c, cs, hpadded⟩ := List.exists_cons_of_length_pos (Nat.zero_lt_of_lt hlength)
  have hc : c.isDigit = true := isDigit_of_mem_padded (hpadded ▸ List.mem_cons_self)
  unfold text
  split
  · exact ⟨fun c hc => .inl (isDigit_of_mem_padded hc), c, cs, hpadded, hc⟩
  · constructor
    · intro c hc
      rcases List.mem_append.mp hc with hc | hc
      · exact .inl (isDigit_of_mem_padded (List.mem_of_mem_take hc))
      · rcases List.mem_cons.mp hc with rfl | hc
        · exact .inr rfl
        · exact .inl (isDigit_of_mem_padded (List.mem_of_mem_drop hc))
    · obtain ⟨n, hn⟩ : ∃ n, d.padded.length - d.places = n + 1 := ⟨d.padded.length - d.places - 1, by omega⟩
      refine ⟨c, cs.take n ++ '.' :: (c :: cs).drop (n + 1), ?_, hc⟩
      dsimp only
      rw [hn, hpadded, List.take_succ_cons, List.cons_append]

end Decimal

namespace Single

variable {m : Nat} {x : Single}

/-! ## Rounding -/

theorem roundHalfEven_mul (a : Nat) {b : Nat} (hb : 0 < b) : roundHalfEven (a * b) b = a := by
  have hq : a * b / b = a := Nat.mul_div_cancel a hb
  have hr : a * b % b = 0 := Nat.mul_mod_left a b
  simp only [roundHalfEven, hq, hr]
  rw [if_neg (by omega)]

/-- The steps of a magnitude without its exponent, and the exponent. -/
theorem steps_eq (hm : 2 ^ 23 ≤ m) :
    ∃ e, steps m = (2 ^ 23 + m % 2 ^ 23) * 2 ^ e ∧ m = e * 2 ^ 23 + (2 ^ 23 + m % 2 ^ 23) := by
  refine ⟨m / 2 ^ 23 - 1, ?_, by omega⟩
  rw [steps, if_neg (by omega)]
  rfl

/-- A finite number is the nearest one to itself, whatever it is multiplied and divided by. -/
theorem nearest_exact (hm : m < infinite) {k : Nat} (hk : 0 < k) :
    nearest (steps m * k) (2 ^ 149 * k) = m := by
  have hscaled : steps m * k * 2 ^ 149 = steps m * (2 ^ 149 * k) := by ring
  have hden : 0 < 2 ^ 149 * k := Nat.mul_pos (Nat.two_pow_pos 149) hk
  have hlog : (steps m * k * 2 ^ 149 / (2 ^ 149 * k)).log2 = (steps m).log2 := by
    rw [hscaled, Nat.mul_div_cancel _ hden]
  have hnearest : nearest (steps m * k) (2 ^ 149 * k) = min infinite (((steps m).log2 - 23) * 2 ^ 23 +
      roundHalfEven (steps m * (2 ^ 149 * k)) (2 ^ 149 * k * 2 ^ ((steps m).log2 - 23))) := by
    rw [← hlog, ← hscaled]
    rfl
  rw [hnearest]
  by_cases hsmall : m < 2 ^ 23
  · -- subnormal numbers and those of the first exponent are their own steps
    have hsteps : steps m = m := if_pos hsmall
    have hshift : (steps m).log2 - 23 = 0 := by
      rcases Nat.eq_zero_or_pos m with rfl | hpos
      · rfl
      · have hlt := (Nat.log2_lt (Nat.ne_of_gt hpos)).mpr hsmall
        rw [hsteps]
        omega
    rw [hshift]
    simp only [Nat.zero_mul, Nat.zero_add, Nat.pow_zero, Nat.mul_one, roundHalfEven_mul _ hden, hsteps]
    exact Nat.min_eq_right hm.le
  · obtain ⟨e, hsteps, heq⟩ := steps_eq (Nat.le_of_not_lt hsmall)
    have hshift : (steps m).log2 - 23 = e := by
      have hpow : 0 < 2 ^ e := Nat.two_pow_pos e
      have hlow : 2 ^ 23 * 2 ^ e ≤ steps m := hsteps ▸ Nat.mul_le_mul_right _ (by omega)
      have hhigh : steps m < 2 ^ 24 * 2 ^ e := hsteps ▸ (Nat.mul_lt_mul_right hpow).mpr (by omega)
      rw [(Nat.log2_eq_iff (k := 23 + e) (by omega)).mpr ⟨Nat.pow_add 2 23 e ▸ hlow, ?_⟩]
      · omega
      · rwa [show 23 + e + 1 = 24 + e by omega, Nat.pow_add]
    have hproduct : (2 ^ 23 + m % 2 ^ 23) * 2 ^ e * (2 ^ 149 * k) =
        (2 ^ 23 + m % 2 ^ 23) * (2 ^ 149 * k * 2 ^ e) := by ring
    rw [hshift, hsteps, hproduct, roundHalfEven_mul _ (Nat.mul_pos hden (Nat.two_pow_pos e)), ← heq]
    exact Nat.min_eq_right hm.le

theorem magnitudeOf_exactly (hm : m < infinite) : magnitudeOf (exactly m) = m := by
  have h := nearest_exact hm (k := 5 ^ 149) (Nat.pow_pos (by decide))
  rw [← Nat.mul_pow] at h
  exact h

theorem magnitudeOf_onGrid {g : Grid} {d : Decimal} (h : onGrid m g = some d) : magnitudeOf d = m := by
  unfold onGrid at h
  dsimp only at h
  split at h
  · rename_i hbelow
    cases h
    exact hbelow.1
  · split at h
    · rename_i habove
      cases h
      exact habove
    · cases h

/-- The decimal that is written for a finite number is rounded to it. -/
theorem magnitudeOf_shortest (hm : m < infinite) : magnitudeOf (shortest m) = m := by
  unfold shortest
  cases h : grids.findSome? (onGrid m) with
  | none => exact magnitudeOf_exactly hm
  | some d =>
    obtain ⟨g, -, hg⟩ := List.exists_of_findSome?_eq_some h
    exact magnitudeOf_onGrid hg

/-! ## Numbers -/

theorem magnitude_eq_of_unsigned (hx : x.signed = false) : x.magnitude = x.bits.toNat := by
  simp only [signed, decide_eq_false_iff_not, Nat.not_le] at hx
  exact Nat.mod_eq_of_lt hx

theorem isNaN_of_isFinite (hfinite : x.isFinite = true) : x.isNaN = false := by
  have hlt : x.magnitude < infinite := of_decide_eq_true hfinite
  exact decide_eq_false (Nat.lt_asymm hlt)

/-- What is written for a finite number without a sign. -/
theorem text_eq (hx : x.signed = false) (hfinite : x.isFinite = true) : x.text = (shortest x.magnitude).text := by
  unfold text
  rw [isNaN_of_isFinite hfinite, hfinite, hx, if_neg Bool.false_ne_true, if_neg Bool.false_ne_true, if_pos rfl]
  exact List.nil_append _

/-- What is written for a finite number with a sign. -/
theorem text_of_signed (hx : x.signed = true) (hfinite : x.isFinite = true) : ∃ cs, x.text = '-' :: cs := by
  unfold text
  rw [isNaN_of_isFinite hfinite, hx, if_neg Bool.false_ne_true, if_pos rfl]
  exact ⟨_, List.singleton_append⟩

/-- **The text of a finite number without a sign is read as this number.** -/
theorem read?_text (hx : x.signed = false) (hfinite : x.isFinite = true) :
    (Decimal.read? x.text).map ofDecimal = some x := by
  have hshortest : magnitudeOf (shortest x.magnitude) = x.magnitude :=
    magnitudeOf_shortest (of_decide_eq_true hfinite)
  rw [text_eq hx hfinite, Decimal.read?_text, Option.map_some, ofDecimal, hshortest, magnitude_eq_of_unsigned hx,
    Nat.toUInt32_eq, UInt32.ofNat_toNat]

/-- The text of such a number has digits and perhaps a point, and it starts with a digit. -/
theorem text_chars (hx : x.signed = false) (hfinite : x.isFinite = true) :
    (∀ c ∈ x.text, c.isDigit = true ∨ c = '.') ∧ ∃ c cs, x.text = c :: cs ∧ c.isDigit = true := by
  rw [text_eq hx hfinite]
  exact (shortest x.magnitude).text_chars

end Single

end SpeechGrammar
