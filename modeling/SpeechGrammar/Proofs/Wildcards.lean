import SpeechGrammar.Match.Search
import SpeechGrammar.Proofs.Language

/-!
# Wildcards in lower case

A search compares words in lower case, and it looks for wildcards among the words in lower case too. Nothing else
becomes a wildcard there (**`lower_eq_wildcard_iff`**), so a search takes a spoken word for a word of the grammar just
when the two fit (**`fits_lower_iff`**).
-/

namespace SpeechGrammar

namespace Text

/-- A character is small already, or it becomes a small letter. -/
theorem toLower_eq_or (c : Char) : c.toLower = c ∨ 0x61 ≤ c.toLower.toNat := by
  unfold Char.toLower
  split
  · rename_i h
    right
    have h₁ : 65 ≤ c.val.toNat := UInt32.le_iff_toNat_le.mp h.1
    have h₂ : c.val.toNat ≤ 90 := UInt32.le_iff_toNat_le.mp h.2
    show 0x61 ≤ (c.val + 32).toNat
    rw [UInt32.toNat_add]
    show 97 ≤ (c.val.toNat + 32) % 2 ^ 32
    omega
  · exact .inl rfl

/-- No capital beyond ASCII has a small form among the first characters of ASCII. -/
theorem le_small_of_mem {row : CaseRow} (h : row ∈ capitalsLow ∨ row ∈ capitalsHigh) :
    0x41 ≤ row.first + row.shift := by
  have hlow : ∀ row ∈ capitalsLow, 0x41 ≤ row.first + row.shift := by decide +kernel
  have hhigh : ∀ row ∈ capitalsHigh, 0x41 ≤ row.first + row.shift := by decide +kernel
  exact h.elim (hlow row) (hhigh row)

theorem lowerFromTable_eq_or (c : Char) :
    lowerFromTable c = c ∨ ∃ n, 0x41 ≤ n ∧ lowerFromTable c = Char.ofNat n := by
  unfold lowerFromTable
  split
  · rename_i row hrow
    right
    refine ⟨_, ?_, rfl⟩
    have hmem : row ∈ capitalsLow ∨ row ∈ capitalsHigh := by
      have := List.mem_of_find?_eq_some hrow
      split at this
      · exact .inl this
      · exact .inr this
    have hle := le_small_of_mem hmem
    have hcovers := List.find?_some hrow
    simp only [CaseRow.covers, Bool.and_eq_true, decide_eq_true_eq] at hcovers
    have := hcovers.1.1
    omega
  · exact .inl rfl

/-- A sign of ASCII before the letters. -/
def IsSign (c : Char) : Prop := 0 < c.toNat ∧ c.toNat < 0x41

theorem ofNat_ne_sign {n : Nat} {d : Char} (hn : 0x41 ≤ n) (hd : IsSign d) : Char.ofNat n ≠ d := by
  rintro rfl
  obtain ⟨hpos, hlt⟩ := hd
  by_cases hvalid : n.isValidChar
  · rw [Char.ofNat, dif_pos hvalid] at hlt
    have : n < 0x41 := hlt
    omega
  · rw [Char.ofNat, dif_neg hvalid] at hpos
    exact absurd hpos (by decide)

theorem toLower_of_sign {c : Char} (hc : IsSign c) : c.toLower = c := by
  unfold Char.toLower
  rw [dif_neg]
  rintro ⟨h, -⟩
  have h₁ : 65 ≤ c.toNat := UInt32.le_iff_toNat_le.mp h
  have h₂ : c.toNat < 65 := hc.2
  omega

/-- Only the sign itself becomes a sign. -/
theorem lowerChar_eq_sign_iff {c d : Char} (hd : IsSign d) : lowerChar c = [d] ↔ c = d := by
  constructor
  · intro h
    unfold lowerChar at h
    split at h
    · have heq := List.head_eq_of_cons_eq h
      rcases toLower_eq_or c with hc | hc
      · exact hc.symm.trans heq
      · rw [heq] at hc
        have := hd.2
        omega
    · split at h
      · cases h
      · have heq := List.head_eq_of_cons_eq h
        rcases lowerFromTable_eq_or c with hc | ⟨n, hn, hc⟩
        · exact hc.symm.trans heq
        · exact absurd (hc.symm.trans heq) (ofNat_ne_sign hn hd)
  · rintro rfl
    have hlt := hd.2
    unfold lowerChar
    rw [if_pos (by omega), toLower_of_sign hd]

/-- What becomes of the first character is not nothing, and it is a sign only if the character is. -/
theorem lowerAfter_cons (before : List Char) (c : Char) (cs : List Char) {d : Char} (hd : IsSign d) :
    ∃ w, lowerAfter before (c :: cs) = w ++ lowerAfter (c :: before) cs ∧ w ≠ [] ∧ (w = [d] ↔ c = d) := by
  refine ⟨_, rfl, ?_, ?_⟩
  · unfold lowerChar
    split
    · exact List.cons_ne_nil _ _
    · split
      · exact List.cons_ne_nil _ _
      · split <;> exact List.cons_ne_nil _ _
  · split
    · rename_i hc
      have hsigma : lowerSigma before cs ≠ d := by
        unfold lowerSigma
        split <;> exact ofNat_ne_sign (by decide) hd
      have hne : c ≠ d := by
        rintro rfl
        have := hd.2
        omega
      simp [hsigma, hne]
    · exact lowerChar_eq_sign_iff hd

/-- Only the sign itself becomes a sign, also among other characters. -/
theorem lowerOf_eq_sign_iff {d : Char} (hd : IsSign d) : ∀ {cs : List Char}, lowerOf cs = [d] ↔ cs = [d]
  | [] => by simp [lowerOf, lowerAfter]
  | c :: cs => by
    obtain ⟨w, hw, hne, hsign⟩ := lowerAfter_cons [] c cs hd
    have hrest : lowerAfter [c] cs = [] ↔ cs = [] := by
      cases cs with
      | nil => simp [lowerAfter]
      | cons c' cs =>
        obtain ⟨w', hw', hne', -⟩ := lowerAfter_cons [c] c' cs hd
        rw [hw']
        simp [hne']
    unfold lowerOf
    rw [hw, List.append_eq_singleton_iff]
    simp [hne, hsign, hrest]

theorem lower_eq_sign_iff {s : String} {d : Char} (hd : IsSign d) :
    lower s = String.ofList [d] ↔ s = String.ofList [d] := by
  unfold lower
  rw [String.ofList_inj, lowerOf_eq_sign_iff hd, ← String.toList_inj, String.toList_ofList]

/-- **Nothing but a wildcard becomes a wildcard in lower case.** -/
theorem lower_eq_wildcard_iff {s : String} : lower s ∈ Search.wildcardWords ↔ s = "%" ∨ s = "*" := by
  have hpercent : IsSign '%' := by
    unfold IsSign
    decide
  have hstar : IsSign '*' := by
    unfold IsSign
    decide
  simp only [Search.wildcardWords, List.mem_cons, List.not_mem_nil, or_false]
  exact or_congr (lower_eq_sign_iff hpercent) (lower_eq_sign_iff hstar)

end Text

/-- **A search takes a spoken word for a word of the grammar just when it fits.** -/
theorem fits_lower_iff {wildcards : Bool} {word spoken : String} :
    Search.fits wildcards (Text.lower word) (Text.lower spoken) = true ↔ Fits wildcards word spoken := by
  unfold Search.fits Fits
  rw [Bool.or_eq_true, Bool.and_eq_true, beq_iff_eq, List.contains_iff_mem, Text.lower_eq_wildcard_iff]

end SpeechGrammar
