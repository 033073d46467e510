/-!
# Blank characters, words and trimming

A character is blank when it has the Unicode property White_Space. A text is divided at its blank characters into
words (`words`), and `trim` drops the blank characters at both of its ends. Only a text that is blank throughout has no
words (**`words_eq_nil_iff`**).
-/

namespace SpeechGrammar.Text

/-- The characters with the property White_Space. -/
def isBlank (c : Char) : Bool :=
  let n := c.toNat
  (9 ≤ n && n ≤ 13) || n == 0x20 || n == 0x85 || n == 0xA0 || n == 0x1680 || (0x2000 ≤ n && n ≤ 0x200A) ||
    n == 0x2028 || n == 0x2029 || n == 0x202F || n == 0x205F || n == 0x3000

/-! ## Words -/

/-- A finished word goes in front of the words after it, unless it is empty. -/
def consWord : List Char → List (List Char) → List (List Char)
  | [], ws => ws
  | w, ws => w :: ws

@[simp] theorem consWord_nil (ws : List (List Char)) : consWord [] ws = ws := rfl

@[simp] theorem consWord_cons (c : Char) (w : List Char) (ws : List (List Char)) :
    consWord (c :: w) ws = (c :: w) :: ws := rfl

/-- The characters up to the first blank one, and the words after them. -/
def leadingWord : List Char → List Char × List (List Char)
  | [] => ([], [])
  | c :: cs =>
    let (w, ws) := leadingWord cs
    if isBlank c then ([], consWord w ws) else (c :: w, ws)

/-- The longest stretches of characters that are not blank, in order. -/
def wordsOf (cs : List Char) : List (List Char) := consWord (leadingWord cs).1 (leadingWord cs).2

/-- The words of a text, in order. -/
def words (s : String) : List String := (wordsOf s.toList).map String.ofList

theorem leadingWord_eq_nil {cs : List Char} (h : ∀ c ∈ cs, isBlank c = true) : leadingWord cs = ([], []) := by
  induction cs with
  | nil => rfl
  | cons c cs ih =>
    simp [leadingWord, h c List.mem_cons_self, ih fun d hd => h d (List.mem_cons_of_mem _ hd)]

theorem wordsOf_eq_nil_iff {cs : List Char} : wordsOf cs = [] ↔ ∀ c ∈ cs, isBlank c = true := by
  constructor
  · intro h
    induction cs with
    | nil => simp
    | cons c cs ih =>
      by_cases hc : isBlank c = true
      · have hcs : wordsOf cs = [] := by simpa [wordsOf, leadingWord, hc] using h
        simpa [hc] using ih hcs
      · simp [wordsOf, leadingWord, hc] at h
  · intro h
    simp [wordsOf, leadingWord_eq_nil h]

/-- Only a text that is blank throughout has no words. -/
theorem words_eq_nil_iff {s : String} : words s = [] ↔ ∀ c ∈ s.toList, isBlank c = true := by
  rw [words, List.map_eq_nil_iff, wordsOf_eq_nil_iff]

/-! ## Trimming -/

/-- Without the blank characters at both ends. -/
def trim (cs : List Char) : List Char := ((cs.dropWhile isBlank).reverse.dropWhile isBlank).reverse

end SpeechGrammar.Text
