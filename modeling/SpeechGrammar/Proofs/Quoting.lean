import SpeechGrammar.Proofs.Parts

/-!
# Texts between delimiters

Any text can be written as a token or as a tag, whatever characters it has, and it is read back, whatever follows
(**`Component.written_reread`**). A token of bare characters needs something after it that ends it; quotes and braces
end by themselves, since every delimiter and every backslash in the text has a backslash before it.

Escaping is two replacements: backslashes first, and then the delimiter (`replaceAll_eq_escape`). In the other order
the backslashes that escape delimiters would be escaped as well.
-/

namespace SpeechGrammar

namespace Text

/-- Trimming drops blank characters at the ends, and no other ones are left there. -/
theorem exists_append_trim (cs : List Char) : ∃ front back, cs = front ++ trim cs ++ back ∧
    (∀ c ∈ front, isBlank c = true) ∧ (∀ c ∈ back, isBlank c = true) ∧ IsTrimmed (trim cs) := by
  have hback : cs.dropWhile isBlank = trim cs ++ ((cs.dropWhile isBlank).reverse.takeWhile isBlank).reverse := by
    rw [trim, ← List.reverse_append, List.takeWhile_append_dropWhile, List.reverse_reverse]
  refine ⟨cs.takeWhile isBlank, ((cs.dropWhile isBlank).reverse.takeWhile isBlank).reverse, ?_, ?_, ?_,
    trim_eq_self_iff.mp (trim_trim cs)⟩
  · rw [List.append_assoc, ← hback, List.takeWhile_append_dropWhile]
  · exact fun c hc => List.mem_takeWhile_imp hc
  · exact fun c hc => List.mem_takeWhile_imp (List.mem_reverse.mp hc)

end Text

namespace Jsgf

variable {close : Char} {cs rest : List Char}

/-! ## Escaping as replacement -/

/-- The text with `new` in the place of each `old`. -/
def replaceAll (old : Char) (new cs : List Char) : List Char := cs.flatMap fun c => if c = old then new else [c]

theorem replaceAll_cons_self (old : Char) (new cs : List Char) :
    replaceAll old new (old :: cs) = new ++ replaceAll old new cs := by
  rw [replaceAll, List.flatMap_cons, if_pos rfl, replaceAll]

theorem replaceAll_cons_of_ne {old c : Char} (h : c ≠ old) (new cs : List Char) :
    replaceAll old new (c :: cs) = c :: replaceAll old new cs := by
  rw [replaceAll, List.flatMap_cons, if_neg h, List.singleton_append, replaceAll]

/-- A text is escaped when first its backslashes and then its delimiters get a backslash before them. -/
theorem replaceAll_eq_escape (hclose : close ≠ '\\') (cs : List Char) :
    replaceAll close ['\\', close] (replaceAll '\\' ['\\', '\\'] cs) = escape close cs := by
  induction cs with
  | nil => rfl
  | cons c cs ih =>
    rw [escape]
    by_cases hbackslash : c = '\\'
    · rw [hbackslash, replaceAll_cons_self, List.cons_append, List.singleton_append,
        replaceAll_cons_of_ne hclose.symm, replaceAll_cons_of_ne hclose.symm, ih, if_pos (.inr rfl)]
    · rw [replaceAll_cons_of_ne hbackslash]
      by_cases hdelimiter : c = close
      · rw [hdelimiter, replaceAll_cons_self, ih, if_pos (.inl rfl)]
        rfl
      · rw [replaceAll_cons_of_ne hdelimiter, ih, if_neg (not_or.mpr ⟨hdelimiter, hbackslash⟩)]

-- the backslash that escapes the brace is not to be escaped itself
example : replaceAll '\\' ['\\', '\\'] (replaceAll '}' ['\\', '}'] ['}']) ≠ escape '}' ['}'] := by decide

namespace Reader

/-! ## Reading what is written -/

theorem quoted_escape (cs rest : List Char) :
    quoted ('"' :: escape '"' cs ++ '"' :: rest) = .ok (.token (String.ofList cs), rest) := by
  have hclosed : closedBy '"' [] (escape '"' cs ++ '"' :: rest) = .ok (cs, rest) := by
    rw [closedBy, unescape_escape (by decide)]
  rw [quoted, List.cons_append, bind_of_ok (char_cons '"' _), bind_of_ok hclosed, pure_eq]

theorem tag_escape (cs rest : List Char) :
    tag ('{' :: escape '}' cs ++ '}' :: rest) = .ok (.tag (String.ofList (Text.trim cs)), rest) := by
  have hclosed : closedBy '}' [.closingBrace] (escape '}' cs ++ '}' :: rest) = .ok (cs, rest) := by
    rw [closedBy, unescape_escape (by decide)]
  rw [tag, List.cons_append, bind_of_ok (char_cons '{' _), bind_of_ok hclosed, pure_eq]

theorem bareToken_append (hne : cs ≠ []) (hcs : ∀ c ∈ cs, isBare c = true) (hrest : Stops isBare rest) :
    bareToken (cs ++ rest) = .ok (.token (String.ofList cs), rest) := by
  rw [bareToken, bind_of_ok (run_append hcs hne hrest), pure_eq]

end Reader

end Jsgf

namespace Component

open Jsgf (reserved isBare replaceAll escape)
open Jsgf.Reader (quoted bareToken Stops)

/-- The text needs no quotes as a token: it has characters, and none of them is blank or reserved. -/
def IsBareToken (cs : List Char) : Prop := cs ≠ [] ∧ ∀ c ∈ cs, Text.isBlank c = false ∧ c ∉ reserved

theorem isBare_iff {c : Char} : isBare c = true ↔ Text.isBlank c = false ∧ c ∉ reserved := by
  simp [isBare]

theorem isBareToken_iff {cs : List Char} : IsBareToken cs ↔ (!cs.isEmpty && cs.all isBare) = true := by
  simp [IsBareToken, isBare_iff]

theorem printToken_of_bare {cs : List Char} (h : IsBareToken cs) : printToken cs = cs :=
  if_pos (isBareToken_iff.mp h)

theorem printToken_of_not_bare {cs : List Char} (h : ¬IsBareToken cs) :
    printToken cs = '"' :: escape '"' cs ++ ['"'] :=
  if_neg fun hbare => h (isBareToken_iff.mpr hbare)

/-- **Tokens and tags are read as they were written**, whatever the text is and whatever follows. A token without quotes is
read back if the text ends after it or goes on with a character that is blank or reserved, and one in quotes always. A
tag, whose backslashes and closing braces were replaced one after the other, is read back without the blank characters
at its ends. -/
theorem written_reread (s : String) (rest : List Char) :
    (IsBareToken s.toList → printToken s.toList = s.toList ∧
      ((∀ c ∈ rest.head?, Text.isBlank c = true ∨ c ∈ reserved) →
        bareToken (printToken s.toList ++ rest) = .ok (.token s, rest))) ∧
    (¬IsBareToken s.toList → (∃ inner, printToken s.toList = '"' :: inner ++ ['"']) ∧
      quoted (printToken s.toList ++ rest) = .ok (.token s, rest)) ∧
    printTag s.toList = '{' :: replaceAll '}' ['\\', '}'] (replaceAll '\\' ['\\', '\\'] s.toList) ++ ['}'] ∧
    ∃ front middle back, s.toList = front ++ middle ++ back ∧ (∀ c ∈ front, Text.isBlank c = true) ∧
      (∀ c ∈ back, Text.isBlank c = true) ∧ Text.IsTrimmed middle ∧
      Jsgf.Reader.tag (printTag s.toList ++ rest) = .ok (.tag (String.ofList middle), rest) := by
  refine ⟨fun hbare => ?_, fun hquoted => ?_, ?_, ?_⟩
  · have hprint := printToken_of_bare hbare
    refine ⟨hprint, fun hrest => ?_⟩
    have hstops : Stops isBare rest := by
      rintro c cs rfl
      rcases hrest c rfl with hblank | hreserved
      · simp [isBare, hblank]
      · simp [isBare, hreserved]
    rw [hprint, Jsgf.Reader.bareToken_append hbare.1 (fun c hc => isBare_iff.mpr (hbare.2 c hc)) hstops,
      String.ofList_toList]
  · have hprint := printToken_of_not_bare hquoted
    refine ⟨⟨_, hprint⟩, ?_⟩
    rw [hprint, List.append_assoc, List.singleton_append, Jsgf.Reader.quoted_escape, String.ofList_toList]
  · rw [printTag, Jsgf.replaceAll_eq_escape (by decide)]
  · obtain ⟨front, back, hs, hfront, hback, htrimmed⟩ := Text.exists_append_trim s.toList
    refine ⟨front, _, back, hs, hfront, hback, htrimmed, ?_⟩
    rw [printTag, List.append_assoc, List.singleton_append, Jsgf.Reader.tag_escape]

end Component

end SpeechGrammar
