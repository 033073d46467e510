import SpeechGrammar.Proofs.GrammarText

/-!
# Parts of components

The parts of a component are the component itself and all components within it, however deep (`Component.parts`).
Whether a component is normal is decided by each part on its own (**`Component.normal_iff_forall_parts`**): by the
number of its items or branches, by its weights and its bounds, and by the characters of its text (`Component.Tidy`).
So each part of each body in a grammar text is tidy (**`Jsgf.Document.parse_tidy`**).
-/

namespace SpeechGrammar

namespace Text

variable {cs : List Char}

/-- Neither the first character nor the last one is blank. -/
def IsTrimmed (cs : List Char) : Prop :=
  (∀ c ∈ cs.head?, isBlank c = false) ∧ ∀ c ∈ cs.getLast?, isBlank c = false

theorem dropWhile_isBlank_eq_self_iff : cs.dropWhile isBlank = cs ↔ ∀ c ∈ cs.head?, isBlank c = false := by
  cases cs with
  | nil => simp
  | cons c cs => simp [List.dropWhile_eq_self_iff]

/-- Trimming leaves a text as it is just if the text is trimmed. -/
theorem trim_eq_self_iff : trim cs = cs ↔ IsTrimmed cs := by
  rw [IsTrimmed, ← List.head?_reverse, ← dropWhile_isBlank_eq_self_iff, ← dropWhile_isBlank_eq_self_iff]
  constructor
  · intro htrim
    have hprefix := prefix_of_trim cs
    rw [htrim] at hprefix
    have hfront : cs.dropWhile isBlank = cs := dropWhile_of_prefix cs hprefix
    rw [trim, hfront] at htrim
    exact ⟨hfront, List.reverse_eq_iff.mp htrim⟩
  · rintro ⟨hfront, hback⟩
    rw [trim, hfront, hback, List.reverse_reverse]

end Text

namespace Component

/-! ## Parts -/

mutual

/-- The component and all components within it, from left to right. -/
def parts : Component → List Component
  | .token text => [.token text]
  | .tag value => [.tag value]
  | .reference r => [.reference r]
  | .sequence items => .sequence items :: partsAmong items
  | .alternatives branches weights => .alternatives branches weights :: partsAmong branches
  | .count body min max probability => .count body min max probability :: parts body

/-- The components of a list and all components within them, from left to right. -/
def partsAmong : List Component → List Component
  | [] => []
  | c :: cs => parts c ++ partsAmong cs

end

/-- What holds of a component that comes out of a text, whatever holds of those within it. -/
def Tidy : Component → Prop
  | .token _ => True
  | .tag value => Text.IsTrimmed value.toList
  | .reference r => r.Normal
  | .sequence items => items = [] ∨ 2 ≤ items.length
  | .alternatives branches weights =>
    ((branches = [] ∧ weights = none) ∨ 2 ≤ branches.length ∨ ∃ c w, branches = [c] ∧ weights = some [w]) ∧
      ∀ ws ∈ weights, ws.length = branches.length ∧ ∀ w ∈ ws, w.IsWeight
  | .count _ min max probability =>
    ((min = 0 ∧ max = .finite 1) ∨ (min = 0 ∧ max = .indefinite) ∨ (min = 1 ∧ max = .indefinite)) ∧
      probability = none

theorem length_ne_one_iff {cs : List Component} : cs.length ≠ 1 ↔ cs = [] ∨ 2 ≤ cs.length := by
  rw [← List.length_eq_zero_iff]
  omega

theorem tidy_unweighted_iff {branches : List Component} :
    (alternatives branches none).Tidy ↔ branches.length ≠ 1 := by
  simp [Tidy, length_ne_one_iff]

theorem tidy_weighted_iff {branches : List Component} {weights : List Single} :
    (alternatives branches (some weights)).Tidy ↔
      branches ≠ [] ∧ weights.length = branches.length ∧ ∀ w ∈ weights, w.IsWeight := by
  simp only [Tidy, reduceCtorEq, and_false, false_or, Option.mem_some, forall_eq', Option.some.injEq]
  constructor
  · rintro ⟨hcount | ⟨c, w, rfl, rfl⟩, hweights⟩
    · exact ⟨List.ne_nil_of_length_pos (by omega), hweights⟩
    · exact ⟨by simp, hweights⟩
  · rintro ⟨hne, hlength, hweights⟩
    refine ⟨?_, hlength, hweights⟩
    obtain hone | hmore : branches.length = 1 ∨ 2 ≤ branches.length := by
      have hpos := List.length_pos_of_ne_nil hne
      omega
    · obtain ⟨c, rfl⟩ := List.length_eq_one_iff.mp hone
      obtain ⟨w, rfl⟩ := List.length_eq_one_iff.mp hlength
      exact .inr ⟨c, w, rfl, rfl⟩
    · exact .inl hmore

mutual

/-- **A component is normal if each of its parts is tidy**, and only then. -/
theorem normal_iff_forall_parts : ∀ {c : Component}, c.Normal ↔ ∀ d ∈ c.parts, d.Tidy
  | .token _ => by simp [Normal, parts, Tidy]
  | .tag _ => by simp [Normal, parts, Tidy, Text.trim_eq_self_iff]
  | .reference _ => by simp [Normal, parts, Tidy]
  | .sequence items => by
    rw [parts, List.forall_mem_cons, ← normalAll_iff_forall_partsAmong, Normal, Tidy, length_ne_one_iff]
  | .alternatives branches none => by
    rw [parts, List.forall_mem_cons, ← normalAll_iff_forall_partsAmong, Normal, tidy_unweighted_iff]
  | .alternatives branches (some weights) => by
    rw [parts, List.forall_mem_cons, ← normalAll_iff_forall_partsAmong, Normal, tidy_weighted_iff]
    simp only [and_assoc]
  | .count body _ _ _ => by
    rw [parts, List.forall_mem_cons, ← normal_iff_forall_parts, Normal, Tidy, and_assoc]

theorem normalAll_iff_forall_partsAmong : ∀ {cs : List Component}, NormalAll cs ↔ ∀ d ∈ partsAmong cs, d.Tidy
  | [] => by simp [NormalAll, partsAmong]
  | c :: cs => by
    rw [partsAmong, List.forall_mem_append, ← normal_iff_forall_parts, ← normalAll_iff_forall_partsAmong, NormalAll]

end

end Component

namespace Jsgf.Document

/-! ## Texts -/

/-- **In a grammar text the name of each rule can be read, and each part of each body is tidy**: no sequence has just
one item, a single branch has a weight, there is one weight for each branch or none at all, a repetition is one of three
and has no probability, and there is nothing in a tag or a reference that cannot be read there. -/
theorem parse_tidy {source : String} {doc : Document} (h : parse source = .ok doc) :
    ∀ rule ∈ doc.rules,
      (rule.name ≠ "" ∧ ∀ c ∈ rule.name.toList, Text.isBlank c = false ∧ c ∉ reserved ∧ c ≠ '.') ∧
        ∀ c ∈ rule.body.parts, c.Tidy := by
  intro rule hrule
  obtain ⟨⟨hne, hchars⟩, hbody⟩ := (normal_of_parse h).rules rule hrule
  refine ⟨⟨fun hname => hne (by simp [hname]), fun c hc => ?_⟩, Component.normal_iff_forall_parts.mp hbody⟩
  have hchar := hchars c hc
  simp only [isRuleNameChar, isBare, Bool.and_eq_true, Bool.not_eq_true', bne_iff_ne] at hchar
  obtain ⟨⟨hblank, hreserved⟩, hdot⟩ := hchar
  exact ⟨hblank, by simpa using hreserved, hdot⟩

/-- A rule with weights, brackets, a tag, references and repetitions of repetitions. -/
def torchText : String :=
  "#JSGF V1.0;\ngrammar torches;\npublic <go> = /2/ ((turn)) [on {ON } | <NULL>]*+ |" ++
    " /0.5/ <torch> <com.acme.torch>;\n<torch> = /1/ \"big one\" | /0/ <VOID>;\n"

theorem torchText_parse_tidy :
    ∃ doc, parse torchText = .ok doc ∧ (doc.rules.map fun rule => (rule.name, rule.body.parts.length)) =
        [("go", 14), ("torch", 3)] ∧
      ∀ rule ∈ doc.rules,
        (rule.name ≠ "" ∧ ∀ c ∈ rule.name.toList, Text.isBlank c = false ∧ c ∉ reserved ∧ c ≠ '.') ∧
          ∀ c ∈ rule.body.parts, c.Tidy := by
  have hread : (parse torchText).toOption.map (fun doc =>
      doc.rules.map fun rule => (rule.name, rule.body.parts.length)) = some [("go", 14), ("torch", 3)] := by
    decide +kernel
  obtain ⟨doc, hdoc, hrules⟩ := Option.map_eq_some_iff.mp hread
  cases hparse : parse torchText with
  | error e => rw [hparse] at hdoc; cases hdoc
  | ok doc' =>
    rw [hparse] at hdoc
    cases hdoc
    exact ⟨doc, rfl, hrules, parse_tidy hparse⟩

end Jsgf.Document

end SpeechGrammar
