import SpeechGrammar.Proofs.Expansions
import SpeechGrammar.Proofs.NumberText
import Mathlib.Data.List.Forall2

/-!
# Reading components back

What is read where a component is written (`Component.reread`). A component is written without parentheses if it is an
item of a sequence and not a choice, so there may be several items in its place (`Component.items`), and a repetition
is written as a sequence of its parts. Tags are trimmed, and a single branch without a weight is just itself.

An expansion that is written is read as `reread` says, whatever follows, as long as it closes the expansion
(**`Reader.expansion_print`**).
-/

namespace SpeechGrammar

open Jsgf.Reader (oneOrSequence)

/-- The reference is read as itself. -/
structure Reference.Readable (r : Reference) : Prop where
  nonempty : r.inner ≠ []
  chars : ∀ c ∈ r.inner, Jsgf.isReferenceChar c = true
  named : Jsgf.Reader.namedComponent r.inner = .reference r

namespace Component

/-! ## What is read -/

/-- Items, or the rule that takes nothing if there are none. -/
def orNull : List Component → List Component
  | [] => [.sequence []]
  | cs => cs

/-- What is read for the parts of a repetition. -/
def repetitionItems (c : Component) (min : Nat) : Bound → List Component
  | .indefinite => List.replicate (min - 1) c ++ [if min = 0 then c.zeroOrMore else c.oneOrMore]
  | .finite max => List.replicate min c ++ List.replicate (max - min) c.optional

/-- What is read for branches. -/
def choice : List Component → Option (List Single) → Component
  | [], _ => .alternatives [] none
  | [c], none => c
  | cs, weights => .alternatives cs weights

mutual

/-- The items that are read in place of a component. -/
def items : Component → List Component
  | .token text => [.token text]
  | .tag value => [.tag (String.ofList (Text.trim value.toList))]
  | .reference r => [.reference r]
  | .sequence cs => orNull (itemsAll cs)
  | .alternatives branches weights => [choice (rereadAll branches) weights]
  | .count body min max _ => orNull (repetitionItems (oneOrSequence (items body)) min max)

/-- The items that are read in place of several components. -/
def itemsAll : List Component → List Component
  | [] => []
  | c :: cs => items c ++ itemsAll cs

/-- What is read for each of several components. -/
def rereadAll : List Component → List Component
  | [] => []
  | c :: cs => oneOrSequence (items c) :: rereadAll cs

end

/-- What is read where a component is written. -/
def reread (c : Component) : Component := oneOrSequence c.items

mutual

/-- All references and weights are read as themselves. -/
def Readable : Component → Prop
  | .token _ => True
  | .tag _ => True
  | .reference r => r.Readable
  | .sequence cs => ReadableAll cs
  | .alternatives branches weights =>
    (∀ ws, weights = some ws →
      ws.length = branches.length ∧ ∀ w ∈ ws, w.signed = false ∧ w.isFinite = true) ∧ ReadableAll branches
  | .count body _ _ _ => Readable body

/-- All references and weights are read as themselves. -/
def ReadableAll : List Component → Prop
  | [] => True
  | c :: cs => Readable c ∧ ReadableAll cs

end

variable {c : Component} {cs : List Component}

/-- Weights without fault. -/
theorem weights_of_weightsFault? {branches : Nat} {weights : Option (List Single)}
    (h : weightsFault? branches weights = none) :
    ∀ ws, weights = some ws → ws.length = branches ∧ ∀ w ∈ ws, w.isFinite = true ∧ w.isNegative = false := by
  rintro ws rfl
  simp only [weightsFault?] at h
  split at h
  · cases h
  · rename_i hlength
    refine ⟨not_not.mp hlength, fun w hw => ?_⟩
    split at h
    · cases h
    · rename_i hany
      have hvalue := List.any_eq_false.mp (Bool.not_eq_true _ ▸ hany) w hw
      simpa only [Bool.or_eq_true, Bool.not_eq_true', not_or, Bool.not_eq_false, Bool.not_eq_true] using hvalue

theorem orNull_of_ne_nil (h : cs ≠ []) : orNull cs = cs := by
  cases cs with
  | nil => exact absurd rfl h
  | cons c cs => rfl

theorem choice_plain (h : cs.length ≠ 1) : choice cs none = .alternatives cs none := by
  match cs, h with
  | [], _ => rfl
  | _ :: _ :: _, _ => rfl

theorem choice_weighted (h : cs ≠ []) (ws : List Single) : choice cs (some ws) = .alternatives cs (some ws) := by
  match cs, h with
  | [_], _ => rfl
  | _ :: _ :: _, _ => rfl

theorem rereadAll_eq : rereadAll cs = cs.map reread := by
  induction cs with
  | nil => rfl
  | cons c cs ih => rw [rereadAll, ih, List.map_cons, reread]

theorem itemsAll_eq : itemsAll cs = cs.flatMap items := by
  induction cs with
  | nil => rfl
  | cons c cs ih => rw [itemsAll, ih, List.flatMap_cons]

theorem printAll_eq : printAll cs = cs.map fun c => parenthesize c.isAlternatives c.print := by
  induction cs with
  | nil => rfl
  | cons c cs ih => rw [printAll, ih, List.map_cons]

end Component

namespace Jsgf.Reader

open Component (items reread Readable ReadableAll)

variable {inner : Reader Component} {s t cs rest : List Char} {c : Component}

/-! ## Units -/

theorem refuses_char_cons {c d : Char} (h : d ≠ c) (s : List Char) : Refuses (char c) (d :: s) :=
  refuses_char fun heq => h (Option.some.inj heq)

theorem enclosed_of_ok {opening closing : Char} (h : inner s = .ok (c, t))
    (hlayout : layout t = .ok ((), closing :: rest)) :
    enclosed opening closing inner (opening :: s) = .ok (c, rest) := by
  rw [enclosed, bind_of_ok (char_cons opening s), bind_of_ok (cut_of_ok h), bind_of_ok hlayout,
    bind_of_ok (cut_of_ok (char_cons closing rest)), pure_eq]

theorem refuses_enclosed {opening closing d : Char} (h : d ≠ opening) (s : List Char) :
    Refuses (enclosed opening closing inner) (d :: s) := (refuses_char_cons h s).bind

theorem refuses_reference {d : Char} (h : d ≠ '<') (s : List Char) : Refuses reference (d :: s) :=
  (refuses_char_cons h s).bind.expecting

theorem refuses_tag {d : Char} (h : d ≠ '{') (s : List Char) : Refuses tag (d :: s) := (refuses_char_cons h s).bind

theorem refuses_quoted {d : Char} (h : d ≠ '"') (s : List Char) : Refuses quoted (d :: s) :=
  (refuses_char_cons h s).bind

theorem unit_group (h : inner s = .ok (c, t)) (hlayout : layout t = .ok ((), ')' :: rest)) :
    unit inner ('(' :: s) = .ok (c, rest) := orElse_of_ok (enclosed_of_ok h hlayout)

theorem unit_bracket (h : inner s = .ok (c, t)) (hlayout : layout t = .ok ((), ']' :: rest)) :
    unit inner ('[' :: s) = .ok (c.optional, rest) := by
  rw [unit, orElse_of_refuses (refuses_enclosed (by decide) s)]
  exact orElse_of_ok (map_of_ok (enclosed_of_ok h hlayout))

theorem unit_name (hne : cs ≠ []) (hcs : ∀ c ∈ cs, isReferenceChar c = true) (rest : List Char) :
    unit inner ('<' :: (cs ++ '>' :: rest)) = .ok (namedComponent cs, rest) := by
  have hrun := run_append hcs hne (stops_cons (c := '>') (by decide) rest)
  rw [unit, orElse_of_refuses (refuses_enclosed (by decide) _), orElse_of_refuses (refuses_enclosed (by decide) _).map]
  refine orElse_of_ok (expecting_of_ok ?_)
  rw [bind_of_ok (char_cons '<' _), bind_of_ok (cut_of_ok hrun), bind_of_ok (cut_of_ok (char_cons '>' rest)), pure_eq]

theorem unit_tag (h : unescape '}' s = .ok (cs, rest)) :
    unit inner ('{' :: s) = .ok (.tag (String.ofList (Text.trim cs)), rest) := by
  have hclosed : closedBy '}' [.closingBrace] s = .ok (cs, rest) := by rw [closedBy, h]
  rw [unit, orElse_of_refuses (refuses_enclosed (by decide) _), orElse_of_refuses (refuses_enclosed (by decide) _).map,
    orElse_of_refuses (refuses_reference (by decide) _)]
  refine orElse_of_ok ?_
  rw [tag, bind_of_ok (char_cons '{' _), bind_of_ok hclosed, pure_eq]

theorem unit_quoted (h : unescape '"' s = .ok (cs, rest)) :
    unit inner ('"' :: s) = .ok (.token (String.ofList cs), rest) := by
  have hclosed : closedBy '"' [] s = .ok (cs, rest) := by rw [closedBy, h]
  rw [unit, orElse_of_refuses (refuses_enclosed (by decide) _), orElse_of_refuses (refuses_enclosed (by decide) _).map,
    orElse_of_refuses (refuses_reference (by decide) _),
    orElse_of_refuses (refuses_tag (by decide) _)]
  refine orElse_of_ok ?_
  rw [quoted, bind_of_ok (char_cons '"' _), bind_of_ok hclosed, pure_eq]

/-- A character that no unit other than a bare token starts with. -/
def opensUnit (c : Char) : Bool := ['(', '[', '<', '{', '"'].contains c

theorem unit_of_not_opensUnit {d : Char} (hd : opensUnit d = false) (s : List Char) :
    unit inner (d :: s) = bareToken (d :: s) := by
  simp only [opensUnit, List.contains_eq_mem, decide_eq_false_iff_not, List.mem_cons, List.not_mem_nil, or_false,
    not_or] at hd
  obtain ⟨hgroup, hbracket, hname, htag, hquote⟩ := hd
  rw [unit, orElse_of_refuses (refuses_enclosed hgroup _), orElse_of_refuses (refuses_enclosed hbracket _).map,
    orElse_of_refuses (refuses_reference hname _), orElse_of_refuses (refuses_tag htag _),
    orElse_of_refuses (refuses_quoted hquote _)]

theorem unit_bare (hne : cs ≠ []) (hcs : ∀ c ∈ cs, isBare c = true) (hrest : Stops isBare rest) :
    unit inner (cs ++ rest) = .ok (.token (String.ofList cs), rest) := by
  obtain ⟨d, ds, rfl⟩ := List.exists_cons_of_ne_nil hne
  have hd : opensUnit d = false := by
    have hbare := hcs d List.mem_cons_self
    simp only [isBare, Bool.and_eq_true, Bool.not_eq_true', List.contains_eq_mem, decide_eq_false_iff_not] at hbare
    have hsub : ['(', '[', '<', '{', '"'] ⊆ reserved := by decide
    simp only [opensUnit, List.contains_eq_mem, decide_eq_false_iff_not]
    exact fun hmem => hbare.2 (hsub hmem)
  rw [List.cons_append, unit_of_not_opensUnit hd, ← List.cons_append, bareToken,
    bind_of_ok (run_append hcs hne hrest), pure_eq]

/-- No unit starts with such a character. -/
theorem refuses_unit {d : Char} (hopens : opensUnit d = false) (hbare : isBare d = false) (s : List Char) :
    Refuses (unit inner) (d :: s) := by
  rw [Refuses, unit_of_not_opensUnit hopens]
  exact (refuses_run (stops_cons hbare s)).bind

/-! ## Items -/

/-- What may follow an item of a sequence: neither more of a bare token nor a postfix operator. -/
structure Apart (s : List Char) : Prop where
  bare : Stops isBare s
  star : s.head? ≠ some '*'
  plus : s.head? ≠ some '+'

theorem apart_cons {d : Char} (hbare : isBare d = false) (hstar : d ≠ '*') (hplus : d ≠ '+') (s : List Char) :
    Apart (d :: s) := ⟨stops_cons hbare s, by simpa using hstar, by simpa using hplus⟩

theorem refuses_postfixOperator (hstar : s.head? ≠ some '*') (hplus : s.head? ≠ some '+') : Refuses postfixOperator s :=
  (refuses_char hstar).seqRight.orElse (refuses_char hplus).seqRight

theorem Apart.refuses (h : Apart rest) : Refuses postfixOperator rest := refuses_postfixOperator h.star h.plus

theorem operator_cons {operator : Char} (h : operator = '*' ∨ operator = '+') (rest : List Char) :
    postfixOperator (operator :: rest) = .ok (operator, rest) := by
  rcases h with rfl | rfl
  · exact orElse_of_ok ((seqRight_of_ok (char_cons '*' rest)).trans rfl)
  · rw [postfixOperator, orElse_of_refuses (refuses_char_cons (by decide) rest).seqRight]
    exact (seqRight_of_ok (char_cons '+' rest)).trans rfl

theorem repetition_of_unit (hs : unit inner s = .ok (c, rest)) (hrest : Apart rest) :
    repetition inner s = .ok (c, rest) := by
  rw [repetition, bind_of_ok hs, bind_of_ok (many_of_chain takes_postfixOperator (.nil rest) hrest.refuses), pure_eq]
  rfl

theorem repetition_of_operator {operator : Char} (hs : unit inner s = .ok (c, operator :: rest))
    (hoperator : operator = '*' ∨ operator = '+') (hrest : Apart rest) :
    repetition inner s = .ok (applyPostfix c operator, rest) := by
  have hchain := Chain.cons (operator_cons hoperator rest) (.nil rest)
  rw [repetition, bind_of_ok hs, bind_of_ok (many_of_chain takes_postfixOperator hchain hrest.refuses), pure_eq]
  rfl

/-- The text of something that layout may stand before and that has no weight. -/
def Starts (s : List Char) : Prop := ∃ d ds, s = d :: ds ∧ Text.isBlank d = false ∧ d ≠ '/'

theorem Starts.solid (h : Starts s) (rest : List Char) : Solid (s ++ rest) := by
  obtain ⟨d, ds, rfl, hblank, hslash⟩ := h
  exact solid_cons hblank hslash (ds ++ rest)

variable {x : Component} {xs ys : List Component}

theorem item_of_repetition (hsolid : Solid s) (h : repetition inner s = .ok (c, rest)) :
    (layout *> repetition inner) s = .ok (c, rest) := (seqRight_of_ok (layout_solid hsolid)).trans h

/-- A space before an item is passed over. -/
theorem item_space (hsolid : Solid s) : (layout *> repetition inner) (' ' :: s) = (layout *> repetition inner) s :=
  (seqRight_of_ok (layout_space hsolid)).trans (seqRight_of_ok (layout_solid hsolid)).symm

theorem chain_space (hsolid : Solid s) (h : Chain (layout *> repetition inner) s xs rest) (hne : xs ≠ []) :
    Chain (layout *> repetition inner) (' ' :: s) xs rest := by
  cases h with
  | nil => exact absurd rfl hne
  | cons hx h => exact .cons ((item_space hsolid).trans hx) h

/-- The text is read as a unit, whatever follows. -/
structure ReadsUnit (inner : Reader Component) (text : List Char) (x : Component) : Prop where
  starts : Starts text
  unit : ∀ rest, Stops isBare rest → Reader.unit inner (text ++ rest) = .ok (x, rest)

/-- The text is read as items of a sequence, whatever follows. -/
structure ReadsItems (inner : Reader Component) (text : List Char) (xs : List Component) : Prop where
  starts : Starts text
  nonempty : xs ≠ []
  chain : ∀ rest, Apart rest → Chain (layout *> repetition inner) (text ++ rest) xs rest

theorem Starts.append (h : Starts s) (t : List Char) : Starts (s ++ t) := by
  obtain ⟨d, ds, rfl, hd⟩ := h
  exact ⟨d, ds ++ t, rfl, hd⟩

theorem ReadsUnit.items (h : ReadsUnit inner s x) : ReadsItems inner s [x] :=
  ⟨h.starts, nofun, fun rest hrest =>
    .cons (item_of_repetition (h.starts.solid rest) (repetition_of_unit (h.unit rest hrest.bare) hrest)) (.nil rest)⟩

theorem ReadsUnit.repeated (h : ReadsUnit inner s x) {operator : Char} (hoperator : operator = '*' ∨ operator = '+') :
    ReadsItems inner (s ++ [operator]) [applyPostfix x operator] := by
  refine ⟨h.starts.append _, nofun, fun rest hrest => .cons ?_ (.nil rest)⟩
  have hbare : isBare operator = false := by rcases hoperator with rfl | rfl <;> decide
  rw [List.append_assoc]
  exact item_of_repetition (h.starts.solid _)
    (repetition_of_operator (h.unit _ (stops_cons hbare rest)) hoperator hrest)

/-- Items of several texts with spaces between them. -/
theorem readsItems_intercalate {texts : List (List Char)} {xss : List (List Component)}
    (h : List.Forall₂ (ReadsItems inner) texts xss) (hne : texts ≠ []) :
    ReadsItems inner ([' '].intercalate texts) xss.flatten := by
  induction h with
  | nil => exact absurd rfl hne
  | @cons text xs texts xss htext htexts ih =>
    cases htexts with
    | nil => simpa using htext
    | cons hnext htexts =>
      have hmore := ih nofun
      rw [List.intercalate_cons_cons, List.append_assoc, List.flatten_cons]
      refine ⟨htext.starts.append _, by simp [htext.nonempty], fun rest hrest => ?_⟩
      rw [List.append_assoc, List.append_assoc]
      refine (htext.chain _ (apart_cons (by decide) (by decide) (by decide) _)).append ?_
      exact chain_space (hmore.starts.solid rest) (hmore.chain rest hrest) hmore.nonempty

/-! ## Sequences and branches -/

/-- The text after an expansion. -/
def Closes (s : List Char) : Prop := ∃ d ds, s = d :: ds ∧ d ∈ [')', ']', ';']

/-- The text after a branch. -/
def Ends (s : List Char) : Prop := Closes s ∨ ∃ t, s = ' ' :: '|' :: t

theorem closes_cons {d : Char} (h : d ∈ [')', ']', ';']) (s : List Char) : Closes (d :: s) := ⟨d, s, rfl, h⟩

/-- A closing character is neither layout nor part of an expansion. -/
theorem closing_facts {d : Char} (h : d ∈ [')', ']', ';']) :
    (Text.isBlank d = false ∧ d ≠ '/') ∧ (isBare d = false ∧ d ≠ '*' ∧ d ≠ '+') ∧ opensUnit d = false ∧ d ≠ '|' := by
  simp only [List.mem_cons, List.not_mem_nil, or_false] at h
  rcases h with rfl | rfl | rfl <;> decide

theorem Ends.apart (h : Ends rest) : Apart rest := by
  rcases h with ⟨d, ds, rfl, hd⟩ | ⟨t, rfl⟩
  · obtain ⟨-, ⟨hbare, hstar, hplus⟩, -⟩ := closing_facts hd
    exact apart_cons hbare hstar hplus ds
  · exact apart_cons (by decide) (by decide) (by decide) _

theorem Closes.solid (h : Closes rest) : Solid rest := by
  obtain ⟨d, ds, rfl, hd⟩ := h
  obtain ⟨⟨hblank, hslash⟩, -⟩ := closing_facts hd
  exact solid_cons hblank hslash ds

theorem Ends.refuses (h : Ends rest) : Refuses (layout *> repetition inner) rest := by
  rcases h with h | ⟨t, rfl⟩
  · refine refuses_seqRight_of_ok (layout_solid h.solid) ?_
    obtain ⟨d, ds, rfl, hd⟩ := h
    obtain ⟨-, ⟨hbare, -⟩, hopens, -⟩ := closing_facts hd
    exact (refuses_unit hopens hbare ds).bind
  · refine refuses_seqRight_of_ok (layout_space (solid_cons (by decide) (by decide) t)) ?_
    exact (refuses_unit (by decide) (by decide) t).bind

theorem sequence_of_chain (hinner : Takes inner 0) (h : Chain (layout *> repetition inner) s xs rest) (hne : xs ≠ [])
    (hrest : Refuses (layout *> repetition inner) rest) : sequence inner s = .ok (oneOrSequence xs, rest) := by
  rw [sequence, bind_of_ok (expecting_of_ok (atLeastOnce_of_chain (takes_item hinner) h hne hrest)), pure_eq]

theorem Starts.refuses_weight (h : Starts s) (rest : List Char) : Refuses weight (s ++ rest) := by
  obtain ⟨d, ds, rfl, -, hslash⟩ := h
  exact (refuses_char_cons hslash _).bind

/-- The text is read as a branch, whatever follows. -/
structure ReadsBranch (inner : Reader Component) (text : List Char) (x : Option Single × Component) : Prop where
  solid : ∀ rest, Solid (text ++ rest)
  branch : ∀ rest, Ends rest → Reader.branch inner (text ++ rest) = .ok (x, rest)

theorem ReadsItems.branch (hinner : Takes inner 0) (h : ReadsItems inner s xs) :
    ReadsBranch inner s (none, oneOrSequence xs) := by
  refine ⟨h.starts.solid, fun rest hrest => ?_⟩
  rw [Reader.branch, bind_of_ok (layout_solid (h.starts.solid rest)),
    bind_of_ok (optionally_of_refuses (h.starts.refuses_weight rest)),
    bind_of_ok (sequence_of_chain hinner (h.chain rest hrest.apart) h.nonempty hrest.refuses), pure_eq]

theorem weight_of_read? {d : Decimal} (hcs : ∀ c ∈ cs, isWeightChar c = true) (hne : cs ≠ [])
    (hd : Decimal.read? cs = some d) (rest : List Char) :
    weight ('/' :: (cs ++ '/' :: rest)) = .ok (Single.ofDecimal d, rest) := by
  have hvalue : weightValue (cs ++ '/' :: rest) = .ok (Single.ofDecimal d, '/' :: rest) := by
    rw [weightValue, bind_of_ok (run_append hcs hne (stops_cons (by decide) rest))]
    simp only [hd]
    rfl
  rw [weight, bind_of_ok (char_cons '/' _), bind_of_ok hvalue, bind_of_ok (cut_of_ok (char_cons '/' rest)), pure_eq]

theorem weight_text {w : Single} (hsigned : w.signed = false) (hfinite : w.isFinite = true) (rest : List Char) :
    weight ('/' :: (w.text ++ '/' :: rest)) = .ok (w, rest) := by
  obtain ⟨hchars, d, ds, htext, -⟩ := Single.text_chars hsigned hfinite
  obtain ⟨decimal, hdecimal, rfl⟩ := Option.map_eq_some_iff.mp (Single.read?_text hsigned hfinite)
  refine weight_of_read? (fun c hc => ?_) (by simp [htext]) hdecimal rest
  rcases hchars c hc with hdigit | rfl
  · simp [isWeightChar, hdigit]
  · rfl

/-- The text of a weight is no comment. -/
theorem solid_weight {w : Single} (hsigned : w.signed = false) (hfinite : w.isFinite = true) (rest : List Char) :
    Solid ('/' :: (w.text ++ rest)) := by
  obtain ⟨-, d, ds, htext, hd⟩ := Single.text_chars hsigned hfinite
  rw [htext]
  exact solid_slash (by rintro rfl; cases hd) (by rintro rfl; cases hd) (ds ++ rest)

theorem weighted_append (w : Single) (s rest : List Char) :
    '/' :: w.text ++ '/' :: ' ' :: s ++ rest = '/' :: (w.text ++ '/' :: ' ' :: (s ++ rest)) := by simp

theorem ReadsItems.weighted (hinner : Takes inner 0) (h : ReadsItems inner s xs) {w : Single}
    (hsigned : w.signed = false) (hfinite : w.isFinite = true) :
    ReadsBranch inner ('/' :: w.text ++ '/' :: ' ' :: s) (some w, oneOrSequence xs) := by
  refine ⟨fun rest => weighted_append w s rest ▸ solid_weight hsigned hfinite _, fun rest hrest => ?_⟩
  have hchain := chain_space (h.starts.solid rest) (h.chain rest hrest.apart) h.nonempty
  rw [weighted_append, Reader.branch, bind_of_ok (layout_solid (solid_weight hsigned hfinite _)),
    bind_of_ok (optionally_of_ok (weight_text hsigned hfinite _)),
    bind_of_ok (sequence_of_chain hinner hchain h.nonempty hrest.refuses), pure_eq]

theorem branch_space (hsolid : Solid s) : branch inner (' ' :: s) = branch inner s := by
  rw [branch, bind_of_ok (layout_space hsolid), bind_of_ok (layout_solid hsolid)]

variable {texts : List (List Char)} {bs : List (Option Single × Component)}

theorem ends_bars (texts : List (List Char)) (hrest : Ends rest) :
    Ends (texts.flatMap (' ' :: '|' :: ' ' :: ·) ++ rest) := by
  cases texts with
  | nil => exact hrest
  | cons => exact .inr ⟨_, rfl⟩

/-- After a bar there must be a branch. -/
theorem nextBranch_bar (hsolid : Solid s) :
    (layout *> char '|' *> cut (branch inner)) (' ' :: '|' :: ' ' :: s) = cut (branch inner) s := by
  have hbar := layout_space (solid_cons (c := '|') (by decide) (by decide) (' ' :: s))
  refine (seqRight_of_ok ((seqRight_of_ok hbar).trans (char_cons '|' _))).trans ?_
  rw [cut, cut, branch_space hsolid]

/-- The branches after the first one, each with a bar before it. -/
theorem chain_branches (h : List.Forall₂ (ReadsBranch inner) texts bs) (hrest : Ends rest) :
    Chain (layout *> char '|' *> cut (branch inner)) (texts.flatMap (' ' :: '|' :: ' ' :: ·) ++ rest) bs rest := by
  induction h with
  | nil => exact .nil rest
  | @cons text x texts bs htext htexts ih =>
    refine .cons ?_ ih
    rw [List.flatMap_cons, List.append_assoc]
    exact (nextBranch_bar (htext.solid _)).trans (cut_of_ok (htext.branch _ (ends_bars texts hrest)))

theorem intercalate_bars (text : List Char) (texts : List (List Char)) :
    [' ', '|', ' '].intercalate (text :: texts) = text ++ texts.flatMap (' ' :: '|' :: ' ' :: ·) := by
  induction texts generalizing text with
  | nil => simp
  | cons next texts ih => rw [List.intercalate_cons_cons, ih, List.flatMap_cons]; simp

/-- The text is read as an expansion, whatever follows. -/
structure ReadsWhole (p : Reader Component) (text : List Char) (x : Component) : Prop where
  solid : ∀ rest, Solid (text ++ rest)
  read : ∀ rest, Closes rest → p (text ++ rest) = .ok (x, rest)

/-- Branches with bars between them. -/
theorem readsWhole_intercalate (hinner : Takes inner 0) (h : List.Forall₂ (ReadsBranch inner) texts bs)
    (hne : texts ≠ []) (hc : ofBranches bs = some c) :
    ReadsWhole (branches inner) ([' ', '|', ' '].intercalate texts) c := by
  cases h with
  | nil => exact absurd rfl hne
  | @cons text x texts bs htext htexts =>
    rw [intercalate_bars]
    refine ⟨fun rest => by rw [List.append_assoc]; exact htext.solid _, fun rest hrest => ?_⟩
    have hrefuses : Refuses (layout *> char '|' *> cut (branch inner)) rest := by
      refine (refuses_seqRight_of_ok (layout_solid hrest.solid) ?_).seqRight
      obtain ⟨d, ds, rfl, hd⟩ := hrest
      exact refuses_char_cons (closing_facts hd).2.2.2 ds
    rw [List.append_assoc, branches, bind_of_ok (htext.branch _ (ends_bars texts (.inl hrest))),
      bind_of_ok (many_of_chain (takes_nextBranch hinner) (chain_branches htexts (.inl hrest)) hrefuses), hc]
    rfl

/-- A space before an expansion is passed over. -/
theorem branches_space (hsolid : Solid s) : branches inner (' ' :: s) = branches inner s :=
  bind_congr_text (branch_space hsolid)

/-! ## Components -/

theorem ReadsWhole.group (h : ReadsWhole inner s x) : ReadsUnit inner ('(' :: (s ++ [')'])) x := by
  refine ⟨⟨'(', s ++ [')'], rfl, by decide, by decide⟩, fun rest _ => ?_⟩
  rw [List.cons_append, List.append_assoc]
  exact unit_group (h.read (')' :: rest) (closes_cons (by decide) rest))
    (layout_solid (solid_cons (by decide) (by decide) rest))

theorem ReadsWhole.bracket (h : ReadsWhole inner s x) : ReadsUnit inner ('[' :: (s ++ [']'])) x.optional := by
  refine ⟨⟨'[', s ++ [']'], rfl, by decide, by decide⟩, fun rest _ => ?_⟩
  rw [List.cons_append, List.append_assoc]
  exact unit_bracket (h.read (']' :: rest) (closes_cons (by decide) rest))
    (layout_solid (solid_cons (by decide) (by decide) rest))

theorem ReadsItems.whole {n : Nat} (h : ReadsItems (expansionWithin n) s xs) :
    ReadsWhole (expansionWithin (n + 1)) s (oneOrSequence xs) := by
  have hinner := takes_nested n
  have hbranches := readsWhole_intercalate hinner (.cons (h.branch hinner) .nil) (by simp) rfl
  rwa [List.intercalate_singleton] at hbranches

open Component (parenthesize print)

/-- How the component is written as an item of a sequence. -/
def itemText (c : Component) : List Char := parenthesize c.isAlternatives c.print

/-- How the component is written as the body of a repetition. -/
def unitText (c : Component) : List Char := parenthesize c.needsGroup c.print

/-- Where the component is written, the items are read. Expansions within it may be nested as deep as the text is
long. -/
structure Legible (c : Component) (xs : List Component) : Prop where
  whole : ∀ n, c.print.length ≤ n → ReadsWhole (expansionWithin n) c.print (oneOrSequence xs)
  items : ∀ n, (itemText c).length ≤ n + 2 → ReadsItems (expansionWithin n) (itemText c) xs
  unit : ∀ n, (unitText c).length ≤ n + 2 → ReadsUnit (expansionWithin n) (unitText c) (oneOrSequence xs)

theorem itemText_of_not (hc : c.isAlternatives = false) : itemText c = c.print := by
  rw [itemText, hc]
  rfl

theorem itemText_of (hc : c.isAlternatives = true) : itemText c = '(' :: (c.print ++ [')']) := by
  rw [itemText, hc]
  rfl

theorem unitText_of_not (hc : c.needsGroup = false) : unitText c = c.print := by
  rw [unitText, hc]
  rfl

theorem unitText_of (hc : c.needsGroup = true) : unitText c = '(' :: (c.print ++ [')']) := by
  rw [unitText, hc]
  rfl

theorem length_group (text : List Char) : ('(' :: (text ++ [')'])).length = text.length + 2 := by simp

/-- A component that is read as an expansion is read as the body of a repetition, if it needs parentheses there. -/
theorem readsUnit_of_whole (hwhole : ∀ n, c.print.length ≤ n → ReadsWhole (expansionWithin n) c.print x)
    (hunit : c.needsGroup = false → ∀ inner, ReadsUnit inner c.print x) (n : Nat) (hn : (unitText c).length ≤ n + 2) :
    ReadsUnit (expansionWithin n) (unitText c) x := by
  cases hgroup : c.needsGroup with
  | true =>
    rw [unitText_of hgroup, length_group] at hn
    rw [unitText_of hgroup]
    exact (hwhole n (by omega)).group
  | false =>
    rw [unitText_of_not hgroup]
    exact hunit hgroup _

theorem legible_of_items (hc : c.isAlternatives = false)
    (hread : ∀ n, c.print.length ≤ n + 2 → ReadsItems (expansionWithin n) c.print xs)
    (hunit : c.needsGroup = false → ∀ inner, ReadsUnit inner c.print (oneOrSequence xs)) : Legible c xs := by
  have hwhole (n : Nat) (hn : c.print.length ≤ n) :
      ReadsWhole (expansionWithin n) c.print (oneOrSequence xs) := by
    obtain ⟨d, ds, hd, -⟩ := (hread c.print.length (by omega)).starts
    cases n with
    | zero => simp [hd] at hn
    | succ n => exact (hread n (by omega)).whole
  refine ⟨hwhole, fun n hn => ?_, readsUnit_of_whole hwhole hunit⟩
  rw [itemText_of_not hc] at hn ⊢
  exact hread n hn

theorem legible_of_whole (hc : c.isAlternatives = true)
    (hwhole : ∀ n, c.print.length ≤ n → ReadsWhole (expansionWithin n) c.print x)
    (hunit : c.needsGroup = false → ∀ inner, ReadsUnit inner c.print x) : Legible c [x] := by
  refine ⟨hwhole, fun n hn => ?_, readsUnit_of_whole hwhole hunit⟩
  rw [itemText_of hc, length_group] at hn
  rw [itemText_of hc]
  exact (hwhole n (by omega)).group.items

theorem legible_of_unit (hc : c.isAlternatives = false) (h : ∀ inner, ReadsUnit inner c.print x) : Legible c [x] :=
  legible_of_items hc (fun _ _ => (h _).items) fun _ => h

theorem readsUnit_token (text : String) : ReadsUnit inner (Component.token text).print (.token text) := by
  simp only [print, Component.printToken]
  split
  · rename_i hbare
    simp only [Bool.and_eq_true, Bool.not_eq_true', List.isEmpty_eq_false_iff, List.all_eq_true] at hbare
    refine ⟨?_, fun rest hrest => by rw [unit_bare hbare.1 hbare.2 hrest, String.ofList_toList]⟩
    obtain ⟨d, ds, htext⟩ := List.exists_cons_of_ne_nil hbare.1
    have hd := hbare.2 d (htext ▸ List.mem_cons_self)
    simp only [isBare, Bool.and_eq_true, Bool.not_eq_true', List.contains_eq_mem, decide_eq_false_iff_not] at hd
    exact ⟨d, ds, htext, hd.1, fun hslash => hd.2 (hslash ▸ by decide)⟩
  · refine ⟨⟨'"', _, rfl, by decide, by decide⟩, fun rest _ => ?_⟩
    have h : unit inner _ = _ := unit_quoted (unescape_escape (by decide) text.toList rest)
    rw [String.ofList_toList] at h
    simpa using h

theorem readsUnit_tag (value : String) :
    ReadsUnit inner (Component.tag value).print (.tag (String.ofList (Text.trim value.toList))) := by
  refine ⟨⟨'{', _, rfl, by decide, by decide⟩, fun rest _ => ?_⟩
  have h : unit inner _ = _ := unit_tag (unescape_escape (by decide) value.toList rest)
  simpa [print, Component.printTag] using h

/-- A name in angle brackets is read as what it stands for. -/
theorem readsUnit_name (cs : List Char) (hne : cs ≠ []) (hcs : ∀ c ∈ cs, isReferenceChar c = true) :
    ReadsUnit inner ('<' :: (cs ++ ['>'])) (namedComponent cs) := by
  refine ⟨⟨'<', _, rfl, by decide, by decide⟩, fun rest _ => ?_⟩
  have h : unit inner _ = _ := unit_name hne hcs rest
  simpa using h

theorem readsUnit_reference {r : Reference} (hr : r.Readable) :
    ReadsUnit inner (Component.reference r).print (.reference r) := by
  rw [print, r.print_eq, ← hr.named]
  exact readsUnit_name r.inner hr.nonempty hr.chars

theorem readsUnit_null : ReadsUnit inner Component.nullRule (.sequence []) :=
  readsUnit_name "NULL".toList (by decide) (List.all_eq_true.mp (by decide))

theorem readsUnit_void : ReadsUnit inner Component.voidRule (.alternatives [] none) :=
  readsUnit_name "VOID".toList (by decide) (List.all_eq_true.mp (by decide))

theorem length_le_intercalate {sep text : List Char} (h : text ∈ texts) :
    text.length ≤ (sep.intercalate texts).length := by
  induction texts with
  | nil => cases h
  | cons first texts ih =>
    cases texts with
    | nil => simp_all
    | cons next texts =>
      rw [List.intercalate_cons_cons]
      simp only [List.length_append]
      rcases List.mem_cons.mp h with rfl | h
      · omega
      · have := ih h
        omega

theorem print_sequence {items : List Component} (hne : items ≠ []) :
    (Component.sequence items).print = [' '].intercalate (items.map itemText) := by
  rw [print, List.isEmpty_eq_false_iff.mpr hne, Component.printAll_eq]
  rfl

theorem legible_sequence {items : List Component} {xss : List (List Component)} (h : List.Forall₂ Legible items xss) :
    Legible (.sequence items) (Component.orNull xss.flatten) := by
  by_cases hne : items = []
  · subst hne
    cases h
    exact legible_of_unit rfl fun _ => readsUnit_null
  · have hread (n : Nat) (hn : (Component.sequence items).print.length ≤ n + 2) :
        ReadsItems (expansionWithin n) (Component.sequence items).print xss.flatten := by
      rw [print_sequence hne] at hn ⊢
      refine readsItems_intercalate ?_ (by simpa using hne)
      rw [List.forall₂_map_left_iff]
      have hlength (c : Component) (hc : c ∈ items) : (itemText c).length ≤ n + 2 :=
        (length_le_intercalate (List.mem_map_of_mem hc)).trans hn
      exact ((List.forall₂_and_left _ _).mpr ⟨hlength, h⟩).imp fun c xs hc => hc.2.items n hc.1
    rw [Component.orNull_of_ne_nil (hread _ (Nat.le_add_right _ 2)).nonempty]
    refine legible_of_items rfl hread fun hgroup => absurd hgroup ?_
    simpa [Component.needsGroup] using hne

theorem forall₂_replicate {γ δ : Type} {R : γ → δ → Prop} {a : γ} {b : δ} (n : Nat) (h : n ≠ 0 → R a b) :
    List.Forall₂ R (List.replicate n a) (List.replicate n b) := by
  induction n with
  | zero => exact .nil
  | succ n ih => exact .cons (h (by simp)) (ih fun _ => h (by simp))

/-- The parts of a repetition. -/
theorem readsItems_parts {unitText body : List Char} {k min : Nat} {max : Bound}
    (hunit : unitText.length ≤ k → ReadsUnit inner unitText x)
    (hbody : body.length + 2 ≤ k → ReadsUnit inner ('[' :: (body ++ [']'])) x.optional)
    (hk : ∀ part ∈ Component.repetitionParts unitText body min max, part.length ≤ k) :
    List.Forall₂ (ReadsItems inner) (Component.repetitionParts unitText body min max)
      ((Component.repetitionItems x min max).map ([·])) := by
  cases max with
  | indefinite =>
    simp only [Component.repetitionParts, Component.repetitionItems, List.map_append, List.map_replicate,
      List.map_singleton, List.forall_mem_append, List.forall_mem_singleton, List.length_append,
      List.length_singleton] at hk ⊢
    have hx := hunit (by omega)
    refine List.rel_append (forall₂_replicate _ fun _ => hx.items) (.cons ?_ .nil)
    by_cases hmin : min = 0
    · simpa [hmin, applyPostfix] using hx.repeated (.inl rfl)
    · simpa [hmin, applyPostfix] using hx.repeated (.inr rfl)
  | finite max =>
    simp only [Component.repetitionParts, Component.repetitionItems, List.map_append, List.map_replicate,
      List.forall_mem_append, List.mem_replicate] at hk ⊢
    refine List.rel_append (forall₂_replicate _ fun hmin => ?_) (forall₂_replicate _ fun hmax => ?_)
    · exact (hunit (hk.1 _ ⟨hmin, rfl⟩)).items
    · have hlength := hk.2 _ ⟨hmax, rfl⟩
      rw [List.length_append, List.length_cons, List.length_singleton] at hlength
      exact (hbody (by omega)).items

theorem repetitionParts_eq_nil_iff {unitText body : List Char} {min : Nat} {max : Bound} :
    Component.repetitionParts unitText body min max = [] ↔ Component.repetitionItems x min max = [] := by
  cases max <;> simp [Component.repetitionParts, Component.repetitionItems]

theorem print_count {body : Component} {min : Nat} {max : Bound} {p : Option Single} :
    (Component.count body min max p).print =
      if Component.repetitionParts (unitText body) body.print min max = [] then Component.nullRule
      else [' '].intercalate (Component.repetitionParts (unitText body) body.print min max) := by
  rw [print]
  split
  · rename_i hparts
    exact (if_pos (List.isEmpty_iff.mp hparts)).symm
  · rename_i hparts
    exact (if_neg (mt List.isEmpty_iff.mpr hparts)).symm

/-- A repetition of which nothing is written is read as the rule that takes nothing. -/
theorem legible_count_nothing {body : Component} {min : Nat} {max : Bound} (p : Option Single)
    (h : Component.repetitionParts (unitText body) body.print min max = []) :
    Legible (.count body min max p) [.sequence []] := by
  have hprint : (Component.count body min max p).print = Component.nullRule := by rw [print_count, if_pos h]
  exact legible_of_unit rfl fun _ => hprint ▸ readsUnit_null

theorem legible_count {body : Component} {xs : List Component} (h : Legible body xs) (min : Nat) (max : Bound)
    (p : Option Single) :
    Legible (.count body min max p) (Component.orNull (Component.repetitionItems (oneOrSequence xs) min max)) := by
  have hnil : Component.repetitionParts (unitText body) body.print min max = [] ↔
      Component.repetitionItems (oneOrSequence xs) min max = [] := repetitionParts_eq_nil_iff
  by_cases hparts : Component.repetitionParts (unitText body) body.print min max = []
  · rw [hnil.mp hparts]
    exact legible_count_nothing p hparts
  · rw [Component.orNull_of_ne_nil (mt hnil.mpr hparts)]
    refine legible_of_items rfl (fun n hn => ?_) nofun
    rw [print_count, if_neg hparts] at hn ⊢
    have hread := readsItems_intercalate (readsItems_parts (h.unit n) (fun hlength => (h.whole n (by omega)).bracket)
      fun part hpart => (length_le_intercalate hpart).trans hn) hparts
    rwa [← List.flatMap_def, List.flatMap_singleton'] at hread

theorem commonWeights_some {ws : List Single} (hne : ws ≠ []) : commonWeights (ws.map some) = some (some ws) := by
  obtain ⟨w, ws, rfl⟩ := List.exists_cons_of_ne_nil hne
  simp [commonWeights]

theorem ofBranches_weighted {ws : List Single} (hne : xs ≠ []) (hlength : ws.length = xs.length) :
    ofBranches ((ws.map some).zip xs) = some (Component.choice xs (some ws)) := by
  have hws : ws ≠ [] := by simpa [← List.length_eq_zero_iff, hlength] using hne
  have hfirst : ((ws.map some).zip xs).map Prod.fst = ws.map some := List.map_fst_zip (by simp [hlength])
  have hsecond : ((ws.map some).zip xs).map Prod.snd = xs := List.map_snd_zip (by simp [hlength])
  have hbranches : ofBranches ((ws.map some).zip xs) =
      (commonWeights (((ws.map some).zip xs).map Prod.fst)).map
        (.alternatives (((ws.map some).zip xs).map Prod.snd)) := by
    obtain ⟨w, ws, rfl⟩ := List.exists_cons_of_ne_nil hws
    obtain ⟨x, xs, rfl⟩ := List.exists_cons_of_ne_nil hne
    rfl
  rw [hbranches, hfirst, hsecond, commonWeights_some hws, Component.choice_weighted hne]
  rfl

theorem ofBranches_plain (hne : xs ≠ []) :
    ofBranches (xs.map fun x => (none, x)) = some (Component.choice xs none) := by
  match xs, hne with
  | [x], _ => rfl
  | x :: y :: xs, _ => simp [ofBranches, commonWeights, Component.choice, Function.comp_def]

theorem exists_mem_weigh {texts : List (List Char)} {text : List Char} (h : text ∈ texts) (ws : List Single) :
    ∃ t ∈ Component.weigh texts ws, text.length ≤ t.length := by
  induction texts generalizing ws with
  | nil => cases h
  | cons first texts ih =>
    cases ws with
    | nil => exact ⟨text, h, Nat.le_refl _⟩
    | cons w ws =>
      rcases List.mem_cons.mp h with rfl | h
      · refine ⟨_, List.mem_cons_self, ?_⟩
        simp only [List.length_cons, List.length_append]
        omega
      · obtain ⟨t, ht, hlength⟩ := ih h ws
        exact ⟨t, List.mem_cons_of_mem _ ht, hlength⟩

/-- Branches with a weight in front of each. -/
theorem forall₂_weigh (hinner : Takes inner 0) {xss : List (List Component)} {ws : List Single}
    (h : List.Forall₂ (fun c ys => ReadsItems inner (itemText c) ys) xs xss) (hlength : ws.length = xs.length)
    (hws : ∀ w ∈ ws, w.signed = false ∧ w.isFinite = true) :
    List.Forall₂ (ReadsBranch inner) (Component.weigh (xs.map itemText) ws)
      ((ws.map some).zip (xss.map oneOrSequence)) := by
  induction h generalizing ws with
  | nil =>
    obtain rfl := List.length_eq_zero_iff.mp hlength
    exact .nil
  | cons hx _ ih =>
    obtain ⟨w, ws, rfl⟩ := List.exists_cons_of_length_eq_add_one hlength
    rw [List.forall_mem_cons] at hws
    exact .cons (hx.weighted hinner hws.1.1 hws.1.2) (ih (Nat.succ.inj hlength) hws.2)

/-- Branches with the weights that they have. -/
theorem forall₂_branches (hinner : Takes inner 0) {xss : List (List Component)} {weights : Option (List Single)}
    (hne : xs ≠ []) (h : List.Forall₂ (fun c ys => ReadsItems inner (itemText c) ys) xs xss)
    (hweights : ∀ ws, weights = some ws → ws.length = xs.length ∧ ∀ w ∈ ws, w.signed = false ∧ w.isFinite = true) :
    ∃ bs, List.Forall₂ (ReadsBranch inner) (Component.weigh (xs.map itemText) (weights.getD [])) bs ∧
      ofBranches bs = some (Component.choice (xss.map oneOrSequence) weights) := by
  have hsome : xss.map oneOrSequence ≠ [] := by
    rw [← List.length_pos_iff, List.length_map, ← h.length_eq]
    exact List.length_pos_iff.mpr hne
  cases weights with
  | none =>
    have hplain : Component.weigh (xs.map itemText) [] = xs.map itemText := by cases xs <;> rfl
    refine ⟨_, ?_, ofBranches_plain hsome⟩
    rw [Option.getD_none, hplain, List.map_map, List.forall₂_map_left_iff, List.forall₂_map_right_iff]
    exact h.imp fun c ys hc => hc.branch hinner
  | some ws =>
    obtain ⟨hlength, hall⟩ := hweights ws rfl
    have hsame : ws.length = (xss.map oneOrSequence).length := by rw [List.length_map, ← h.length_eq, hlength]
    exact ⟨_, forall₂_weigh hinner h hlength hall, ofBranches_weighted hsome hsame⟩

theorem print_alternatives {branches : List Component} {weights : Option (List Single)} (hne : branches ≠ []) :
    (Component.alternatives branches weights).print =
      [' ', '|', ' '].intercalate (Component.weigh (branches.map itemText) (weights.getD [])) := by
  rw [print, List.isEmpty_eq_false_iff.mpr hne, Component.printAll_eq]
  rfl

/-- A branch is not longer than the choice that it is in. -/
theorem length_le_alternatives {branches : List Component} (weights : Option (List Single)) (h : c ∈ branches) :
    (itemText c).length ≤ (Component.alternatives branches weights).print.length := by
  obtain ⟨t, ht, hle⟩ := exists_mem_weigh (List.mem_map_of_mem h) (weights.getD [])
  rw [print_alternatives (List.ne_nil_of_mem h)]
  exact hle.trans (length_le_intercalate ht)

theorem legible_alternatives {branches : List Component} {xss : List (List Component)} {weights : Option (List Single)}
    (h : List.Forall₂ Legible branches xss)
    (hweights : ∀ ws, weights = some ws →
      ws.length = branches.length ∧ ∀ w ∈ ws, w.signed = false ∧ w.isFinite = true) :
    Legible (.alternatives branches weights) [Component.choice (xss.map oneOrSequence) weights] := by
  by_cases hne : branches = []
  · subst hne
    cases h
    refine legible_of_whole rfl (fun n hn => ?_) fun _ _ => readsUnit_void
    cases n with
    | zero =>
      have hpos : ¬ Component.voidRule.length ≤ 0 := by decide
      exact absurd hn hpos
    | succ n => exact readsUnit_void.items.whole
  · refine legible_of_whole rfl (fun n hn => ?_) fun hgroup => absurd hgroup (by simpa [Component.needsGroup] using hne)
    -- each branch is as long as it is alone, so its expansions may be nested less deep than the choice
    have hlength (c : Component) (hc : c ∈ branches) : (itemText c).length ≤ n :=
      (length_le_alternatives weights hc).trans hn
    have hall := (List.forall₂_and_left _ _).mpr ⟨hlength, h⟩
    have hpos : 0 < n := by
      cases hall with
      | nil => exact absurd rfl hne
      | cons hfirst =>
        obtain ⟨d, ds, hd, -⟩ := (hfirst.2.items _ (Nat.le_add_right _ 2)).starts
        have := hfirst.1
        rw [hd, List.length_cons] at this
        omega
    obtain ⟨m, rfl⟩ : ∃ m, n = m + 1 := Nat.exists_eq_add_one.mpr hpos
    have hinner := takes_nested m
    obtain ⟨bs, hbs, hc⟩ := forall₂_branches hinner hne
      (hall.imp fun c xs hc => hc.2.items m (Nat.le_succ_of_le hc.1)) hweights
    obtain ⟨first, hfirst⟩ := List.exists_mem_of_ne_nil branches hne
    obtain ⟨t, ht, -⟩ := exists_mem_weigh (List.mem_map_of_mem hfirst) (weights.getD [])
    rw [print_alternatives hne]
    exact readsWhole_intercalate hinner hbs (List.ne_nil_of_mem ht) hc

mutual

theorem legible : ∀ c : Component, c.Readable → Legible c c.items
  | .token text, _ => legible_of_unit rfl fun _ => readsUnit_token text
  | .tag value, _ => legible_of_unit rfl fun _ => readsUnit_tag value
  | .reference _, h => legible_of_unit rfl fun _ => readsUnit_reference h
  | .sequence items, h => by
    rw [Component.items, Component.itemsAll_eq, List.flatMap_def]
    exact legible_sequence (legible_all items h)
  | .alternatives branches weights, h => by
    have hreread : Component.rereadAll branches = (branches.map Component.items).map oneOrSequence := by
      rw [Component.rereadAll_eq, List.map_map]
      rfl
    rw [Component.items, hreread]
    exact legible_alternatives (legible_all branches h.2) h.1
  | .count body min max p, h => legible_count (legible body h) min max p

theorem legible_all : ∀ cs : List Component, ReadableAll cs → List.Forall₂ Legible cs (cs.map Component.items)
  | [], _ => .nil
  | c :: cs, h => .cons (legible c h.1) (legible_all cs h.2)

end

/-- A legible component is read as an expansion, whatever closes it. There may be a space before it. -/
theorem Legible.expansion (h : Legible c xs) (hrest : Closes rest) :
    Reader.expansion (c.print ++ rest) = .ok (oneOrSequence xs, rest) ∧
      Reader.expansion (' ' :: (c.print ++ rest)) = .ok (oneOrSequence xs, rest) := by
  refine ⟨(h.whole _ (by simp)).read rest hrest, ?_⟩
  have hread := (h.whole ((c.print ++ rest).length + 1) (by simp; omega)).read rest hrest
  exact (branches_space ((h.whole _ (Nat.le_refl _)).solid rest)).trans hread

/-- **A component that is written is read as `reread` says**, whatever closes the expansion. There may be a space
before it. -/
theorem expansion_print (hc : c.Readable) (hrest : Closes rest) :
    expansion (c.print ++ rest) = .ok (c.reread, rest) ∧
      expansion (' ' :: (c.print ++ rest)) = .ok (c.reread, rest) := (legible c hc).expansion hrest

end Jsgf.Reader

end SpeechGrammar
