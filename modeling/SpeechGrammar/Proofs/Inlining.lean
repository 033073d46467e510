import SpeechGrammar.Proofs.Language

/-!
# Inlining keeps the trees

The pattern of a component has the bodies of rules in the places of the references to them. A pattern has parse trees
of its own (`Pattern.Derives`), and they are those of the component (**`ruleBody_represents`**), with the bounds of every
repetition in order.
-/

namespace SpeechGrammar

namespace Pattern

mutual

/-- The tree is one way to pass the pattern. -/
inductive Derives : Pattern → ParseTree → Prop
  | token {text} : Derives (.token text) (.token text)
  | tag {value} : Derives (.tag value) (.tag value)
  | rule {name body t} : Derives body t → Derives (.rule name body) (.rule name t)
  | sequence {items ts} : DerivesAll items ts → Derives (.sequence items) (.sequence ts)
  | alternatives {branches index branch t} :
      branches[index]? = some branch → Derives branch t → Derives (.alternatives branches) (.alternative index t)
  | count {body min max ts} :
      min ≤ ts.length → max.Admits ts.length → DerivesAll (List.replicate ts.length body) ts →
      Derives (.count body min max) (.sequence ts)

/-- The trees are ways to pass the patterns, one for each, in order. -/
inductive DerivesAll : List Pattern → List ParseTree → Prop
  | nil : DerivesAll [] []
  | cons {p ps t ts} : Derives p t → DerivesAll ps ts → DerivesAll (p :: ps) (t :: ts)

end

mutual

/-- In every repetition the least number is not more than the greatest. -/
def Ordered : Pattern → Prop
  | .token _ => True
  | .tag _ => True
  | .rule _ body => Ordered body
  | .sequence items => OrderedAll items
  | .alternatives branches => OrderedAll branches
  | .count body min max => max.Admits min ∧ Ordered body

/-- The same for each of the patterns. -/
def OrderedAll : List Pattern → Prop
  | [] => True
  | p :: ps => Ordered p ∧ OrderedAll ps

end

end Pattern

namespace Environment

variable {env : Environment}

/-- A resolved reference leads where it is resolved to. -/
theorem LeadsTo.of_resolve {source target : RuleId} {r : Reference} {rule : Rule}
    (h : env.resolve source r = .ok (target, rule)) : env.LeadsTo source.grammar r target.grammar rule := by
  simp only [resolve] at h
  split at h
  · cases h
  · rename_i s hs
    split at h
    · cases h
    · rename_i q hq
      split at h
      · cases h
      · cases h
        exact ⟨rfl, s, hs, hq⟩

section

variable {visit : Reference → Except GrammarError Pattern} {owner : String}

theorem admits_of_checkBounds {min : Nat} {max : Bound} (h : checkBounds owner min max = .ok ()) : max.Admits min := by
  rintro most rfl
  simp only [checkBounds] at h
  split at h
  · cases h
  · omega

/-- The pattern of a repetition, taken apart. -/
theorem patternOf_count {body : Component} {min : Nat} {max : Bound} {probability : Option Single} {p : Pattern}
    (h : patternOf visit owner (.count body min max probability) = .ok p) :
    max.Admits min ∧ (max = .finite 0 ∧ p = .count .nothing min max ∨
      ∃ q, patternOf visit owner body = .ok q ∧ p = .count q min max) := by
  simp only [patternOf] at h
  split at h
  · cases h
  · rename_i hb
    refine ⟨admits_of_checkBounds hb, ?_⟩
    split at h
    · rename_i h0
      cases h
      exact .inl ⟨h0, rfl⟩
    · cases hq : patternOf visit owner body with
      | error e => rw [hq] at h; cases h
      | ok q => rw [hq] at h; cases h; exact .inr ⟨q, rfl, rfl⟩

/-- The patterns of a list, taken apart. -/
theorem patternsOf_cons {c : Component} {cs : List Component} {ps : List Pattern}
    (h : patternsOf visit owner (c :: cs) = .ok ps) :
    ∃ q qs, patternOf visit owner c = .ok q ∧ patternsOf visit owner cs = .ok qs ∧ ps = q :: qs := by
  simp only [patternsOf] at h
  split at h
  · cases h
  · rename_i q hq
    cases hqs : patternsOf visit owner cs with
    | error e => rw [hqs] at h; cases h
    | ok qs => rw [hqs] at h; cases h; exact ⟨q, qs, hq, rfl, rfl⟩

/-- An operation on a successful result succeeds only if the result was there. -/
theorem ok_of_map_eq_ok {ε α β : Type} {f : α → β} {x : Except ε α} {b : β} (h : x.map f = .ok b) :
    ∃ a, x = .ok a ∧ b = f a := by
  cases x with
  | error e => cases h
  | ok a => cases h; exact ⟨a, rfl, rfl⟩

end

/-! ## Patterns that stand for components -/

/-- The pattern has the trees of the component in a rule of the grammar `owner`, and its bounds are in order. -/
def Represents (env : Environment) (owner : String) (c : Component) (p : Pattern) : Prop :=
  p.Ordered ∧ ∀ t, p.Derives t ↔ env.Derives owner c t

/-- The patterns have the trees of the components, and their bounds are in order. -/
def RepresentsAll (env : Environment) (owner : String) (cs : List Component) (ps : List Pattern) : Prop :=
  Pattern.OrderedAll ps ∧ List.Forall₂ (fun c p => ∀ t, p.Derives t ↔ env.Derives owner c t) cs ps

variable {owner : String}

theorem derivesAll_iff {cs : List Component} {ps : List Pattern}
    (h : List.Forall₂ (fun c p => ∀ t, p.Derives t ↔ env.Derives owner c t) cs ps) :
    ∀ ts, Pattern.DerivesAll ps ts ↔ env.DerivesAll owner cs ts := by
  induction h with
  | nil =>
    intro ts
    constructor <;> (intro h; cases h; constructor)
  | cons hp _ ih =>
    intro ts
    constructor
    · rintro (_ | ⟨ht, hts⟩)
      exact .cons ((hp _).mp ht) ((ih _).mp hts)
    · rintro (_ | ⟨ht, hts⟩)
      exact .cons ((hp _).mpr ht) ((ih _).mpr hts)

theorem represents_sequence {items : List Component} {ps : List Pattern} (h : RepresentsAll env owner items ps) :
    Represents env owner (.sequence items) (.sequence ps) := by
  refine ⟨h.1, fun t => ⟨fun ht => ?_, fun ht => ?_⟩⟩
  · cases ht with
    | sequence hts => exact .sequence ((derivesAll_iff h.2 _).mp hts)
  · cases ht with
    | sequence hts => exact .sequence ((derivesAll_iff h.2 _).mpr hts)

theorem represents_alternatives {branches : List Component} {weights : Option (List Single)} {ps : List Pattern}
    (h : RepresentsAll env owner branches ps) :
    Represents env owner (.alternatives branches weights) (.alternatives ps) := by
  refine ⟨h.1, fun t => ⟨fun ht => ?_, fun ht => ?_⟩⟩
  · cases ht with
    | alternatives hi ht =>
      obtain ⟨c, hc, hcp⟩ := forall₂_getElem?_right h.2 hi
      exact .alternatives hc ((hcp _).mp ht)
  · cases ht with
    | alternatives hi ht =>
      obtain ⟨p, hp, hcp⟩ := forall₂_getElem?_right h.2.flip hi
      exact .alternatives hp ((hcp _).mpr ht)

theorem represents_count {body : Component} {min : Nat} {max : Bound} {probability : Option Single} {p : Pattern}
    (hb : max.Admits min) (h : Represents env owner body p) :
    Represents env owner (.count body min max probability) (.count p min max) := by
  have hn (n : Nat) : List.Forall₂ (fun c p => ∀ t, p.Derives t ↔ env.Derives owner c t)
      (List.replicate n body) (List.replicate n p) := by
    induction n with
    | zero => exact .nil
    | succ n ih => exact .cons h.2 ih
  refine ⟨⟨hb, h.1⟩, fun t => ⟨fun ht => ?_, fun ht => ?_⟩⟩
  · cases ht with
    | count hmin hmax hts => exact .count hmin hmax ((derivesAll_iff (hn _) _).mp hts)
  · cases ht with
    | count hmin hmax hts => exact .count hmin hmax ((derivesAll_iff (hn _) _).mpr hts)

/-- Without repetitions the body does not matter. -/
theorem represents_count_zero {body : Component} {min : Nat} {probability : Option Single} {p : Pattern}
    (hb : (Bound.finite 0).Admits min) (hp : p.Ordered) :
    Represents env owner (.count body min (.finite 0) probability) (.count p min (.finite 0)) := by
  have hnil {ts : List ParseTree} (hmax : (Bound.finite 0).Admits ts.length) : ts = [] :=
    List.length_eq_zero_iff.mp (Nat.le_zero.mp (hmax 0 rfl))
  refine ⟨⟨hb, hp⟩, fun t => ⟨fun ht => ?_, fun ht => ?_⟩⟩
  · cases ht with
    | count hmin hmax _ =>
      obtain rfl := hnil hmax
      exact .count hmin hmax .nil
  · cases ht with
    | count hmin hmax _ =>
      obtain rfl := hnil hmax
      exact .count hmin hmax .nil

section

variable {visit : Reference → Except GrammarError Pattern} {name : String}

mutual

theorem patternOf_represents (hv : ∀ r p, visit r = .ok p → Represents env owner (.reference r) p) :
    ∀ {c : Component} {p : Pattern}, patternOf visit name c = .ok p → Represents env owner c p
  | .token _, _, h => by
    cases h
    refine ⟨trivial, fun t => ⟨?_, ?_⟩⟩ <;> (rintro ⟨⟩; constructor)
  | .tag _, _, h => by
    cases h
    refine ⟨trivial, fun t => ⟨?_, ?_⟩⟩ <;> (rintro ⟨⟩; constructor)
  | .reference r, p, h => hv r p h
  | .sequence items, _, h => by
    obtain ⟨ps, hps, rfl⟩ := ok_of_map_eq_ok h
    exact represents_sequence (patternsOf_represents hv hps)
  | .alternatives branches _, _, h => by
    obtain ⟨ps, hps, rfl⟩ := ok_of_map_eq_ok h
    exact represents_alternatives (patternsOf_represents hv hps)
  | .count body min max _, _, h => by
    obtain ⟨hb, ⟨rfl, rfl⟩ | ⟨q, hq, rfl⟩⟩ := patternOf_count h
    · exact represents_count_zero hb trivial
    · exact represents_count hb (patternOf_represents hv hq)

theorem patternsOf_represents (hv : ∀ r p, visit r = .ok p → Represents env owner (.reference r) p) :
    ∀ {cs : List Component} {ps : List Pattern}, patternsOf visit name cs = .ok ps → RepresentsAll env owner cs ps
  | [], _, h => by cases h; exact ⟨trivial, .nil⟩
  | _ :: _, _, h => by
    obtain ⟨q, qs, hq, hqs, rfl⟩ := patternsOf_cons h
    have hc := patternOf_represents hv hq
    have hcs := patternsOf_represents hv hqs
    exact ⟨⟨hc.1, hcs.1⟩, .cons hc.2 hcs.2⟩

end

end

/-! ## Patterns of rules -/

theorem represents_reference {r : Reference} {target : String} {rule : Rule} {p : Pattern}
    (hr : env.LeadsTo owner r target rule) (h : Represents env target rule.body p) :
    Represents env owner (.reference r) (.rule rule.name p) := by
  refine ⟨h.1, fun t => ⟨fun ht => ?_, fun ht => ?_⟩⟩
  · cases ht with
    | rule ht => exact .reference hr ((h.2 _).mp ht)
  · cases ht with
    | reference hr' ht =>
      obtain ⟨rfl, rfl⟩ := hr.unique hr'
      exact .rule ((h.2 _).mpr ht)

/-- **The pattern of a rule** stands for its body, with references looked up from the grammar of the rule. -/
theorem ruleBody_represents {path : List RuleId} {source : RuleId} {rule : Rule} {p : Pattern}
    (h : env.ruleBody path source rule = .ok p) : Represents env source.grammar rule.body p := by
  induction path, source, rule using ruleBody.induct env generalizing p with
  | case1 path source rule ih =>
    rw [ruleBody] at h
    refine patternOf_represents (fun r q hq => ?_) h
    split at hq
    · cases hq
    · rename_i target rule' hr
      split at hq
      · cases hq
      · rename_i hnew
        obtain ⟨q', hq', rfl⟩ := ok_of_map_eq_ok hq
        exact represents_reference (.of_resolve hr) (ih r target rule' hr hnew hq')

/-- A rule of the starting grammar that has a pattern is there, and the pattern stands for its body. -/
theorem pattern_represents {name : String} {body : Pattern} (h : env.pattern name = .ok body) :
    ∃ rule, env.start.rule? name = some rule ∧ Represents env env.start.name rule.body body := by
  simp only [pattern] at h
  split at h
  · cases h
  · rename_i rule hr
    exact ⟨rule, hr, ruleBody_represents h⟩

end Environment

end SpeechGrammar
