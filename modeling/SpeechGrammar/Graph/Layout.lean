import SpeechGrammar.Graph.Environment
import SpeechGrammar.Text.LowerCase

/-!
# Graphs

A pattern is laid out as a graph whose nodes are numbered from some node on. Tokens and tags are single nodes. All
other patterns have a node where they start and one where they stop, with the next two numbers, and the nodes of their
parts after them. The layout of a pattern needs to know only the number of its first node and where the arcs of its
last node lead to (`Pattern.layout`), and how many nodes it has is known beforehand (**`Pattern.length_layout`**).

A repetition is laid out as copies of its body, one after the other. From a copy that may be the last one an arc leads
to the end, after the one into the next copy; without an upper bound an arc of the last copy leads back to its own
first node.

No node of a layout is final (**`Pattern.final_layout`**). In the graph of a rule the node where the rule stops is made
so, and a graph has no other final node.
-/

namespace SpeechGrammar

/-- What happens at a node. A node where something starts knows the one where it stops. -/
inductive NodeKind where
  /-- The words are in lower case. -/
  | token (text : String) (words : List String)
  | tag (value : String)
  | startReference (rule : String) (stop : Nat)
  | endReference
  | startAlternatives (stop : Nat)
  | endAlternatives
  | startSequence (stop : Nat)
  | endSequence
  | startCount (stop : Nat)
  | endCount
  deriving DecidableEq, Repr

/-- A token takes words. -/
def NodeKind.isToken : NodeKind → Bool
  | .token _ _ => true
  | _ => false

/-- A node of a graph. -/
structure Node where
  kind : NodeKind
  /-- The nodes that can come next, in the order in which they are tried. -/
  arcs : List Nat
  /-- An arc leads back to this node. -/
  loopEntry : Bool
  /-- The rule can be complete at this node. -/
  final : Bool
  deriving DecidableEq, Repr

namespace Pattern

/-- The words of a token, in lower case. -/
def lowerWords (text : String) : List String := (Text.words text).map Text.lower

/-- The first nodes of patterns that are laid out one after the other. -/
def entries : List Pattern → Nat → List Nat
  | [], _ => []
  | p :: ps, base => base :: entries ps (base + p.size)

section

variable (body : Nat → List Nat → Bool → List Node) (size min stop : Nat) (unbounded : Bool)

/-- An arc to the end, if `done` repetitions are enough. -/
def bypass (done : Nat) : List Nat := if min ≤ done then [stop] else []

/-- So many copies of a body, after `done` others. -/
def layoutCopies : Nat → Nat → Nat → List Node
  | 0, _, _ => []
  | 1, _, base => body base (if unbounded then [base, stop] else [stop]) unbounded
  | left + 2, done, base =>
    body base ((base + size) :: bypass min stop (done + 1)) false ++
      layoutCopies (left + 1) (done + 1) (base + size)

/-- The arcs of the node where a repetition starts. -/
def countArcs (copies base : Nat) : List Nat := if copies = 0 then [stop] else base :: bypass min stop 0

end

mutual

/-- The nodes of a pattern, numbered from `base` on; `out` are the arcs of the last one. -/
def layout : Pattern → (base : Nat) → (out : List Nat) → (loopEntry : Bool) → List Node
  | .token text, _, out, loopEntry => [⟨.token text (lowerWords text), out, loopEntry, false⟩]
  | .tag value, _, out, loopEntry => [⟨.tag value, out, loopEntry, false⟩]
  | .rule name body, base, out, loopEntry =>
    ⟨.startReference name (base + 1), [base + 2], loopEntry, false⟩ :: ⟨.endReference, out, false, false⟩ ::
      layout body (base + 2) [base + 1] false
  | .sequence items, base, out, loopEntry =>
    ⟨.startSequence (base + 1), [if items.isEmpty then base + 1 else base + 2], loopEntry, false⟩ ::
      ⟨.endSequence, out, false, false⟩ :: layoutItems items (base + 2) (base + 1)
  | .alternatives branches, base, out, loopEntry =>
    ⟨.startAlternatives (base + 1), entries branches (base + 2), loopEntry, false⟩ ::
      ⟨.endAlternatives, out, false, false⟩ :: layoutBranches branches (base + 2) (base + 1)
  | .count body min max, base, out, loopEntry =>
    ⟨.startCount (base + 1), countArcs min (base + 1) (max.copies min) (base + 2), loopEntry, false⟩ ::
      ⟨.endCount, out, false, false⟩ ::
      layoutCopies (fun base out loopEntry => layout body base out loopEntry) body.size min (base + 1)
        max.isIndefinite (max.copies min) 0 (base + 2)

/-- The items of a sequence, each with an arc to the next one, and the last with one to `stop`. -/
def layoutItems : List Pattern → (base : Nat) → (stop : Nat) → List Node
  | [], _, _ => []
  | p :: ps, base, stop =>
    layout p base [if ps.isEmpty then stop else base + p.size] false ++ layoutItems ps (base + p.size) stop

/-- The branches of a choice, each with an arc to `stop`. -/
def layoutBranches : List Pattern → (base : Nat) → (stop : Nat) → List Node
  | [], _, _ => []
  | p :: ps, base, stop => layout p base [stop] false ++ layoutBranches ps (base + p.size) stop

end

theorem length_layoutCopies {body : Nat → List Nat → Bool → List Node} {size min stop : Nat} {unbounded : Bool}
    (h : ∀ base out loopEntry, (body base out loopEntry).length = size) :
    ∀ left done base, (layoutCopies body size min stop unbounded left done base).length = left * size
  | 0, _, _ => by simp [layoutCopies]
  | 1, _, base => by simp [layoutCopies, h]
  | left + 2, done, base => by
    simp only [layoutCopies, List.length_append, h, length_layoutCopies h (left + 1), Nat.add_mul, Nat.one_mul]
    omega

mutual

/-- A layout has as many nodes as the size of its pattern says. -/
theorem length_layout : ∀ (p : Pattern) (base : Nat) (out : List Nat) (loopEntry : Bool),
    (p.layout base out loopEntry).length = p.size
  | .token _, _, _, _ => rfl
  | .tag _, _, _, _ => rfl
  | .rule _ body, base, _, _ => by simp [layout, size, length_layout body]
  | .sequence items, base, _, _ => by simp [layout, size, length_layoutItems items]
  | .alternatives branches, base, _, _ => by simp [layout, size, length_layoutBranches branches]
  | .count body min max, base, _, _ => by
    simp [layout, size, length_layoutCopies fun base out loopEntry => length_layout body base out loopEntry]

theorem length_layoutItems : ∀ (ps : List Pattern) (base stop : Nat), (layoutItems ps base stop).length = sizeAll ps
  | [], _, _ => rfl
  | p :: ps, base, stop => by simp [layoutItems, sizeAll, length_layout p, length_layoutItems ps]

theorem length_layoutBranches : ∀ (ps : List Pattern) (base stop : Nat),
    (layoutBranches ps base stop).length = sizeAll ps
  | [], _, _ => rfl
  | p :: ps, base, stop => by simp [layoutBranches, sizeAll, length_layout p, length_layoutBranches ps]

end

theorem final_layoutCopies {body : Nat → List Nat → Bool → List Node} {size min stop : Nat} {unbounded : Bool}
    (h : ∀ base out loopEntry, ∀ node ∈ body base out loopEntry, node.final = false) :
    ∀ left done base, ∀ node ∈ layoutCopies body size min stop unbounded left done base, node.final = false
  | 0, _, _ => List.forall_mem_nil _
  | 1, _, _ => h _ _ _
  | left + 2, done, base =>
    List.forall_mem_append.mpr ⟨h _ _ _, final_layoutCopies h (left + 1) (done + 1) (base + size)⟩

mutual

/-- No node of a layout is final. -/
theorem final_layout : ∀ (p : Pattern) (base : Nat) (out : List Nat) (loopEntry : Bool),
    ∀ node ∈ p.layout base out loopEntry, node.final = false
  | .token _, _, _, _ => List.forall_mem_singleton.mpr rfl
  | .tag _, _, _, _ => List.forall_mem_singleton.mpr rfl
  | .rule _ body, _, _, _ =>
    List.forall_mem_cons.mpr ⟨rfl, List.forall_mem_cons.mpr ⟨rfl, final_layout body _ _ _⟩⟩
  | .sequence items, _, _, _ =>
    List.forall_mem_cons.mpr ⟨rfl, List.forall_mem_cons.mpr ⟨rfl, final_layoutItems items _ _⟩⟩
  | .alternatives branches, _, _, _ =>
    List.forall_mem_cons.mpr ⟨rfl, List.forall_mem_cons.mpr ⟨rfl, final_layoutBranches branches _ _⟩⟩
  | .count body _ _, _, _, _ =>
    List.forall_mem_cons.mpr ⟨rfl, List.forall_mem_cons.mpr ⟨rfl,
      final_layoutCopies (fun _ _ _ => final_layout body _ _ _) _ _ _⟩⟩

theorem final_layoutItems : ∀ (ps : List Pattern) (base stop : Nat), ∀ node ∈ layoutItems ps base stop,
    node.final = false
  | [], _, _ => List.forall_mem_nil _
  | p :: ps, _, _ => List.forall_mem_append.mpr ⟨final_layout p _ _ _, final_layoutItems ps _ _⟩

theorem final_layoutBranches : ∀ (ps : List Pattern) (base stop : Nat), ∀ node ∈ layoutBranches ps base stop,
    node.final = false
  | [], _, _ => List.forall_mem_nil _
  | p :: ps, _, _ => List.forall_mem_append.mpr ⟨final_layout p _ _ _, final_layoutBranches ps _ _⟩

end

/-- The nodes of a rule with a body. The one where the rule stops is made final. -/
def layoutRule (name : String) (body : Pattern) : List Node :=
  ((Pattern.rule name body).layout 0 [] false).modify 1 fun node => { node with final := true }

theorem layoutRule_eq (name : String) (body : Pattern) :
    layoutRule name body =
      ⟨.startReference name 1, [2], false, false⟩ :: ⟨.endReference, [], false, true⟩ :: body.layout 2 [1] false := rfl

/-- A rule has a node where it starts, one where it stops, and those of its body. -/
theorem length_layoutRule (name : String) (body : Pattern) : (layoutRule name body).length = body.size + 2 := by
  rw [layoutRule_eq, List.length_cons, List.length_cons, length_layout]

/-- Only the node where the rule stops is final. -/
theorem final_layoutRule_iff (name : String) (body : Pattern) (id : Nat) :
    (layoutRule name body)[id]?.any (·.final) = true ↔ id = 1 := by
  rw [layoutRule_eq]
  match id with
  | 0 => simp
  | 1 => simp
  | id + 2 =>
    simp only [List.getElem?_cons_succ]
    cases hnode : (body.layout 2 [1] false)[id]? with
    | none => simp
    | some node => simp [final_layout body 2 [1] false node (List.mem_of_getElem? hnode)]

end Pattern

/-- A rule as a graph. Its second node, where the rule stops, is the only final one. -/
structure Graph where
  /-- The name of the rule. -/
  rule : String
  nodes : Array Node
  final_iff : ∀ id : Nat, nodes[id]?.any (·.final) = true ↔ id = 1

/-- The graph of a rule whose body has the given pattern. -/
def ruleGraph (name : String) (body : Pattern) : Graph where
  rule := name
  nodes := (body.layoutRule name).toArray
  final_iff := fun id => by
    rw [List.getElem?_toArray]
    exact body.final_layoutRule_iff name id

namespace Graph

/-- The node where the rule starts. -/
def start (_ : Graph) : Nat := 0

/-- The node where the rule stops. -/
def stop (_ : Graph) : Nat := 1

/-- The rule can be complete at the node. -/
def isFinal (g : Graph) (id : Nat) : Bool := g.nodes[id]?.any (·.final)

/-- The number of arcs. -/
def arcCount (g : Graph) : Nat := g.nodes.foldl (fun count node => count + node.arcs.length) 0

/-- The number of tokens. -/
def tokenCount (g : Graph) : Nat := g.nodes.toList.countP (·.kind.isToken)

/-- The graph in one line. -/
def summary (g : Graph) : String := s!"GrammarGraph(<{g.rule}>, {g.nodes.size} nodes, {g.arcCount} arcs)"

end Graph

/-- The graph of a rule of the starting grammar. -/
def Environment.compile (env : Environment) (name : String) : Except GrammarError Graph :=
  (env.pattern name).map (ruleGraph name)

end SpeechGrammar
