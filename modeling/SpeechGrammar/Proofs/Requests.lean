import SpeechGrammar.Proofs.WorkspaceRuns

/-!
# Requests are carried out as a whole or not at all

A workspace carries out a request step by step, and a text may fail to load when its grammar has been registered and has
some of the rules in its queue. What a request comes to is that of the operation that gives a new workspace only if it
succeeds (**`Workspace.answer_cases`**): after a success the workspaces are the same, and after a failure nothing is
registered that was not before, and every grammar that there was is as before. At most a grammar without a name is left.

So over any run the registered names are distinct and lead to grammars of these names, and a request that fails leaves
them as they are, with their committed states and their queues (**`Workspace.run_all_or_nothing`**).
-/

namespace SpeechGrammar

/-! ## Filling a grammar -/

namespace Grammar

variable {g next : Grammar} {rules : List Rule}

/-- A rule that is taken is queued. -/
theorem perform_of_addRule {rule : Rule} (h : g.addRule rule = .ok next) : g.perform (.addRule rule) = next := by
  rw [perform, h]

/-- Also a grammar that is filled in part is sound, and has its name. -/
theorem Sound.fill (h : g.Sound) (rules : List Rule) : (g.fill rules).1.Sound ∧ (g.fill rules).1.name = g.name := by
  induction rules generalizing g with
  | nil =>
    have hcommit : (g.fill []).1 = g.perform .commit := by
      rw [Grammar.fill, Grammar.perform]
      generalize g.commit = committed
      obtain ⟨next, e | changed⟩ := committed <;> rfl
    rw [hcommit]
    exact ⟨h.perform .commit, g.name_perform .commit⟩
  | cons rule rules ih =>
    rw [Grammar.fill]
    cases hadd : g.addRule rule with
    | error e => exact ⟨h, rfl⟩
    | ok next =>
      obtain rfl := perform_of_addRule hadd
      obtain ⟨hsound, hname⟩ := ih (h.perform (.addRule rule))
      exact ⟨hsound, hname.trans (g.name_perform _)⟩

/-- What a document describes is a grammar that is filled with its rules. -/
theorem fill_of_addRules (h : g.addRules rules = .ok next) : g.fill rules = next.fill [] := by
  induction rules generalizing g with
  | nil =>
    cases h
    rfl
  | cons rule rules ih =>
    rw [addRules] at h
    cases hadd : g.addRule rule with
    | error e => rw [hadd] at h; cases h
    | ok queued =>
      have hstep : g.fill (rule :: rules) = queued.fill rules := by rw [Grammar.fill, hadd]
      rw [hadd] at h
      exact hstep.trans (ih h)

theorem fill_of_addRules_error {e : GrammarError} (h : g.addRules rules = .error e) :
    (g.fill rules).2 = .error (.grammar e) := by
  induction rules generalizing g with
  | nil => cases h
  | cons rule rules ih =>
    rw [addRules] at h
    rw [fill]
    cases hadd : g.addRule rule with
    | error e => rw [hadd] at h; cases h; rfl
    | ok next => rw [hadd] at h; exact ih h

end Grammar

namespace Workspace

variable {w : Workspace} {g : Grammar} {h : Handle}

/-- What a document describes is a grammar that is filled with its rules. -/
theorem grammarOf_eq_fill (w : Workspace) (doc : Jsgf.Document) : w.grammarOf doc =
    match (w.linkedGrammar (.empty doc.name doc.locale)).fill doc.rules with
    | (g, .ok ()) => .ok g
    | (_, .error e) => .error e := by
  unfold grammarOf
  cases hadd : (w.linkedGrammar (.empty doc.name doc.locale)).addRules doc.rules with
  | error e =>
    have hfill := Grammar.fill_of_addRules_error hadd
    generalize (w.linkedGrammar (.empty doc.name doc.locale)).fill doc.rules = filled at hfill
    obtain ⟨g, result⟩ := filled
    obtain rfl : result = .error (.grammar e) := hfill
    rfl
  | ok next =>
    rw [Grammar.fill_of_addRules hadd, Grammar.fill]
    dsimp only
    generalize next.commit = committed
    obtain ⟨g, e | changed⟩ := committed <;> rfl

/-! ## Registering a grammar -/

/-- The workspace with a grammar under its name. -/
def named (w : Workspace) (g : Grammar) : Workspace :=
  { (w.keep g).2 with registered := (g.name, (w.keep g).1) :: w.registered }

theorem register_of_free (hfree : w.handle? g.name = none) : w.register g = .ok ((w.keep g).1, w.named g) :=
  register_eq_ok_iff.mpr ⟨hfree, rfl, rfl⟩

theorem register_of_taken {old : Handle} (htaken : w.handle? g.name = some old) :
    w.register g = .error (.duplicateGrammar g.name) := by
  rw [register, htaken]
  rfl

theorem grammar?_named (w : Workspace) (g : Grammar) : (w.named g).grammar? (w.keep g).1 = some g :=
  grammar?_keep_new w g

/-- A grammar that has just been registered is changed in its place. -/
theorem modify_named {f : Grammar → Grammar} (hname : (f g).name = g.name) :
    (w.named g).modify (w.keep g).1 f = w.named (f g) := by
  have hlast : (w.grammars.push g).modify w.grammars.size f = w.grammars.push (f g) := by grind
  simp only [named, modify, keep, hname, hlast]

/-- When its name is removed again, it is left without a name. -/
theorem unregister_named (hfree : w.handle? g.name = none) :
    (w.named g).unregister g.name = (.ok (w.keep g).1, (w.keep g).2) := by
  have hothers : w.registered.filter (·.1 != g.name) = w.registered := by
    refine List.filter_eq_self.mpr fun entry hmem => bne_iff_ne.mpr fun hname => ?_
    exact handle?_eq_none_iff.mp hfree (hname ▸ List.mem_map_of_mem hmem)
  have hhere : (w.named g).handle? g.name = some (w.keep g).1 := List.lookup_cons_self
  rw [unregister, delete, hhere]
  simp only [reply, named, List.filter_cons, bne_self_eq_false, Bool.false_eq_true, ↓reduceIte, hothers]
  rfl

/-! ## What a request comes to -/

/-- What a request comes to: a new workspace, or nothing. -/
def outcome (w : Workspace) : Request → Except LoadError (Handle × Workspace)
  | .create name root locale => (w.create name root locale).mapError .grammar
  | .load source => w.load source
  | .loadFile bytes => w.loadFile bytes
  | .restore bytes => w.restore bytes
  | .delete name => (w.delete name).mapError .grammar

/-- How a request is answered that comes to something or to nothing. If it fails, all is as it was, or else there is one
more grammar, which has no name. -/
inductive Answers (w : Workspace) :
    Except LoadError (Handle × Workspace) → Except LoadError Handle × Workspace → Prop
  | done {h w'} : Answers w (.ok (h, w')) (.ok h, w')
  | refused {e} : Answers w (.error e) (.error e, w)
  | undone {e g} : g.Sound → Answers w (.error e) (.error e, (w.keep g).2)

theorem answers_reply (w : Workspace) (r : Except GrammarError (Handle × Workspace)) :
    w.Answers (r.mapError .grammar) (w.reply r) := by
  cases r with
  | error e => exact .refused
  | ok r => exact .done

theorem adopt_of_free {s : Snapshot} (hfree : w.handle? s.name = none) :
    w.adopt s = (.ok (w.keep (w.linkedGrammar s)).1, w.named (w.linkedGrammar s)) := by
  rw [adopt, register_of_free (show w.handle? (w.linkedGrammar s).name = none from hfree)]
  rfl

theorem adopt_of_taken {s : Snapshot} {old : Handle} (htaken : w.handle? s.name = some old) :
    w.adopt s = (.error (.grammar (.duplicateGrammar s.name)), w) := by
  rw [adopt, register_of_taken (show w.handle? (w.linkedGrammar s).name = some old from htaken)]
  rfl

/-- A grammar is registered first, and then its root is queued. -/
theorem answers_create (w : Workspace) (name : String) (root locale : Option String) :
    w.Answers ((w.create name root locale).mapError .grammar) (w.createInPlace name root locale) := by
  unfold create createInPlace
  cases hname : w.handle? name with
  | some old =>
    rw [adopt_of_taken hname, @register_of_taken w _ old (by split <;> exact hname)]
    split
    · exact .refused
    · exact .refused
  | none =>
    rw [adopt_of_free hname, register_of_free (by split <;> exact hname)]
    dsimp only
    split
    · rw [modify_named (f := fun g => g.enqueue (.setRoot root)) rfl]
      exact .done
    · exact .done

/-- A text is loaded into a grammar that is registered first. If this fails, the grammar is left without a name. -/
theorem answers_load (w : Workspace) (source : String) : w.Answers (w.load source) (w.loadInPlace source) := by
  unfold load loadInPlace
  cases hdoc : Jsgf.Document.parse source with
  | error e => exact .refused
  | ok doc =>
    dsimp only
    cases hname : w.handle? doc.name with
    | some old =>
      rw [createInPlace, adopt_of_taken hname]
      exact .refused
    | none =>
      rw [grammarOf_eq_fill, createInPlace, adopt_of_free hname]
      have hopened : (w.linkedGrammar (.empty doc.name doc.locale)).Sound := Grammar.sound_empty _ _ _ true
      have hopenedName : (w.linkedGrammar (.empty doc.name doc.locale)).name = doc.name := rfl
      generalize w.linkedGrammar (.empty doc.name doc.locale) = opened at hopened hopenedName ⊢
      obtain ⟨hsound, hkept⟩ := hopened.fill doc.rules
      simp only [Option.isSome_none, Bool.false_eq_true, ↓reduceIte, grammar?_named, Option.getD_some]
      generalize opened.fill doc.rules = filled at hsound hkept ⊢
      obtain ⟨g, e | ⟨⟩⟩ := filled
      all_goals
        have hput : (w.named opened).put (w.keep opened).1 g = w.named g := modify_named (f := fun _ => g) hkept
        have hfree : w.handle? g.name = none := by rw [hkept, hopenedName]; exact hname
      · simp only [hput, unregister_named hfree]
        exact .undone hsound
      · simp only [hput, register_of_free hfree]
        exact .done

theorem answers_restore (w : Workspace) (bytes : List UInt8) :
    w.Answers (w.restore bytes) (w.answer (.restore bytes)) := by
  rw [restore, answer]
  cases Cache.decode bytes with
  | error e => exact .refused
  | ok s => exact answers_reply w _

theorem answers_loadFile (w : Workspace) (bytes : Option (List UInt8)) :
    w.Answers (w.loadFile bytes) (w.answer (.loadFile bytes)) := by
  cases bytes with
  | none => exact .refused
  | some bytes =>
    rw [loadFile, answer]
    cases Text.ofUtf8? bytes with
    | none => exact .refused
    | some source => exact answers_load w source

/-- **What a request comes to.** It is answered as by the operation that gives a new workspace only if it succeeds. -/
theorem answer_cases (w : Workspace) : ∀ r, w.Answers (w.outcome r) (w.answer r)
  | .create name root locale => answers_create w name root locale
  | .load source => answers_load w source
  | .loadFile bytes => answers_loadFile w bytes
  | .restore bytes => answers_restore w bytes
  | .delete name => answers_reply w (w.delete name)

/-! ## After a request -/

theorem eq_ok_of_mapError {r : Except GrammarError (Handle × Workspace)} {w' : Workspace}
    (hr : r.mapError LoadError.grammar = .ok (h, w')) : r = .ok (h, w') := by
  cases r with
  | error e => cases hr
  | ok r => cases hr; rfl

/-- A request that comes to something leaves a sound workspace. -/
theorem Sound.outcome (hw : w.Sound) {w' : Workspace} : ∀ {r : Request}, w.outcome r = .ok (h, w') → w'.Sound
  | .create _ _ _, ho => hw.create (eq_ok_of_mapError ho)
  | .load _, ho => hw.load ho
  | .loadFile none, ho => by cases ho
  | .loadFile (some bytes), ho => by
    rw [Workspace.outcome, loadFile] at ho
    split at ho
    · cases ho
    · exact hw.load ho
  | .restore _, ho => hw.restore ho
  | .delete _, ho => hw.delete (eq_ok_of_mapError ho)

/-- Also a request that fails leaves a sound workspace. -/
theorem Sound.answer (hw : w.Sound) (r : Request) : (w.answer r).2.Sound := by
  have hanswers := w.answer_cases r
  generalize ho : w.outcome r = o, w.answer r = a at hanswers
  cases hanswers with
  | done => exact hw.outcome ho
  | refused => exact hw
  | undone hg => exact hw.keep hg

/-- A request that fails registers nothing and removes no name, and the grammars are as before. -/
theorem answer_error {r : Request} {e : LoadError} (herror : (w.answer r).1 = .error e) :
    (w.answer r).2.registered = w.registered ∧
      ∀ h g, w.grammar? h = some g → (w.answer r).2.grammar? h = some g := by
  have hanswers := w.answer_cases r
  generalize w.outcome r = o, w.answer r = a at hanswers herror ⊢
  cases hanswers with
  | done => cases herror
  | refused => exact ⟨rfl, fun _ _ hg => hg⟩
  | undone _ => exact ⟨rfl, fun _ _ hg => grammar?_keep_old w _ hg⟩

/-! ## Runs -/

/-- What happens to a workspace: it is asked for something, or one of its grammars is changed. Whatever compiles or parses
only reads it. -/
inductive Event where
  | request (r : Request)
  | perform (h : Handle) (o : Operation)

/-- The workspace after an event. -/
def after (w : Workspace) : Event → Workspace
  | .request r => (w.answer r).2
  | .perform h o => w.modify h (·.perform o)

/-- The workspace after several events. -/
def run (w : Workspace) : List Event → Workspace
  | [] => w
  | event :: events => (w.after event).run events

theorem Sound.after (hw : w.Sound) : ∀ event, (w.after event).Sound
  | .request r => hw.answer r
  | .perform h o => hw.modify h o

/-- Events keep a workspace sound. -/
theorem Sound.run (hw : w.Sound) (events : List Event) : (w.run events).Sound := by
  induction events generalizing w with
  | nil => exact hw
  | cons event events ih => exact ih (hw.after event)

/-- **Requests are all or nothing.** However a workspace came about, its registered names are distinct, and each leads to
a grammar that has this name, and whose committed state has it. And a request that fails leaves the registered names as
they are, and every grammar that there was, with its committed state and with its queue. -/
theorem run_all_or_nothing (options : SearchOptions) (events : List Event) :
    (((empty options).run events).registered.map Prod.fst).Nodup ∧
      (∀ name h, (name, h) ∈ ((empty options).run events).registered →
        ∃ g, ((empty options).run events).grammar? h = some g ∧ g.name = name ∧ g.committed.name = name) ∧
      ∀ r e, (((empty options).run events).answer r).1 = .error e →
        (((empty options).run events).answer r).2.registered = ((empty options).run events).registered ∧
          ∀ h g, ((empty options).run events).grammar? h = some g →
            (((empty options).run events).answer r).2.grammar? h = some g := by
  have hsound := (sound_empty options).run events
  refine ⟨hsound.names, fun name h hmem => ?_, fun r e => answer_error⟩
  obtain ⟨g, hg, hname⟩ := hsound.registered name h hmem
  exact ⟨g, hg, hname, hname⟩

/-- A grammar that is created with a root, gets its rule by a commit, and has a change in its queue. -/
def doorEvents : List Event :=
  [.request (.create "door" (some "open") none), .perform 0 (.addRule ⟨"open", true, .token "open"⟩), .perform 0 .commit,
    .perform 0 (.removeRule "open")]

/-- A text with two rules of one name, which can be queued but not committed. -/
def twiceText : String := "#JSGF V1.0;\ngrammar window;\npublic <open> = up;\npublic <open> = down;\n"

theorem doorEvents_all_or_nothing :
    ∃ e g, (((empty default).run doorEvents).answer (.load twiceText)).1 = .error e ∧
      (((empty default).run doorEvents).answer (.load twiceText)).2.registered = [("door", 0)] ∧
      (((empty default).run doorEvents).answer (.load twiceText)).2.grammar? 0 = some g ∧ g.name = "door" ∧
      (((empty default).run doorEvents).answer (.load twiceText)).2.grammars.size = 2 := by
  have hfails : (((empty default).run doorEvents).answer (.load twiceText)).1.toOption = none := by decide +kernel
  have hnames : ((empty default).run doorEvents).registered = [("door", 0)] := by decide +kernel
  have hsize : (((empty default).run doorEvents).answer (.load twiceText)).2.grammars.size = 2 := by decide +kernel
  obtain ⟨-, hnamed, hfailure⟩ := run_all_or_nothing default doorEvents
  obtain ⟨g, hg, hname, -⟩ := hnamed "door" 0 (hnames ▸ List.mem_singleton_self _)
  obtain ⟨e, herror⟩ : ∃ e, (((empty default).run doorEvents).answer (.load twiceText)).1 = .error e := by
    generalize (((empty default).run doorEvents).answer (.load twiceText)).1 = result at hfails ⊢
    cases result with
    | error e => exact ⟨e, rfl⟩
    | ok h => cases hfails
  obtain ⟨hregistered, hkept⟩ := hfailure _ e herror
  exact ⟨e, g, herror, hregistered.trans hnames, hkept 0 g hg, hname, hsize⟩

end Workspace

end SpeechGrammar
