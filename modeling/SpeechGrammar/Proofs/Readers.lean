import SpeechGrammar.Jsgf.Layout
import Mathlib.Data.List.Basic
import Mathlib.Data.List.TakeWhile

/-!
# What readers do

How the parts of a reader make up the whole: what it reads, where it refuses to read (`Reader.Refuses`), what holds of
everything that it gives (`Reader.Yields`), how much it takes at least (`Reader.Takes`), and where it fails for good
(`Reader.Aborts`). A reader is repeated along a chain of texts up to one that it refuses (**`Reader.many_of_chain`**),
or it gets stuck at one where it aborts (**`Reader.GetsStuck.many`**). Layout ends where the text is solid
(**`Reader.layout_append`**).
-/

namespace SpeechGrammar.Jsgf.Reader

variable {α β : Type} {p q : Reader α} {f : α → Reader β} {r : Reader β} {g : α → β} {s t rest : List Char} {a : α}
  {b : β} {as bs : List α} {accepts : Char → Bool}

/-! ## Readers that succeed -/

theorem pure_eq (a : α) (s : List Char) : (pure a : Reader α) s = .ok (a, s) := rfl

theorem bind_of_ok (h : p s = .ok (a, t)) : (p >>= f) s = f a t := by
  show (p s >>= fun x => f x.1 x.2) = _
  rw [h]
  rfl

theorem bind_congr_text (h : p s = p t) : (p >>= f) s = (p >>= f) t := by
  show (p s >>= fun x => f x.1 x.2) = _
  rw [h]
  rfl

theorem seqRight_of_ok (h : p s = .ok (a, t)) : (p *> r) s = r t := bind_of_ok h

theorem map_of_ok (h : p s = .ok (a, t)) : (g <$> p) s = .ok (g a, t) := by
  show (p s >>= fun x => pure (g x.1, x.2)) = _
  rw [h]
  rfl

theorem cut_of_ok (h : p s = .ok (a, t)) : cut p s = .ok (a, t) := by
  rw [cut, h]

theorem expecting_of_ok {e : Expectation} (h : p s = .ok (a, t)) : expecting e p s = .ok (a, t) := by
  rw [expecting, h]

theorem orElse_of_ok (h : p s = .ok (a, t)) : orElse p q s = .ok (a, t) := by
  rw [orElse, h]

theorem optionally_of_ok (h : p s = .ok (a, t)) : optionally p s = .ok (some a, t) := orElse_of_ok (map_of_ok h)

theorem literal_append (cs rest : List Char) : literal cs (cs ++ rest) = .ok ((), rest) := by
  rw [literal, List.isPrefixOf?_eq_some_iff_append_eq.mpr rfl]

theorem char_cons (c : Char) (rest : List Char) : char c (c :: rest) = .ok ((), rest) := literal_append [c] rest

/-- The text does not start with a character of the class. -/
def Stops (accepts : Char → Bool) (s : List Char) : Prop := ∀ c cs, s = c :: cs → accepts c = false

theorem stops_nil : Stops accepts [] := nofun

theorem stops_cons {c : Char} (h : accepts c = false) (cs : List Char) : Stops accepts (c :: cs) := by
  rintro _ _ ⟨⟩
  exact h

theorem takeWhile_append {cs : List Char} (hcs : ∀ c ∈ cs, accepts c = true) (hs : Stops accepts s) :
    (cs ++ s).takeWhile accepts = cs ∧ (cs ++ s).dropWhile accepts = s := by
  rw [List.takeWhile_append_of_pos hcs, List.dropWhile_append_of_pos hcs]
  cases s with
  | nil => simp
  | cons c s => simp [hs c s rfl]

/-- A run takes all characters of the class. -/
theorem run_append {cs : List Char} (hcs : ∀ c ∈ cs, accepts c = true) (hne : cs ≠ []) (hs : Stops accepts s) :
    run accepts (cs ++ s) = .ok (cs, s) := by
  obtain ⟨htake, hdrop⟩ := takeWhile_append hcs hs
  simp [run, htake, hdrop, hne]

theorem skip_append (cs : List Char) (hcs : ∀ c ∈ cs, accepts c = true) (hs : Stops accepts s) :
    skip accepts (cs ++ s) = .ok ((), s) := by
  rw [skip, (takeWhile_append hcs hs).2]

/-! ## Readers that refuse -/

/-- The reader fails softly, so that something else is tried. -/
def Refuses (p : Reader α) (s : List Char) : Prop := ∃ e, p s = .error e ∧ e.hard = false

theorem refuses_refuse : Refuses (refuse : Reader α) s := ⟨_, rfl, rfl⟩

theorem Refuses.bind (h : Refuses p s) : Refuses (p >>= f) s := by
  obtain ⟨e, he, hsoft⟩ := h
  refine ⟨e, ?_, hsoft⟩
  show (p s >>= fun x => f x.1 x.2) = _
  rw [he]
  rfl

theorem Refuses.seqRight (h : Refuses p s) : Refuses (p *> r) s := h.bind

theorem Refuses.map (h : Refuses p s) : Refuses (g <$> p) s := by
  obtain ⟨e, he, hsoft⟩ := h
  refine ⟨e, ?_, hsoft⟩
  show (p s >>= fun x => pure (g x.1, x.2)) = _
  rw [he]
  rfl

theorem refuses_bind_of_ok (h : p s = .ok (a, t)) (hf : Refuses (f a) t) : Refuses (p >>= f) s := by
  rwa [Refuses, bind_of_ok h]

theorem refuses_seqRight_of_ok (h : p s = .ok (a, t)) (hr : Refuses r t) : Refuses (p *> r) s := refuses_bind_of_ok h hr

theorem Refuses.expecting {e : Expectation} (h : Refuses p s) : Refuses (expecting e p) s := by
  obtain ⟨failure, hp, hsoft⟩ := h
  exact ⟨{ failure with expected := failure.expected ++ [e] }, by rw [Reader.expecting, hp], hsoft⟩

theorem orElse_of_refuses (h : Refuses p s) : orElse p q s = q s := by
  obtain ⟨e, he, hsoft⟩ := h
  simp [orElse, he, hsoft]

theorem Refuses.orElse (hp : Refuses p s) (hq : Refuses q s) : Refuses (orElse p q) s := by
  rwa [Refuses, orElse_of_refuses hp]

theorem optionally_of_refuses (h : Refuses p s) : optionally p s = .ok (none, s) := orElse_of_refuses h.map

theorem refuses_literal {cs : List Char} (h : ¬ cs <+: s) : Refuses (literal cs) s := by
  have hnone : cs.isPrefixOf? s = none :=
    Option.eq_none_iff_forall_ne_some.mpr fun t ht => h ⟨t, List.isPrefixOf?_eq_some_iff_append_eq.mp ht⟩
  rw [Refuses, literal, hnone]
  exact refuses_refuse

theorem refuses_char {c : Char} (h : s.head? ≠ some c) : Refuses (char c) s := by
  refine refuses_literal fun hprefix => h ?_
  obtain ⟨t, rfl⟩ := hprefix
  rfl

theorem refuses_run (h : Stops accepts s) : Refuses (run accepts) s := by
  have htake : s.takeWhile accepts = [] := (takeWhile_append (List.forall_mem_nil _) h).1
  rw [Refuses, run, htake]
  exact refuses_refuse

/-- A run does not come to a delimiter that has another character before it. -/
theorem run_before_char {cs : List Char} {close : Char} (hcs : ∃ c ∈ cs, accepts c = false) (hclose : close ∉ cs)
    (rest : List Char) :
    Refuses (run accepts) (cs ++ rest) ∨
      ∃ good t, run accepts (cs ++ rest) = .ok (good, t) ∧ Refuses (char close) t := by
  obtain ⟨bad, hbad⟩ : ∃ bad, cs.find? (fun c => !accepts c) = some bad := by
    obtain ⟨c, hc, hnot⟩ := hcs
    exact Option.isSome_iff_exists.mp (List.find?_isSome.mpr ⟨c, hc, by rw [hnot]; rfl⟩)
  obtain ⟨hnot, good, more, rfl, hgood⟩ := List.find?_eq_some_iff_append.mp hbad
  rw [Bool.not_eq_true'] at hnot
  simp only [Bool.not_not] at hgood
  have hne : bad ≠ close := fun h => hclose (h ▸ by simp)
  rw [List.append_assoc, List.cons_append]
  by_cases hempty : good = []
  · subst hempty
    exact .inl (refuses_run (stops_cons hnot _))
  · exact .inr ⟨good, _, run_append hgood hempty (stops_cons hnot _), refuses_char fun h => hne (Option.some.inj h)⟩

/-! ## What a reader gives -/

theorem exists_of_bind {x : β × List Char} (h : (p >>= f) s = .ok x) : ∃ a t, p s = .ok (a, t) ∧ f a t = .ok x := by
  cases hp : p s with
  | error e =>
    change (p s >>= fun x => f x.1 x.2) = _ at h
    rw [hp] at h
    cases h
  | ok y => exact ⟨y.1, y.2, rfl, by rwa [bind_of_ok hp] at h⟩

theorem exists_of_map (h : (g <$> p) s = .ok (b, t)) : ∃ a, p s = .ok (a, t) ∧ g a = b := by
  cases hp : p s with
  | error e =>
    change (p s >>= fun x => pure (g x.1, x.2)) = _ at h
    rw [hp] at h
    cases h
  | ok y =>
    rw [map_of_ok hp] at h
    cases h
    exact ⟨y.1, rfl, rfl⟩

theorem ok_of_cut {x : α × List Char} (h : cut p s = .ok x) : p s = .ok x := by
  unfold cut at h
  split at h
  · cases h
  · rename_i y hp
    rw [hp, ← h]

theorem ok_of_expecting {e : Expectation} {x : α × List Char} (h : expecting e p s = .ok x) : p s = .ok x := by
  unfold expecting at h
  split at h
  · cases h
  · rename_i y hp
    rw [hp, ← h]

theorem ok_of_orElse {x : α × List Char} (h : orElse p q s = .ok x) : p s = .ok x ∨ q s = .ok x := by
  unfold orElse at h
  split at h
  · split at h
    · cases h
    · exact .inr h
  · rename_i y hp
    exact .inl (by rw [hp, ← h])

theorem ok_of_again {more : Reader (List α)} {x : List α × List Char} (h : again p more s = .ok x) :
    x = ([], s) ∨ ∃ a t as rest, p s = .ok (a, t) ∧ more t = .ok (as, rest) ∧ x = (a :: as, rest) := by
  unfold again at h
  split at h
  · split at h
    · cases h
    · cases h
      exact .inl rfl
  · rename_i a t hp
    split at h
    · cases h
    · rename_i as rest hmore
      cases h
      exact .inr ⟨a, t, as, rest, hp, hmore, rfl⟩

/-- Everything that the reader gives is of this kind. -/
def Yields (p : Reader α) (P : α → Prop) : Prop := ∀ ⦃s a t⦄, p s = .ok (a, t) → P a

section

variable {P : α → Prop} {Q : β → Prop}

theorem yields_true (p : Reader α) : Yields p fun _ => True := fun _ _ _ _ => trivial

theorem yields_pure (h : P a) : Yields (pure a) P := by
  intro s b t hb
  cases hb
  exact h

theorem Yields.bind (hp : Yields p P) (hf : ∀ a, P a → Yields (f a) Q) : Yields (p >>= f) Q := by
  intro s b t h
  obtain ⟨a, u, ha, hb⟩ := exists_of_bind h
  exact hf a (hp ha) hb

theorem Yields.map (hp : Yields p P) (hg : ∀ a, P a → Q (g a)) : Yields (g <$> p) Q := by
  intro s b t h
  obtain ⟨a, ha, rfl⟩ := exists_of_map h
  exact hg a (hp ha)

theorem Yields.cut (hp : Yields p P) : Yields (cut p) P := fun _ _ _ h => hp (ok_of_cut h)

theorem Yields.expecting {e : Expectation} (hp : Yields p P) : Yields (expecting e p) P :=
  fun _ _ _ h => hp (ok_of_expecting h)

theorem Yields.orElse (hp : Yields p P) (hq : Yields q P) : Yields (orElse p q) P := by
  intro s a t h
  rcases ok_of_orElse h with h | h
  · exact hp h
  · exact hq h

theorem Yields.optionally (hp : Yields p P) : Yields (optionally p) fun x => ∀ a, x = some a → P a :=
  (hp.map fun _ ha _ hb => Option.some.inj hb ▸ ha).orElse (yields_pure nofun)

theorem Yields.again {more : Reader (List α)} (hp : Yields p P) (hmore : Yields more (∀ a ∈ ·, P a)) :
    Yields (again p more) (∀ a ∈ ·, P a) := by
  intro s as t h
  rcases ok_of_again h with heq | ⟨a, u, as, rest, ha, has, heq⟩ <;> cases heq
  · exact nofun
  · exact List.forall_mem_cons.mpr ⟨hp ha, hmore has⟩

theorem Yields.atMost (hp : Yields p P) (n : Nat) : Yields (atMost p n) (∀ a ∈ ·, P a) := by
  induction n with
  | zero => exact yields_pure nofun
  | succ n ih => exact hp.again ih

theorem Yields.manyWithin (hp : Yields p P) (bound : List Char) : Yields (manyWithin p bound) (∀ a ∈ ·, P a) := by
  induction bound with
  | nil => exact hp.again (yields_pure nofun)
  | cons c bound ih => exact hp.again ih

theorem Yields.many (hp : Yields p P) : Yields (many p) (∀ a ∈ ·, P a) := fun s _ _ h => hp.manyWithin s h

theorem Yields.atLeastOnce (hp : Yields p P) : Yields (atLeastOnce p) fun as => as ≠ [] ∧ ∀ a ∈ as, P a :=
  hp.bind fun _ ha => hp.many.bind fun _ has => yields_pure ⟨nofun, List.forall_mem_cons.mpr ⟨ha, has⟩⟩

theorem yields_run : Yields (run accepts) fun cs => cs ≠ [] ∧ ∀ c ∈ cs, accepts c = true := by
  intro s cs t h
  unfold run at h
  split at h
  · cases h
  · rename_i hne
    cases h
    exact ⟨by simpa using hne, fun c hc => List.mem_takeWhile_imp hc⟩

end

/-! ## How much a reader takes -/

/-- The reader leaves an end of the text, and takes at least so many characters. -/
def Takes (p : Reader α) (n : Nat) : Prop := ∀ ⦃s a t⦄, p s = .ok (a, t) → t <:+ s ∧ t.length + n ≤ s.length

section

variable {m n : Nat}

theorem Takes.weaken (hp : Takes p n) (hmn : m ≤ n) : Takes p m :=
  fun _ _ _ h => ⟨(hp h).1, Nat.le_trans (Nat.add_le_add_left hmn _) (hp h).2⟩

theorem takes_pure (a : α) : Takes (pure a) 0 := by
  intro s b t h
  cases h
  exact ⟨List.suffix_refl s, Nat.le_refl _⟩

theorem Takes.bind (hp : Takes p m) (hf : ∀ a, Takes (f a) n) : Takes (p >>= f) (m + n) := by
  intro s b t h
  obtain ⟨a, u, ha, hb⟩ := exists_of_bind h
  obtain ⟨hu, hlength⟩ := hp ha
  obtain ⟨ht, hlength'⟩ := hf a hb
  exact ⟨ht.trans hu, by omega⟩

theorem Takes.seqRight (hp : Takes p m) (hr : Takes r n) : Takes (p *> r) (m + n) := hp.bind fun _ => hr

theorem Takes.map (hp : Takes p n) : Takes (g <$> p) n := by
  intro s b t h
  obtain ⟨a, ha, -⟩ := exists_of_map h
  exact hp ha

theorem Takes.cut (hp : Takes p n) : Takes (cut p) n := fun _ _ _ h => hp (ok_of_cut h)

theorem Takes.expecting {e : Expectation} (hp : Takes p n) : Takes (expecting e p) n :=
  fun _ _ _ h => hp (ok_of_expecting h)

theorem Takes.orElse (hp : Takes p n) (hq : Takes q n) : Takes (orElse p q) n := by
  intro s a t h
  rcases ok_of_orElse h with h | h
  · exact hp h
  · exact hq h

theorem Takes.optionally (hp : Takes p n) : Takes (optionally p) 0 :=
  (hp.map.weaken (Nat.zero_le n)).orElse (takes_pure none)

theorem Takes.again {more : Reader (List α)} (hp : Takes p 0) (hmore : Takes more 0) : Takes (again p more) 0 := by
  intro s as t h
  rcases ok_of_again h with heq | ⟨a, u, as, rest, ha, has, heq⟩ <;> cases heq
  · exact ⟨List.suffix_refl s, Nat.le_refl _⟩
  · exact ⟨(hmore has).1.trans (hp ha).1, Nat.le_trans (hmore has).2 (hp ha).2⟩

theorem Takes.many (hp : Takes p 0) : Takes (many p) 0 := by
  have hwithin (bound : List Char) : Takes (manyWithin p bound) 0 := by
    induction bound with
    | nil => exact hp.again (takes_pure [])
    | cons c bound ih => exact hp.again ih
  exact fun s _ _ h => hwithin s h

theorem Takes.atMost (hp : Takes p 0) (n : Nat) : Takes (atMost p n) 0 := by
  induction n with
  | zero => exact takes_pure []
  | succ n ih => exact hp.again ih

theorem takes_literal (cs : List Char) : Takes (literal cs) cs.length := by
  intro s a t h
  unfold literal at h
  split at h
  · rename_i hprefix
    cases h
    rw [← List.isPrefixOf?_eq_some_iff_append_eq.mp hprefix]
    exact ⟨List.suffix_append cs t, by simp [Nat.add_comm]⟩
  · cases h

theorem takes_char (c : Char) : Takes (char c) 1 := takes_literal [c]

theorem takes_run : Takes (run accepts) 1 := by
  intro s cs t h
  unfold run at h
  split at h
  · cases h
  · rename_i hne
    cases h
    have hlength := congrArg List.length (List.takeWhile_append_dropWhile (p := accepts) (l := s))
    have hpos : 0 < (s.takeWhile accepts).length := List.length_pos_iff.mpr (by simpa using hne)
    rw [List.length_append] at hlength
    exact ⟨List.dropWhile_suffix accepts, by omega⟩

theorem takes_skip : Takes (skip accepts) 0 := by
  intro s a t h
  cases h
  exact ⟨List.dropWhile_suffix accepts, (List.dropWhile_suffix accepts).length_le⟩

end

/-! ## Repetition -/

/-- What the reader gives one after the other along a text. -/
inductive Chain (p : Reader α) : List Char → List α → List Char → Prop
  | nil (s : List Char) : Chain p s [] s
  | cons {s t rest : List Char} {a : α} {as : List α} : p s = .ok (a, t) → Chain p t as rest → Chain p s (a :: as) rest

theorem Chain.append (h : Chain p s as t) (h' : Chain p t bs rest) : Chain p s (as ++ bs) rest := by
  induction h with
  | nil => exact h'
  | cons ha _ ih => exact .cons ha (ih h')

theorem Chain.length_le (hp : Takes p 1) (h : Chain p s as t) : as.length + t.length ≤ s.length := by
  induction h with
  | nil => simp
  | cons ha _ ih =>
    have := (hp ha).2
    rw [List.length_cons]
    omega

theorem again_of_ok {more : Reader (List α)} (h : p s = .ok (a, t)) (hmore : more t = .ok (as, rest)) :
    again p more s = .ok (a :: as, rest) := by
  rw [again, h]
  simp only [hmore]

theorem again_of_refuses {more : Reader (List α)} (h : Refuses p s) : again p more s = .ok ([], s) := by
  obtain ⟨e, he, hsoft⟩ := h
  simp [again, he, hsoft]

theorem manyWithin_of_chain {bound : List Char} (h : Chain p s as t) (ht : Refuses p t)
    (hbound : as.length ≤ bound.length) : manyWithin p bound s = .ok (as, t) := by
  induction h generalizing bound with
  | nil s => cases bound <;> exact again_of_refuses ht
  | cons ha _ ih =>
    cases bound with
    | nil => cases hbound
    | cons c bound => exact again_of_ok ha (ih ht (Nat.le_of_succ_le_succ hbound))

/-- **A reader that takes something is repeated along a chain, up to a text that it refuses.** -/
theorem many_of_chain (hp : Takes p 1) (h : Chain p s as t) (ht : Refuses p t) : many p s = .ok (as, t) :=
  manyWithin_of_chain h ht (by have := h.length_le hp; omega)

theorem atLeastOnce_of_chain (hp : Takes p 1) (h : Chain p s as t) (hne : as ≠ []) (ht : Refuses p t) :
    atLeastOnce p s = .ok (as, t) := by
  cases h with
  | nil => exact absurd rfl hne
  | cons ha h => rw [atLeastOnce, bind_of_ok ha, bind_of_ok (many_of_chain hp h ht), pure_eq]

/-! ## Readers that fail -/

/-- The reader gives nothing. -/
def Fails (p : Reader α) (s : List Char) : Prop := ∃ e, p s = .error e

/-- The reader fails hard, so that nothing else is tried. -/
def Aborts (p : Reader α) (s : List Char) : Prop := ∃ e, p s = .error e ∧ e.hard = true

/-- The reader is repeated up to a text where it fails hard. -/
def GetsStuck (p : Reader α) (s : List Char) : Prop := ∃ as t, Chain p s as t ∧ Aborts p t

theorem Refuses.fails (h : Refuses p s) : Fails p s := h.imp fun _ he => he.1

theorem Aborts.fails (h : Aborts p s) : Fails p s := h.imp fun _ he => he.1

theorem Fails.bind (h : Fails p s) : Fails (p >>= f) s := by
  obtain ⟨e, he⟩ := h
  refine ⟨e, ?_⟩
  show (p s >>= fun x => f x.1 x.2) = _
  rw [he]
  rfl

theorem fails_bind_of_ok (h : p s = .ok (a, t)) (hf : Fails (f a) t) : Fails (p >>= f) s := by
  rwa [Fails, bind_of_ok h]

theorem Fails.cut (h : Fails p s) : Aborts (cut p) s := by
  obtain ⟨e, he⟩ := h
  exact ⟨{ e with hard := true }, by rw [Reader.cut, he], rfl⟩

theorem Aborts.bind (h : Aborts p s) : Aborts (p >>= f) s := by
  obtain ⟨e, he, hhard⟩ := h
  refine ⟨e, ?_, hhard⟩
  show (p s >>= fun x => f x.1 x.2) = _
  rw [he]
  rfl

theorem aborts_bind_of_ok (h : p s = .ok (a, t)) (hf : Aborts (f a) t) : Aborts (p >>= f) s := by
  rwa [Aborts, bind_of_ok h]

theorem Aborts.map (h : Aborts p s) : Aborts (g <$> p) s := by
  obtain ⟨e, he, hhard⟩ := h
  refine ⟨e, ?_, hhard⟩
  show (p s >>= fun x => pure (g x.1, x.2)) = _
  rw [he]
  rfl

theorem Aborts.expecting {e : Expectation} (h : Aborts p s) : Aborts (expecting e p) s := by
  obtain ⟨failure, hp, hhard⟩ := h
  exact ⟨{ failure with expected := failure.expected ++ [e] }, by rw [Reader.expecting, hp], hhard⟩

theorem Aborts.orElse (h : Aborts p s) : Aborts (orElse p q) s := by
  obtain ⟨e, he, hhard⟩ := h
  exact ⟨e, by simp [Reader.orElse, he, hhard], hhard⟩

theorem aborts_orElse_of_refuses (hp : Refuses p s) (hq : Aborts q s) : Aborts (orElse p q) s := by
  rwa [Aborts, orElse_of_refuses hp]

/-- What comes before a text at which a repetition gets stuck does not help. -/
theorem GetsStuck.after (h : Chain p s as t) (ht : GetsStuck p t) : GetsStuck p s := by
  obtain ⟨bs, u, hchain, hu⟩ := ht
  exact ⟨as ++ bs, u, h.append hchain, hu⟩

theorem Aborts.getsStuck (h : Aborts p s) : GetsStuck p s := ⟨[], s, .nil s, h⟩

theorem Aborts.again {more : Reader (List α)} (h : Aborts p s) : Aborts (again p more) s := by
  obtain ⟨e, he, hhard⟩ := h
  exact ⟨e, by simp [Reader.again, he, hhard], hhard⟩

theorem aborts_again_of_ok {more : Reader (List α)} (h : p s = .ok (a, t)) (hmore : Aborts more t) :
    Aborts (again p more) s := by
  obtain ⟨e, he, hhard⟩ := hmore
  exact ⟨e, by simp [Reader.again, h, he], hhard⟩

theorem manyWithin_of_getsStuck {bound : List Char} (h : Chain p s as t) (ht : Aborts p t)
    (hbound : as.length ≤ bound.length) : Aborts (manyWithin p bound) s := by
  induction h generalizing bound with
  | nil s => cases bound <;> exact ht.again
  | cons ha _ ih =>
    cases bound with
    | nil => cases hbound
    | cons c bound => exact aborts_again_of_ok ha (ih ht (Nat.le_of_succ_le_succ hbound))

/-- **A repetition that gets stuck fails hard.** -/
theorem GetsStuck.many (hp : Takes p 1) (h : GetsStuck p s) : Aborts (many p) s := by
  obtain ⟨as, t, hchain, ht⟩ := h
  exact manyWithin_of_getsStuck hchain ht (by have := hchain.length_le hp; omega)

theorem GetsStuck.atLeastOnce (hp : Takes p 1) (h : GetsStuck p s) : Aborts (atLeastOnce p) s := by
  obtain ⟨as, t, hchain, ht⟩ := h
  cases hchain with
  | nil => exact ht.bind
  | cons ha hchain => exact aborts_bind_of_ok ha (Aborts.bind (GetsStuck.many hp ⟨_, t, hchain, ht⟩))

/-! ## Layout -/

/-- No layout is in front of the text. -/
structure Solid (s : List Char) : Prop where
  blank : Stops Text.isBlank s
  line : ¬ ['/', '/'] <+: s
  block : ¬ ['/', '*'] <+: s

theorem solid_nil : Solid [] := ⟨stops_nil, by simp, by simp⟩

theorem solid_cons {c : Char} (hblank : Text.isBlank c = false) (hslash : c ≠ '/') (cs : List Char) : Solid (c :: cs) :=
  ⟨stops_cons hblank cs, by simp [hslash.symm], by simp [hslash.symm]⟩

/-- A slash starts a comment only before a slash or a star. -/
theorem solid_slash {c : Char} (hslash : c ≠ '/') (hstar : c ≠ '*') (cs : List Char) : Solid ('/' :: c :: cs) :=
  ⟨stops_cons (by decide) _, by simp [hslash.symm], by simp [hstar.symm]⟩

theorem afterClosing_suffix (h : afterClosing s = some t) : t <:+ s := by
  induction s using afterClosing.induct with
  | case1 => cases h
  | case2 rest =>
    cases h
    exact List.suffix_append ['*', '/'] t
  | case3 c cs hc ih =>
    rw [afterClosing] at h
    · exact (ih h).trans (List.suffix_cons c cs)
    · exact hc

theorem takes_lineComment : Takes lineComment 1 := by
  have hending : Takes (fun s => if startsLineEnding s then .ok ((), s) else refuse s) 0 := by
    intro s a t h
    dsimp only at h
    split at h
    · cases h
      exact ⟨List.suffix_refl s, Nat.le_refl _⟩
    · cases h
  exact ((takes_literal _).bind fun _ => takes_skip.bind fun _ => hending).weaken (by decide)

theorem takes_blockComment : Takes blockComment 1 := by
  refine Takes.weaken ((takes_literal _).bind (n := 0) fun _ s a t h => ?_) (by decide)
  split at h
  · rename_i rest hrest
    cases h
    exact ⟨afterClosing_suffix hrest, (afterClosing_suffix hrest).length_le⟩
  · cases h

/-- One stretch of blank characters, or one comment. -/
theorem takes_layoutPart : Takes (orElse blanks (orElse lineComment blockComment)) 1 :=
  Takes.orElse (takes_run.bind fun _ => takes_pure _) (takes_lineComment.orElse takes_blockComment)

theorem takes_layout : Takes layout 0 := (takes_layoutPart.weaken (Nat.zero_le 1)).many.bind fun _ => takes_pure _

theorem refuses_layoutPart (h : Solid s) : Refuses (orElse blanks (orElse lineComment blockComment)) s :=
  (refuses_run h.blank).bind.orElse ((refuses_literal h.line).bind.orElse (refuses_literal h.block).bind)

/-- **Layout takes the blank characters before a solid text.** -/
theorem layout_append (cs : List Char) (hcs : ∀ c ∈ cs, Text.isBlank c = true) (hs : Solid s) :
    layout (cs ++ s) = .ok ((), s) := by
  by_cases hne : cs = []
  · subst hne
    rw [layout, List.nil_append, bind_of_ok (many_of_chain takes_layoutPart (.nil s) (refuses_layoutPart hs)), pure_eq]
  · have hpart : orElse blanks (orElse lineComment blockComment) (cs ++ s) = .ok ((), s) :=
      orElse_of_ok ((bind_of_ok (run_append hcs hne hs.blank)).trans rfl)
    rw [layout, bind_of_ok (many_of_chain takes_layoutPart (.cons hpart (.nil s)) (refuses_layoutPart hs)), pure_eq]

theorem layout_solid (hs : Solid s) : layout s = .ok ((), s) := layout_append [] (List.forall_mem_nil _) hs

theorem layout_space (hs : Solid s) : layout (' ' :: s) = .ok ((), s) :=
  layout_append [' '] (by simp; decide) hs

end SpeechGrammar.Jsgf.Reader
