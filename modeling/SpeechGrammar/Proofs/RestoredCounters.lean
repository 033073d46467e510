import SpeechGrammar.Proofs.CacheRoundTrip
import SpeechGrammar.Proofs.Generations

/-!
# The counters of restored grammars

The bytes of a cached grammar say which id is the next one and which generation was published last, and the reader takes
any numbers there that are above the ids in use. The ids that changes give are counted from the next one
(`Snapshot.nextId_publish`, `Snapshot.toNat_id_additions`), so the first commit after the restoration gives new rules
the ids that it should exactly if the counters have room for it (**`Grammar.commit_of_restored`**). Without room the ids
start again at zero, and a rule is listed before those that were there (`Grammar.growing_not_counted`).
-/

namespace SpeechGrammar

namespace Snapshot

section

variable {s t : Snapshot} {c : Change} {cs : List Change} {changed : Bool} {log : List Entry}

/-! ## Giving ids -/

/-- A change takes as many ids as it adds entries. -/
theorem nextId_apply (h : s.apply c = .ok (t, changed)) : t.nextId = s.nextId + .ofNat (s.given c).length := by
  obtain ⟨rule, rfl, -, rfl, -⟩ | ⟨name, rfl, rfl⟩ | ⟨names, enabled, rfl, -, rfl⟩ | ⟨rfl, rfl⟩ | ⟨name, rfl, -, rfl⟩ :=
    apply_cases h
  · rfl
  all_goals exact (UInt64.add_zero _).symm

theorem nextId_applyAll : (s.applyAll cs).snapshot.nextId = s.nextId + .ofNat (s.additions cs).length := by
  induction cs generalizing s with
  | nil => exact (UInt64.add_zero _).symm
  | cons c cs ih =>
    cases happly : s.apply c with
    | error fault =>
      simp only [applyAll, additions, happly]
      exact ih
    | ok result =>
      simp only [applyAll, additions, happly, List.length_append, UInt64.ofNat_add]
      rw [ih, nextId_apply happly, UInt64.add_assoc]

/-- A commit takes as many ids as it adds entries, also when it starts again at zero. -/
theorem nextId_publish : (s.publish (s.applyAll cs)).nextId = s.nextId + .ofNat (s.additions cs).length := by
  unfold publish
  split
  · exact nextId_applyAll
  · rename_i hchanged
    rw [additions_eq_nil (Bool.not_eq_true _ ▸ hchanged)]
    exact (UInt64.add_zero _).symm

theorem toNat_add_ofNat_iff {a : UInt64} {n : Nat} :
    (a + .ofNat n).toNat = a.toNat + n ↔ a.toNat + n < 2 ^ 64 := by
  rw [UInt64.toNat_add, UInt64.toNat_ofNat', Nat.add_mod_mod]
  constructor
  · intro h
    rw [← h]
    exact Nat.mod_lt _ (by decide)
  · exact Nat.mod_eq_of_lt

/-- The ids that several changes give are counted from the next one. -/
theorem toNat_id_additions (room : s.nextId.toNat + (s.additions cs).length < 2 ^ 64) :
    (s.additions cs).map (fun e => e.id.toNat) = List.range' s.nextId.toNat (s.additions cs).length := by
  induction cs generalizing s with
  | nil => rfl
  | cons c cs ih =>
    cases happly : s.apply c with
    | error fault =>
      simp only [additions, happly] at room ⊢
      exact ih room
    | ok result =>
      have hnext := nextId_apply happly
      simp only [additions, happly, List.length_append] at room ⊢
      have hid : result.1.nextId.toNat = s.nextId.toNat + (s.given c).length := by
        rw [hnext, toNat_add_ofNat_iff]
        omega
      have hlater := ih (s := result.1) (by omega)
      rw [hid] at hlater
      rw [List.map_append, hlater, ← List.range'_append_1]
      cases c <;> rfl

/-! ## The order of the rules -/

/-- Entries in ascending order are those with ids below a bound and then the others. -/
theorem eq_filter_append_filter {es : List Entry} (h : es.Pairwise (·.id < ·.id)) (bound : UInt64) :
    es = es.filter (·.id < bound) ++ es.filter (bound ≤ ·.id) := by
  induction es with
  | nil => rfl
  | cons e es ih =>
    obtain ⟨hfirst, hrest⟩ := List.pairwise_cons.mp h
    by_cases he : e.id < bound
    · have hnot : ¬ bound ≤ e.id := UInt64.not_le.mpr he
      rw [List.filter_cons_of_pos (by simpa using he), List.filter_cons_of_neg (by simpa using he), List.cons_append,
        ← ih hrest]
    · have hle : bound ≤ e.id := UInt64.not_lt.mp he
      have hnone : (e :: es).filter (·.id < bound) = [] := by
        refine List.filter_eq_nil_iff.mpr (List.forall_mem_cons.mpr ⟨by simpa using hle, fun f hf => ?_⟩)
        simpa using UInt64.le_of_lt (UInt64.lt_of_le_of_lt hle (hfirst f hf))
      have hall : (e :: es).filter (bound ≤ ·.id) = e :: es := by
        refine List.filter_eq_self.mpr (List.forall_mem_cons.mpr ⟨by simpa using hle, fun f hf => ?_⟩)
        simpa using UInt64.le_of_lt (UInt64.lt_of_le_of_lt hle (hfirst f hf))
      rw [hnone, hall, List.nil_append]

/-- The rules that stay after a commit come before those that it adds, and all of them in the order of their ids. -/
theorem Logged.exists_kept_added (h : t.Logged (s.entries ++ s.additions cs))
    (hold : ∀ e ∈ s.entries, e.id < s.nextId) (hnew : ∀ e ∈ s.additions cs, s.nextId ≤ e.id) :
    ∃ kept added, t.entries = kept ++ added ∧ (∀ e ∈ kept, ∃ f ∈ s.entries, f.rule = e.rule ∧ f.id = e.id) ∧
      ∀ e ∈ added, ∃ f ∈ s.additions cs, f.rule = e.rule ∧ f.id = e.id := by
  refine ⟨_, _, eq_filter_append_filter h.consistent.ascending s.nextId, fun e he => ?_, fun e he => ?_⟩
  · obtain ⟨hmem, hlt⟩ := List.mem_filter.mp he
    obtain ⟨f, hf, hsame⟩ := h.covered e hmem
    refine ⟨f, (List.mem_append.mp hf).resolve_right fun hadd => ?_, hsame⟩
    exact UInt64.not_le.mpr (of_decide_eq_true hlt) (hsame.2 ▸ hnew f hadd)
  · obtain ⟨hmem, hle⟩ := List.mem_filter.mp he
    obtain ⟨f, hf, hsame⟩ := h.covered e hmem
    refine ⟨f, (List.mem_append.mp hf).resolve_left fun hthere => ?_, hsame⟩
    exact UInt64.not_le.mpr (hold f hthere) (hsame.2 ▸ of_decide_eq_true hle)

end

end Snapshot

namespace Grammar

section

variable {g : Grammar} {bytes : List UInt8}

/-! ## The first commit -/

/-- **What the first commit of a restored grammar does to the counters**, whatever is in its queue. The next id is that
of the bytes and one more for each new rule exactly if that is below `2 ^ 64`. Then the state is consistent, the ids
of the new rules are consecutive and greater than all ids before, and the new rules are listed last. If something
changes, the generation is a greater one exactly if it was not the last there is. -/
theorem commit_of_restored (h : Cache.decode bytes = .ok g.committed) :
    (g.commit.1.committed.nextId.toNat = g.committed.nextId.toNat + (g.given .commit).length ↔
      g.committed.nextId.toNat + (g.given .commit).length < 2 ^ 64) ∧
    (g.committed.nextId.toNat + (g.given .commit).length < 2 ^ 64 →
      g.commit.1.committed.Consistent ∧
      (∀ e ∈ g.committed.entries, ∀ f ∈ g.given .commit, e.id < f.id) ∧
      (g.given .commit).map (fun e => e.id.toNat) =
        List.range' g.committed.nextId.toNat (g.given .commit).length ∧
      ∃ kept added, g.commit.1.committed.entries = kept ++ added ∧
        g.commit.1.committed.ruleNames = kept.map Entry.name ++ added.map Entry.name ∧
        (∀ e ∈ kept, ∃ f ∈ g.committed.entries, f.rule = e.rule ∧ f.id = e.id) ∧
        ∀ e ∈ added, ∃ f ∈ g.given .commit, f.rule = e.rule ∧ f.id = e.id) ∧
    (g.renews .commit = true →
      (g.committed.generation < g.commit.1.committed.generation ↔ g.committed.generation.toNat + 1 < 2 ^ 64)) := by
  have hs := Cache.storable_of_decode h
  refine ⟨?_, fun room => ?_, fun hrenews => ?_⟩
  · have hnext : g.commit.1.committed.nextId = g.committed.nextId + .ofNat (g.given .commit).length :=
      Snapshot.nextId_publish
    rw [hnext]
    exact Snapshot.toNat_add_ofNat_iff
  · obtain ⟨hlogged, -⟩ := logged_perform hs.toConsistent.logged .commit room
    have hids := Snapshot.toNat_id_additions room
    have hnew : ∀ f ∈ g.given .commit, g.committed.nextId ≤ f.id := by
      intro f hf
      have hmem : f.id.toNat ∈ (g.given .commit).map fun e => e.id.toNat := List.mem_map_of_mem hf
      rw [given, hids, List.mem_range'_1] at hmem
      exact UInt64.le_iff_toNat_le.mpr hmem.1
    obtain ⟨kept, added, hentries, hkept, hadded⟩ := hlogged.exists_kept_added hs.below hnew
    refine ⟨hlogged.consistent, fun e he f hf => UInt64.lt_of_lt_of_le (hs.below e he) (hnew f hf), hids, kept, added,
      hentries, ?_, hkept, hadded⟩
    rw [← List.map_append, ← hentries]
    rfl
  · rcases perform_renews g .commit with ⟨-, hnext⟩ | ⟨hno, -⟩
    · have hnext : g.commit.1.committed.generation = g.committed.generation + 1 := hnext
      have hsize := g.committed.generation.toNat_lt
      rw [hnext, UInt64.lt_iff_toNat_lt, UInt64.toNat_add, UInt64.toNat_one]
      omega
    · rw [hrenews] at hno
      cases hno

end

/-! ## Counters without room -/

/-- A state with one rule, which has been given the id 5. -/
def counted (nextId generation : UInt64) : Snapshot := Cache.lone onRule 5 nextId generation

/-- The grammar of the state, when two rules are to be added. -/
def growing (s : Snapshot) : Grammar := ⟨s, [.add offRule, .add ⟨"dim", true, .token "dim"⟩], default, false⟩

theorem decode_counted {nextId : UInt64} (h : 5 < nextId) (generation : UInt64)
    (hlength : (Cache.Write.payload (.ofSnapshot (counted nextId generation) none)).length < 2 ^ 32) :
    Cache.decode (Cache.encode (counted nextId generation) none) = .ok (counted nextId generation) :=
  Cache.decode_lone (by decide) rfl h hlength

/-- There is room for the ids 6 and 7, and for the generation 2. -/
theorem growing_commit_of_restored :
    Cache.decode (Cache.encode (growing (counted 6 1)).committed none) = .ok (growing (counted 6 1)).committed ∧
      (growing (counted 6 1)).commit.1.committed.nextId.toNat = 8 ∧
      (growing (counted 6 1)).commit.1.committed.Consistent ∧
      (growing (counted 6 1)).commit.1.committed.ruleNames = ["on", "off", "dim"] ∧
      (growing (counted 6 1)).committed.generation < (growing (counted 6 1)).commit.1.committed.generation := by
  have hbytes := decode_counted (show 5 < 6 by decide) 1 (by decide +kernel)
  have hadded : (growing (counted 6 1)).given .commit =
      [⟨offRule, 6, true⟩, ⟨⟨"dim", true, .token "dim"⟩, 7, true⟩] := rfl
  have room : (growing (counted 6 1)).committed.nextId.toNat + ((growing (counted 6 1)).given .commit).length <
      2 ^ 64 := by
    rw [hadded]
    decide
  obtain ⟨hid, hids, hgeneration⟩ := @commit_of_restored (growing (counted 6 1)) _ hbytes
  exact ⟨hbytes, hid.mpr room, (hids room).1, by decide +kernel, (hgeneration (by decide)).mpr (by decide)⟩

/-- **Without room the counters start again**: bytes are accepted whose next id is the last there is. Then the second
of two new rules has the id 0 and comes first, and the next id is below the others. And bytes are accepted with the last
generation, so that a change leads to the generation 0. -/
theorem growing_not_counted :
    (Cache.decode (Cache.encode (counted lastCount 1) none) = .ok (counted lastCount 1) ∧
      (growing (counted lastCount 1)).commit.1.committed.ruleNames = ["dim", "on", "off"] ∧
      (growing (counted lastCount 1)).commit.1.committed.entries.map Entry.id = [0, 5, lastCount] ∧
      (growing (counted lastCount 1)).commit.1.committed.nextId = 1) ∧
    Cache.decode (Cache.encode (counted 6 lastCount) none) = .ok (counted 6 lastCount) ∧
      (growing (counted 6 lastCount)).renews .commit = true ∧
      (growing (counted 6 lastCount)).commit.1.committed.generation = 0 :=
  ⟨⟨decode_counted (by decide) 1 (by decide +kernel), by decide +kernel, by decide +kernel, by decide +kernel⟩,
    decode_counted (by decide) lastCount (by decide +kernel), by decide +kernel, by decide +kernel⟩

end Grammar

end SpeechGrammar
