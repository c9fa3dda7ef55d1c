import AcidKv.Abstract.Commits
import AcidKv.Refine.Requests

/-!
# Transactions and their prewrites

Nothing on a node says which transaction a key belongs to, other than the prewrites that were
requested.  A lock keeps the start timestamp, the op and the primary key of the prewrite that
placed it, whatever heartbeats do to its TTL; so the locks of a transaction agree on the primary
key as far as its prewrites do.
-/

namespace AcidKv

/-- A prewrite of `s` under the primary key `p` with the mutation `m`. -/
def Call.Prewrites (c : Call) (s : UInt64) (p : Bytes) (m : Mutation) : Prop :=
  ∃ ms ttl, c.prewriteArgs = some (s, ms, p, ttl) ∧ m ∈ ms

/-- A prewrite of `s` that touches `k`. -/
def Call.Mutates (c : Call) (s : UInt64) (k : Bytes) : Prop :=
  ∃ p m, c.Prewrites s p m ∧ m.key = k

lemma Call.Mutates.args {c : Call} {s : UInt64} {k : Bytes} (h : c.Mutates s k) :
    ∃ ms p ttl, c.prewriteArgs = some (s, ms, p, ttl) := by
  obtain ⟨p, m, ⟨ms, ttl, hargs, -⟩, -⟩ := h
  exact ⟨ms, p, ttl, hargs⟩

/-- All prewrites of a transaction name the same primary key. -/
def OnePrimary (calls : List Call) : Prop :=
  ∀ c ∈ calls, ∀ c' ∈ calls, ∀ s p p' m m', c.Prewrites s p m → c'.Prewrites s p' m' → p = p'

lemma onePrimary_single {calls : List Call} (c : Call)
    (honly : ∀ c' ∈ calls, c'.prewriteArgs.isSome → c' = c) : OnePrimary calls := by
  rintro c₁ h₁ c₂ h₂ s p p' m m' ⟨ms, ttl, hargs, -⟩ ⟨ms', ttl', hargs', -⟩
  have heq₁ := honly c₁ h₁ (by rw [hargs]; rfl)
  have heq₂ := honly c₂ h₂ (by rw [hargs']; rfl)
  rw [heq₁] at hargs
  rw [heq₂, hargs] at hargs'
  cases hargs'
  rfl

/-- Every lock goes back to a prewrite of its key. -/
def LocksFrom (calls : List Call) (v : View) : Prop :=
  ∀ k l, v.lock k = some l → ∃ c ∈ calls, ∃ p m, c.Prewrites l.startTs p m ∧ m.key = k ∧
    m.opType = l.op ∧ l.primaryKey = Lock.storedKey p

section

variable {U : Set Bytes} {T : UInt64 → Prop} {c : Call} {v₀ v v' : View} {calls : List Call}

lemma Placed.mutates {k : Bytes} {l : Lock} (h : Placed U c v₀ v v' k l) :
    c.Mutates l.startTs k := by
  obtain ⟨ms, p, ttl, m, hargs, hm, hk, -⟩ := h.args
  exact ⟨p, m, ⟨ms, ttl, hargs, hm⟩, hk⟩

/-- A prewrite of `s` places no lock on a key where it can see a version at or above `s`. -/
lemma Placed.not_exposed {k : Bytes} {l : Lock} (h : Placed U c v₀ v v' k l)
    (hmoves : Moves U T c v₀ v₀ v) {ts : UInt64} (hsome : (v₀.write k ts).isSome)
    (hle : l.startTs ≤ ts) : ¬ Exposed c v₀ k ts := by
  intro hexp
  obtain ⟨ms, p, ttl, hargs⟩ := h.mutates.args
  obtain ⟨w, hw⟩ := Option.isSome_iff_exists.mp hsome
  obtain ⟨hcommit, hrb⟩ := Call.prewrite_only hargs
  have hreach : Reached U v k ts := hexp.reached hcommit hrb hmoves
  exact UInt64.not_le.mpr (h.check ts w hw hreach) hle

lemma locksFrom_init (calls : List Call) : LocksFrom calls (view Config.init.store) := by
  intro k l hl
  simp [Config.init] at hl

lemma LocksFrom.append (h : LocksFrom calls v) (c : Call) : LocksFrom (calls ++ [c]) v := by
  intro k l hl
  obtain ⟨c', hc', hfrom⟩ := h k l hl
  exact ⟨c', List.mem_append_left [c] hc', hfrom⟩

lemma LocksFrom.move (hc : c ∈ calls) (h : LocksFrom calls v) (hmove : Move U T c v₀ v v') :
    LocksFrom calls v' := by
  intro k l hl
  rcases hmove.lock_origin hl with ⟨l', hl', heq, -⟩ | hplaced
  · rw [heq]
    exact h k l' hl'
  · obtain ⟨ms, p, ttl, m, hargs, hm, hk, heq⟩ := hplaced.args
    refine ⟨c, hc, p, m, ⟨ms, ttl, hargs, hm⟩, hk, ?_, ?_⟩
    · rw [heq]
      rfl
    · rw [heq]
      rfl

/-- In every run the locks go back to the prewrites made. -/
theorem locksFrom_steps (es : List Event) :
    WF Set.univ (Config.init.steps es).store ∧
      LocksFrom (es.map Event.call) (view (Config.init.steps es).store) := by
  have hrun : WF Set.univ (Config.init.steps es).store ∧
      LocksFrom (Config.init.steps es).calls (view (Config.init.steps es).store) :=
    run_invariant (fun _ _ _ _ _ => trivial) (fun cfg e _ h => h.append e.call)
      (fun cfg e v v' _ _ _ _ h hmove => h.move (List.mem_append_right _ List.mem_cons_self) hmove)
      (Guarded.of_forall fun _ _ => trivial) ⟨wf_empty _, locksFrom_init _⟩
  rwa [Config.calls_steps, Config.calls_init, List.nil_append] at hrun

lemma LocksFrom.mutates (h : LocksFrom calls v) {k : Bytes} {s : UInt64} (hl : v.LockedBy k s) :
    ∃ c ∈ calls, c.Mutates s k := by
  obtain ⟨l, hl, rfl⟩ := hl
  obtain ⟨c, hc, p, m, hpre, hk, -⟩ := h k l hl
  exact ⟨c, hc, p, m, hpre, hk⟩

/-- The locks of one transaction carry one primary key. -/
lemma LocksFrom.primary_eq (h : LocksFrom calls v) (hone : OnePrimary calls) {k k' : Bytes}
    {l l' : Lock} (hl : v.lock k = some l) (hl' : v.lock k' = some l')
    (hs : l.startTs = l'.startTs) : l.primaryKey = l'.primaryKey := by
  obtain ⟨c, hc, p, m, hpre, -, -, hp⟩ := h k l hl
  obtain ⟨c', hc', p', m', hpre', -, -, hp'⟩ := h k' l' hl'
  rw [hs] at hpre
  rw [hp, hp', hone c hc c' hc' _ p p' m m' hpre hpre']

end

/-- A commit that stops behind its primary. -/
def halfCommitted : List Event :=
  [{ call := .prewrite 65536 [.put [1] [10], .put [2] [20]] [1] 3000 },
    { call := .commit 65536 65537 [[1], [2]], stop := some 1 }]

end AcidKv
