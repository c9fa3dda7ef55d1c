import AcidKv.Properties.Clients
import AcidKv.Properties.History

/-!
# Rolling back and committing

`rollback` looks at nothing but the lock: it writes its record whether or not the key already has
a commit record of the same transaction, and always returns `Ok`.  The error variant for a
transaction that is already committed or aborted exists, but nothing raises it.  So a rollback
after a commit leaves both kinds of record on the key.

`RollbackSafe` says when it does no harm: while nothing of the transaction is committed, with all
of its keys listed, and with its own records in sight of its prewrites.  Then a committed key gets
no rollback record, and a transaction that was rolled back never commits.
-/

namespace AcidKv

variable {U : Set Bytes} {T : UInt64 → Prop} {c : Call} {v₀ v v' : View}

/-- What keeps a request from mixing commits and rollbacks of one transaction. -/
structure RollbackSafe (calls : List Call) (v : View) (c : Call) : Prop where
  noGc : ∀ sp, c ≠ .gc sp
  /-- A prewrite can see what its transaction has committed on the key. -/
  committedSeen : ∀ s k, c.Mutates s k → ∀ ct, v.Committed k s ct → s ≤ ct ∧ Exposed c v k ct
  /-- A prewrite can see what stands at its start timestamp. -/
  startSeen : ∀ s k, c.Mutates s k → (v.write k s).isSome → Exposed c v k s
  /-- The keys that a prewrite mutates are those that the transaction was rolled back on. -/
  mutatesListed : ∀ s k, c.Mutates s k → ∀ ks, .rollback s ks ∈ calls → k ∈ ks
  /-- A rollback comes while nothing is committed, and lists all keys. -/
  uncommitted : ∀ s ks, c = .rollback s ks → ∀ k ct, ¬ v.Committed k s ct
  listed : ∀ s ks, c = .rollback s ks → ∀ c' ∈ calls, ∀ k, c'.Mutates s k → k ∈ ks

/-- Requests that neither prewrite nor roll back are safe. -/
lemma rollbackSafe_of_other {calls : List Call} (hgc : ∀ sp, c ≠ .gc sp)
    (hpre : c.prewriteArgs = none) (hrb : ∀ s ks, c ≠ .rollback s ks) :
    RollbackSafe calls v c := by
  have hmut : ∀ s k, ¬ c.Mutates s k := by
    intro s k hmut
    obtain ⟨ms, p, ttl, hargs⟩ := hmut.args
    rw [hpre] at hargs
    cases hargs
  exact ⟨hgc, fun s k h => absurd h (hmut s k), fun s k h => absurd h (hmut s k),
    fun s k h => absurd h (hmut s k), fun s ks h => absurd h (hrb s ks),
    fun s ks h => absurd h (hrb s ks)⟩

/-! ## A committed key gets no rollback record -/

/-- A transaction with a commit on `k` gets no lock there, all through a request. -/
lemma unlocked_moves {calls : List Call} (hsafe : RollbackSafe calls v₀ c) (h₀ : Unmixed v₀)
    (hmoves : Moves U T c v₀ v₀ v) {k : Bytes} {s ct : UInt64} (hcom : v₀.Committed k s ct) :
    ¬ v.LockedBy k s := by
  induction hmoves with
  | refl => exact h₀ k s ct hcom
  | tail hprev hmove ih =>
      rintro ⟨l, hl, rfl⟩
      rcases hmove.lock_origin hl with ⟨l', hl', heq, -⟩ | hplaced
      · exact ih ⟨l', hl', by rw [heq]⟩
      · obtain ⟨hle, hexp⟩ := hsafe.committedSeen _ k hplaced.mutates ct hcom
        obtain ⟨op, -, hw⟩ := hcom
        exact hplaced.not_exposed hprev (by rw [hw]; rfl) hle hexp

/-- No lock is placed next to a commit of its transaction. -/
lemma RollbackSafe.placed {calls : List Call} (hsafe : RollbackSafe calls v₀ c)
    (hmoves : Moves U T c v₀ v₀ v) {k : Bytes} {l : Lock} (hplaced : Placed U c v₀ v v' k l)
    (ct : UInt64) : ¬ v.Committed k l.startTs ct := by
  rintro ⟨op, hop, hw⟩
  obtain ⟨ms, p, ttl, hargs⟩ := hplaced.mutates.args
  have hw₀ := hmoves.own_record hargs hw
  obtain ⟨hle, hexp⟩ := hsafe.committedSeen _ k hplaced.mutates ct ⟨op, hop, hw₀⟩
  exact hplaced.not_exposed hmoves (by rw [hw₀]; rfl) hle hexp

/-- All through a request, a rollback record of a transaction that had a commit on `k` is not a
new one. -/
lemma rollback_record_before {calls : List Call} (hsafe : RollbackSafe calls v₀ c)
    (h₀ : Unmixed v₀) (hops : LockOps v₀) (hmoves : Moves U T c v₀ v₀ v) {k : Bytes}
    {s ct ts : UInt64} (hcom : v₀.Committed k s ct) (hw : v.write k ts = some ⟨s, .rollback⟩) :
    v₀.write k ts = some ⟨s, .rollback⟩ := by
  induction hmoves with
  | refl => exact hw
  | tail hprev hmove ih =>
      rcases hmove.write_origin hw with hw | hnew
      · exact ih hw
      · exfalso
        obtain ⟨hs, hwhy⟩ := hnew.rollback (hops.moves hprev) rfl
        simp only at hs
        subst hs
        rcases hwhy with hlocked | ⟨ks, hc, -⟩
        · exact unlocked_moves hsafe h₀ hprev hcom hlocked
        · exact hsafe.uncommitted s ks hc k ct hcom

/-! ## A rolled back transaction does not commit -/

/-- Transaction `s` has no lock and no commit, and the keys `ks` have something at `s`. -/
structure Closed (v : View) (s : UInt64) (ks : List Bytes) : Prop where
  unlocked : ∀ k, ¬ v.LockedBy k s
  uncommitted : ∀ k ct, ¬ v.Committed k s ct
  marked : ∀ k ∈ ks, (v.write k s).isSome

lemma Closed.move {calls : List Call} {s : UInt64} {ks : List Bytes}
    (hsafe : RollbackSafe calls v₀ c) (hcalls : .rollback s ks ∈ calls) (h₀ : Closed v₀ s ks)
    (hmoves : Moves U T c v₀ v₀ v) (h : Closed v s ks) (hmove : Move U T c v₀ v v') :
    Closed v' s ks where
  unlocked := by
    rintro k ⟨l, hl, rfl⟩
    rcases hmove.lock_origin hl with ⟨l', hl', heq, -⟩ | hplaced
    · exact h.unlocked k ⟨l', hl', by rw [heq]⟩
    · have hk := hsafe.mutatesListed _ k hplaced.mutates ks hcalls
      have hsome := h₀.marked k hk
      exact hplaced.not_exposed hmoves hsome (UInt64.le_refl _)
        (hsafe.startSeen _ k hplaced.mutates hsome)
  uncommitted := by
    intro k ct hcom
    rcases hmove.committed_origin hcom with hcom | ⟨hlocked, -⟩
    · exact h.uncommitted k ct hcom
    · exact h.unlocked k hlocked
  marked k hk := hmove.write_isSome hsafe.noGc (h.marked k hk)

/-! ## Over whole runs -/

theorem unmixed_steps {es : List Event}
    (h : Guarded Config.step (fun cfg e => RollbackSafe cfg.calls (view cfg.store) e.call)
      Config.init es) :
    WF Set.univ (Config.init.steps es).store ∧ Unmixed (view (Config.init.steps es).store) ∧
      LocksFrom (Config.init.steps es).calls (view (Config.init.steps es).store) := by
  refine @run_invariant Set.univ _ (fun calls v => Unmixed v ∧ LocksFrom calls v)
    (fun _ _ _ _ _ => trivial) ?_ ?_ _ _ h ⟨wf_empty _, ?_, locksFrom_init _⟩
  · intro cfg e _ hinv
    exact ⟨hinv.1, hinv.2.append e.call⟩
  · intro cfg e v v' hok _ _ hprev hinv hmove
    exact ⟨hinv.1.move (fun _ _ hplaced => hok.placed hprev hplaced) hmove,
      hinv.2.move (List.mem_append_right _ List.mem_cons_self) hmove⟩
  · rintro k s ct ⟨op, -, hw⟩
    simp [Config.init] at hw

/-- A rollback that returns closes its transaction. -/
lemma closed_of_rollback {cfg : Config} {e : Event} {s : UInt64} {ks : List Bytes} {out : Answer}
    (hsafe : RollbackSafe cfg.calls (view cfg.store) e.call) (hwf : WF Set.univ cfg.store)
    (hcalled : LocksFrom cfg.calls (view cfg.store)) (hcall : e.call = .rollback s ks)
    (hreply : (e.exec cfg.store).1 = some out) : Closed (view (e.exec cfg.store).2) s ks where
  unlocked := by
    rintro k ⟨l, hl, rfl⟩
    obtain ⟨halong, -⟩ := exec_along hwf e fun _ _ => trivial
    obtain ⟨l', hl', heq⟩ := halong.moves.lock_before hl fun ms p ttl hargs => by
      rw [hcall] at hargs
      cases hargs
    obtain ⟨c', hc', hmut⟩ := hcalled.mutates (k := k) (s := l.startTs)
      ⟨l', hl', by rw [heq]⟩
    have hk := hsafe.listed _ ks hcall c' hc' k hmut
    exact (rollback_reply hwf (fun _ _ => trivial) hcall hreply k hk).2 ⟨l, hl, rfl⟩
  uncommitted := by
    intro k ct hcom
    obtain ⟨halong, -⟩ := exec_along hwf e fun _ _ => trivial
    exact hsafe.uncommitted s ks hcall k ct (halong.moves.committed_of_rollback hcall hcom)
  marked := by
    intro k hk
    rw [(rollback_reply hwf (fun _ _ => trivial) hcall hreply k hk).1]
    rfl

theorem closed_steps {cfg : Config} {es : List Event} {s : UInt64} {ks : List Bytes}
    (h : Guarded Config.step (fun cfg e => RollbackSafe cfg.calls (view cfg.store) e.call) cfg es)
    (hwf : WF Set.univ cfg.store) (hcalls : .rollback s ks ∈ cfg.calls)
    (hclosed : Closed (view cfg.store) s ks) : Closed (view (cfg.steps es).store) s ks := by
  have hrun := @run_invariant Set.univ _
    (fun calls v => .rollback s ks ∈ calls ∧ Closed v s ks)
    (fun _ _ _ _ _ => trivial) ?_ ?_ cfg es h ⟨hwf, hcalls, hclosed⟩
  · exact hrun.2.2
  · intro cfg e _ hinv
    exact ⟨List.mem_append_left _ hinv.1, hinv.2⟩
  · intro cfg e v v' hok _ h₀ hprev hinv hmove
    exact ⟨hinv.1, h₀.2.move hok h₀.1 hprev hinv.2 hmove⟩

/-- In runs of safe requests a key with a Put or Delete record of `s` gets no Rollback record of
`s`, and once `rollback(s, keys)` has returned `Ok` no key has or gets a Put or Delete record of
`s`. -/
theorem rollback_excludes_commit (es₁ : List Event) (e : Event) (es₂ : List Event)
    (hrun : Guarded Config.step (fun cfg e => RollbackSafe cfg.calls (view cfg.store) e.call)
      Config.init (es₁ ++ e :: es₂)) :
    (∀ k s ct ts, (view (Config.init.steps es₁).store).Committed k s ct →
      (view (e.exec (Config.init.steps es₁).store).2).write k ts = some ⟨s, .rollback⟩ →
      (view (Config.init.steps es₁).store).write k ts = some ⟨s, .rollback⟩) ∧
    ∀ s ks r, e.call = .rollback s ks →
      (e.exec (Config.init.steps es₁).store).1 = some (.ok r) →
      ∀ k ct, ¬ (view (Config.init.steps (es₁ ++ e :: es₂)).store).Committed k s ct := by
  obtain ⟨hrun₁, hsafe, hrun₂⟩ := Config.guarded_steps.mp hrun
  obtain ⟨hwf, hunmixed, hcalled⟩ := unmixed_steps hrun₁
  obtain ⟨halong, -⟩ := exec_along hwf e fun _ _ => trivial
  constructor
  · intro k s ct ts hcom hw
    exact rollback_record_before hsafe hunmixed (view_lockOps _) halong.moves hcom hw
  · intro s ks r hcall hreply
    have hclosed := closed_of_rollback hsafe hwf hcalled hcall hreply
    have hcalls : .rollback s ks ∈ ((Config.init.steps es₁).step e).calls := by
      rw [Config.calls_step, hcall]
      exact List.mem_append_right _ List.mem_cons_self
    rw [Config.steps_append]
    exact (closed_steps hrun₂ halong.wf hcalls hclosed).uncommitted

/-- A rollback before the commit, which then finds nothing to commit. -/
theorem rollback_excludes_commit_late :
    (Event.exec { call := .rollback 65536 [[1]] } (Config.init.steps
        [{ call := .prewrite 65536 [.put [1] [10]] [1] 3000 }]).store).1 = some (.ok .done) ∧
      ¬ (view (Config.init.steps [{ call := .prewrite 65536 [.put [1] [10]] [1] 3000 },
        { call := .rollback 65536 [[1]] },
        { call := .commit 65536 65537 [[1]] }]).store).Committed [1] 65536 65537 := by
  have hreply : (Event.exec { call := .rollback 65536 [[1]] } (Config.init.steps
      [{ call := .prewrite 65536 [.put [1] [10]] [1] 3000 }]).store).1 = some (.ok .done) := by rfl
  refine ⟨hreply, (rollback_excludes_commit
    [{ call := .prewrite 65536 [.put [1] [10]] [1] 3000 }] { call := .rollback 65536 [[1]] }
    [{ call := .commit 65536 65537 [[1]] }]
    ⟨?_, ?_, rollbackSafe_of_other (by simp) rfl (by simp), trivial⟩).2 65536 [[1]] .done rfl hreply
    [1] 65537⟩
  · refine ⟨by simp, ?_, ?_, by simp [Config.init, Config.calls], by simp, by simp⟩
    · rintro s k - ct ⟨op, -, hw⟩
      simp [Config.init] at hw
    · intro s k _ hw
      simp [Config.init] at hw
  · refine ⟨by simp, ?_, ?_, ?_, ?_, ?_⟩
    · rintro s k ⟨p, m, ⟨ms, ttl, hargs, -⟩, -⟩
      cases hargs
    · rintro s k ⟨p, m, ⟨ms, ttl, hargs, -⟩, -⟩
      cases hargs
    · rintro s k ⟨p, m, ⟨ms, ttl, hargs, -⟩, -⟩
      cases hargs
    · rintro s ks - k ct ⟨op, -, hw⟩
      cases hw
    · intro s ks hc c' hc' k hmut
      cases hc
      rw [List.mem_singleton.mp hc'] at hmut
      obtain ⟨p, m, ⟨ms, ttl, hargs, hm⟩, rfl⟩ := hmut
      cases hargs
      rw [List.mem_singleton.mp hm]
      exact List.mem_singleton.mpr rfl

/-- A rollback of a transaction that is committed on its primary returns `Ok` and leaves the
committed key with a rollback record as well. -/
theorem rollback_succeeds_after_commit :
    (view (Config.init.steps halfCommitted).store).Committed [1] 65536 65537 ∧
      (view (Config.init.steps halfCommitted).store).write [1] 65536 = none ∧
      (Event.exec { call := .rollback 65536 [[1], [2]] }
        (Config.init.steps halfCommitted).store).1 = some (.ok .done) ∧
      (view (Config.init.steps (halfCommitted ++
        [{ call := .rollback 65536 [[1], [2]] }])).store).write [1] 65536
        = some ⟨65536, .rollback⟩ ∧
      (view (Config.init.steps (halfCommitted ++
        [{ call := .rollback 65536 [[1], [2]] }])).store).Committed [1] 65536 65537 := by
  exact ⟨⟨.put, by decide, by rfl⟩, by rfl, by rfl, by rfl, ⟨.put, by decide, by rfl⟩⟩

end AcidKv
