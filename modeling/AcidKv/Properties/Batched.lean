import AcidKv.Properties.Finality

/-!
# The batched requests against the plain ones

`batch_commit` and `batch_prewrite` repeat the loops of `commit` and `prewrite`, but read all keys
before they write any.

For commits this makes a difference at the first key only.  `commit` stops when that is not locked
by the transaction, and `batch_commit` has no such test.  Where the first key is locked, a key that
comes up twice is the only one whose lock the plain loop no longer finds, and there the batch
writes the same items again.

For prewrites it makes no difference.  The plain loop runs ahead of the batched one by the locks
and values it has already written, and its store is the other one with the batch so far applied
(`Ahead`).  The locks it is ahead by are the transaction's own, on keys that carry no lock of
another one, and neither loop does anything but pass over them.
-/

namespace AcidKv

open Coordinator LockResolver KeyEncoder

/-! ## Commit -/

section Commit

variable {s ct : UInt64} {st₀ st : Store}

/-- Between the batches of a commit: a key is as it was, or settled. -/
def Midway (s ct : UInt64) (st₀ st : Store) : Prop :=
  ∀ k, st.get .lock k = st₀.get .lock k ∨
    st.get .lock k = none ∧ ∃ l, (view st₀).lock k = some l ∧ l.startTs = s ∧
      st.get .write (encode k ct) = some (WriteRecord.mk s l.op).toBytes

lemma Midway.settle (h : Midway s ct st₀ st) {k : Bytes} {l : Lock}
    (hl : (view st₀).lock k = some l) (hs : l.startTs = s) :
    Midway s ct st₀ (st.apply (settleBatch k ct ⟨s, l.op⟩)) := by
  intro k'
  by_cases hk : k' = k
  · subst hk
    right
    exact ⟨by simp [settleBatch], l, hl, hs, by simp [settleBatch]⟩
  · simpa [settleBatch, hk, encode_inj] using h k'

/-- The loop over the secondaries, on a store midway: it leaves what the batch would. -/
lemma commitSecondaries_items {T : UInt64 → Prop} {I : Store → Prop} (hI : ∀ st, I st)
    (hdecode : LocksDecode st₀) {rest : List Bytes} (h : Midway s ct st₀ st) :
    (commitSecondaries s ct rest).Sat T I
      (fun out st' => out = .ok () ∧ st' = st.apply (rest.flatMap (commitItems (view st₀) s ct)))
      st := by
  induction rest generalizing st with
  | nil => exact ⟨rfl, rfl⟩
  | cons k rest ih =>
      simp only [commitSecondaries, Prog.sat_bind, Prog.sat_lookup, Prog.then_ok,
        List.flatMap_cons, Keyspace.apply_append]
      rcases h k with hsame | ⟨hnone, l, hl, hs, hw⟩
      · rw [hsame]
        cases hg : st₀.get .lock k with
        | none => simpa [commitItems, view_lock_none hg] using ih h
        | some b =>
            obtain ⟨l, hl⟩ := hdecode k b hg
            have hview := view_lock_of_get hg hl
            simp only [hl]
            by_cases hs : l.startTs = s
            · simp only [hs, if_true, Prog.sat_bind, Prog.sat_write, Prog.then_ok, commitItems,
                hview]
              exact ⟨hI _, ih (h.settle hview hs)⟩
            · simpa [commitItems, hview, hs] using ih h
      · -- the key came up before: its part of the batch changes nothing
        rw [hnone, commitItems_of_lock hl hs, apply_settleBatch_self hnone hw]
        exact ih h

lemma midway_refl (st : Store) : Midway s ct st st := fun _ => Or.inl rfl

/-- `batch_commit` applies the items of all keys. -/
lemma batchCommit_run (h : LocksDecode st) (clock : ℕ → UInt64) (keys : List Bytes) :
    (batchCommit s ct keys).run clock st
      = (.ok (), st.apply (keys.flatMap (commitItems (view st) s ct))) := by
  cases keys with
  | nil => rfl
  | cons p rest =>
      have hsat : (batchCommit s ct (p :: rest)).Sat (fun _ => True) (fun _ => True)
          (fun out st' => out = .ok () ∧
            st' = st.apply ((p :: rest).flatMap (commitItems (view st) s ct))) st := by
        simp only [batchCommit, Prog.sat_bind]
        refine (commitLoop_sat h []).mono ?_
        rintro out st' ⟨rfl, rfl⟩
        exact ⟨trivial, rfl, rfl⟩
      obtain ⟨-, hout, hst⟩ := hsat.run trivial fun _ => trivial
      exact Prod.ext hout hst

/-- `commit` does the same where its first key is locked. -/
lemma commit_run (h : LocksDecode st) (clock : ℕ → UInt64) {p : Bytes} {rest : List Bytes}
    (hp : (view st).LockedBy p s) : (commit s ct (p :: rest)).run clock st
      = (.ok (), st.apply ((p :: rest).flatMap (commitItems (view st) s ct))) := by
  obtain ⟨l, hl, hs⟩ := hp
  obtain ⟨b, hb, hdecode⟩ := view_lock_some hl
  have hsat : (commit s ct (p :: rest)).Sat (fun _ => True) (fun _ => True)
      (fun out st' => out = .ok () ∧
        st' = st.apply ((p :: rest).flatMap (commitItems (view st) s ct))) st := by
    simp only [commit, Prog.sat_bind, Prog.sat_lookup, Prog.then_ok, hb, hdecode, hs, if_true,
      Prog.sat_write, List.flatMap_cons, Keyspace.apply_append, commitItems_of_lock hl hs]
    exact ⟨trivial,
      commitSecondaries_items (fun _ => trivial) h ((midway_refl st).settle hl hs)⟩
  obtain ⟨-, hout, hst⟩ := hsat.run trivial fun _ => trivial
  exact Prod.ext hout hst

/-- Otherwise it returns an error. -/
lemma commit_sat_unlocked (h : LocksDecode st) {p : Bytes} {rest : List Bytes}
    (hp : ¬ (view st).LockedBy p s) :
    (commit s ct (p :: rest)).Sat (fun _ => True) (fun st' => st' = st)
      (fun out st' => out = .error .transactionRolledBack ∧ st' = st) st := by
  simp only [commit, Prog.sat_bind, Prog.sat_lookup, Prog.then_ok]
  cases hg : st.get .lock p with
  | none => exact ⟨rfl, rfl⟩
  | some b =>
      obtain ⟨l, hl⟩ := h p b hg
      have hs : l.startTs ≠ s := fun hs => hp ⟨l, view_lock_of_get hg hl, hs⟩
      simp only [hl, hs, if_false, Prog.sat_throw, and_self]

lemma commit_run_unlocked (h : LocksDecode st) (clock : ℕ → UInt64) {p : Bytes}
    {rest : List Bytes} (hp : ¬ (view st).LockedBy p s) :
    (commit s ct (p :: rest)).run clock st = (.error .transactionRolledBack, st) := by
  have hsat : (commit s ct (p :: rest)).Sat (fun _ => True) (fun st' => st' = st)
      (fun out st' => out = .error .transactionRolledBack ∧ st' = st) st :=
    commit_sat_unlocked h hp
  obtain ⟨-, hout, hst⟩ := hsat.run rfl fun _ => trivial
  exact Prod.ext hout hst

end Commit

/-- `batch_commit` returns the same result as `commit` and leaves the same store exactly if its
first key, where there is one, is locked by the transaction. -/
theorem batchCommit_agrees_iff (st : Store) (hdecode : LocksDecode st) (startTs commitTs : UInt64)
    (keys : List Bytes) (clock : ℕ → UInt64) :
    (batchCommit startTs commitTs keys).run clock st = (commit startTs commitTs keys).run clock st ↔
      ∀ p, keys.head? = some p → (view st).LockedBy p startTs := by
  cases keys with
  | nil => simp [batchCommit, commit]
  | cons p rest =>
      rw [batchCommit_run hdecode]
      by_cases hp : (view st).LockedBy p startTs
      · rw [commit_run hdecode clock hp]
        simpa using hp
      · rw [commit_run_unlocked hdecode clock hp]
        simpa using hp

/-- A transaction with two locked keys, the second of them listed twice. -/
theorem batchCommit_agrees_repeated :
    (batchCommit 65536 65537 [[1], [2], [2]]).run (fun _ => 0)
        (Config.init.steps [{ call := .prewrite 65536 [.put [1] [10], .put [2] [20]] [1] 3000 }]).store
      = (commit 65536 65537 [[1], [2], [2]]).run (fun _ => 0)
        (Config.init.steps
          [{ call := .prewrite 65536 [.put [1] [10], .put [2] [20]] [1] 3000 }]).store := by
  refine (batchCommit_agrees_iff _ (wf_runKeys _).locksDecode 65536 65537 _ _).mpr ?_
  rintro p ⟨⟩
  exact ⟨⟨[1], 65536, 3000, .put⟩, by rfl, rfl⟩

/-- The primary `[1]` has been rolled back and the secondary `[2]` is still locked: `commit`
refuses, `batch_commit` returns `Ok` and commits `[2]`. -/
theorem batchCommit_commits_secondary :
    ((commit 65536 65537 [[1], [2]]).run (fun _ => 0) (Config.init.steps
        [{ call := .prewrite 65536 [.put [1] [10], .put [2] [20]] [1] 3000 },
          { call := .checkTxnStatus [1] 65536, clock := fun _ => 5000 }]).store).1
        = .error .transactionRolledBack ∧
      ((batchCommit 65536 65537 [[1], [2]]).run (fun _ => 0) (Config.init.steps
        [{ call := .prewrite 65536 [.put [1] [10], .put [2] [20]] [1] 3000 },
          { call := .checkTxnStatus [1] 65536, clock := fun _ => 5000 }]).store).1 = .ok () ∧
      (view ((batchCommit 65536 65537 [[1], [2]]).run (fun _ => 0) (Config.init.steps
        [{ call := .prewrite 65536 [.put [1] [10], .put [2] [20]] [1] 3000 },
          { call := .checkTxnStatus [1] 65536, clock := fun _ => 5000 }]).store).2).write [2] 65537
        = some ⟨65536, .put⟩ := by
  refine ⟨by rfl, by rfl, by rfl⟩

/-! ## Prewrite -/

section Prewrite

/-- No lock, or one of transaction `s`. -/
def Own (s : UInt64) (entry : Option Bytes) : Prop :=
  ∀ b, entry = some b → ∃ l, Lock.fromBytes b = .ok l ∧ l.startTs = s

lemma own_none (s : UInt64) : Own s none := by
  rintro b ⟨⟩

lemma own_some {s : UInt64} {b : Bytes} {l : Lock} (hl : Lock.fromBytes b = .ok l)
    (hs : l.startTs = s) : Own s (some b) := by
  rintro b' ⟨⟩
  exact ⟨l, hl, hs⟩

/-- The batch `b`, staged by a prewrite of `s` on a store, holds values and own locks on keys
without a lock of another transaction. -/
def Ahead (s : UInt64) (b : Batch) (st : Store) : Prop :=
  ∀ i ∈ b, (∃ e x, i = .insert .default e x) ∨
    ∃ k, Own s (st.get .lock k) ∧ ∃ l : Lock, i = .insert .lock k l.toBytes ∧ l.op ≠ .rollback ∧
      l.startTs = s

/-- The batch has no item for the lock of `k`. -/
def Clear (b : Batch) (k : Bytes) : Prop := ∀ i ∈ b, i.entry ≠ (.lock, k)

variable {s t : UInt64} {b : Batch} {st : Store}

lemma Ahead.range (h : Ahead s b st) (lo : Bytes) :
    (st.apply b).range .write lo = st.range .write lo := by
  refine Keyspace.range_apply_of_ne (fun i hi => ?_) st lo
  rcases h i hi with ⟨e, x, rfl⟩ | ⟨k, -, l, rfl, -⟩
  · simp [BatchItem.entry]
  · simp [BatchItem.entry]

/-- A key with a lock of another transaction is not one of those staged. -/
lemma Ahead.clear (h : Ahead s b st) {k : Bytes} (hk : ¬ Own s (st.get .lock k)) : Clear b k := by
  intro i hi hentry
  rcases h i hi with ⟨e, x, rfl⟩ | ⟨k', hown, l, rfl, -⟩
  · simp [BatchItem.entry] at hentry
  · simp only [BatchItem.entry, Prod.mk.injEq, true_and] at hentry
    exact hk (hentry ▸ hown)

lemma Clear.get {k : Bytes} (h : Clear b k) : (st.apply b).get .lock k = st.get .lock k :=
  Keyspace.get_apply_of_entry_ne h st

/-- What the plain loop finds on a key is what the batched one finds, or both find nothing of
another transaction. -/
lemma Ahead.lock (h : Ahead s b st) (k : Bytes) :
    (st.apply b).get .lock k = st.get .lock k ∨
      Own s ((st.apply b).get .lock k) ∧ Own s (st.get .lock k) := by
  rcases Keyspace.get_apply_origin st b .lock k with hsame | ⟨i, hi, hentry, hvalue⟩
  · exact Or.inl hsame
  · rcases h i hi with ⟨e, x, rfl⟩ | ⟨k', hown, l, rfl, hop, hs⟩
    · simp [BatchItem.entry] at hentry
    · simp only [BatchItem.entry, Prod.mk.injEq, true_and] at hentry
      subst hentry
      refine Or.inr ⟨?_, hown⟩
      rw [hvalue]
      exact own_some (Lock.fromBytes_toBytes hop) hs

/-- Settling a key that is not staged commutes with the batch. -/
lemma Ahead.settle (h : Ahead s b st) {k : Bytes} (hk : Clear b k) (ts : UInt64)
    (w : WriteRecord) :
    (st.apply b).apply (settleBatch k ts w) = (st.apply (settleBatch k ts w)).apply b ∧
      Ahead s b (st.apply (settleBatch k ts w)) := by
  constructor
  · refine Keyspace.apply_comm (fun i hi j hj => ?_) st
    simp only [settleBatch, List.mem_cons, List.not_mem_nil, or_false] at hj
    rcases hj with rfl | rfl
    · rcases h i hi with ⟨e, x, rfl⟩ | ⟨k', -, l, rfl, -⟩
      · simp [BatchItem.entry]
      · simp [BatchItem.entry]
    · exact hk i hi
  · intro i hi
    rcases h i hi with hdata | ⟨k', hown, l, rfl, hl⟩
    · exact Or.inl hdata
    · refine Or.inr ⟨k', ?_, l, rfl, hl⟩
      by_cases hkk : k' = k
      · subst hkk
        intro b' hb'
        simp [settleBatch] at hb'
      · simpa [settleBatch, hkk] using hown

/-- After the scan, the lock of the primary key decides the same for both loops. -/
lemma checkPrimaryLock_mirrors (h : Ahead s b st) (p : Bytes) {u : UInt64} (hu : u ≠ s) :
    ∃ r st', (checkPrimaryLock p u).run (fun _ => t) st = (r, st') ∧
      (checkPrimaryLock p u).run (fun _ => t) (st.apply b) = (r, st'.apply b) ∧
      Ahead s b st' := by
  -- nothing of `u` is on the primary
  have hgone : ∀ {st' : Store}, Own s (st'.get .lock p) →
      (checkPrimaryLock p u).run (fun _ => t) st' = (.ok .rolledBack, st') := by
    intro st' hown
    simp only [checkPrimaryLock, Prog.run_lookup_bind]
    cases hg : st'.get .lock p with
    | none => rfl
    | some bytes =>
        obtain ⟨l, hl, hs⟩ := hown bytes hg
        have hne : l.startTs ≠ u := fun heq => hu (heq ▸ hs)
        simp only [hl, hne, if_false, Prog.run_pure]
  rcases h.lock p with hsame | ⟨hown, hown'⟩
  · by_cases hown : Own s (st.get .lock p)
    · exact ⟨_, st, hgone hown, hgone (by rw [hsame]; exact hown), h⟩
    · simp only [checkPrimaryLock, Prog.run_lookup_bind, hsame]
      cases hg : st.get .lock p with
      | none => exact ⟨_, st, rfl, rfl, h⟩
      | some bytes =>
          cases hl : Lock.fromBytes bytes with
          | error e =>
              simp only [hl]
              exact ⟨_, st, rfl, rfl, h⟩
          | ok l =>
              simp only [hl]
              split_ifs with hs
              · simp only [Prog.run_clock_bind]
                split_ifs with hexp
                · obtain ⟨hcomm, hahead⟩ := h.settle (h.clear hown) u ⟨u, .rollback⟩
                  simp only [Prog.run_write_bind, Prog.run_pure, hcomm]
                  exact ⟨_, _, rfl, rfl, hahead⟩
                · exact ⟨_, st, rfl, rfl, h⟩
              · exact ⟨_, st, rfl, rfl, h⟩
  · exact ⟨_, st, hgone hown', hgone hown, h⟩

/-- The status of another transaction is the same for both loops. -/
lemma checkTxnStatus_mirrors (h : Ahead s b st) (p : Bytes) {u : UInt64} (hu : u ≠ s) :
    ∃ r st', (LockResolver.checkTxnStatus p u).run (fun _ => t) st = (r, st') ∧
      (LockResolver.checkTxnStatus p u).run (fun _ => t) (st.apply b) = (r, st'.apply b) ∧
      Ahead s b st' := by
  simp only [LockResolver.checkTxnStatus, Prog.run_walk_bind, h.range]
  cases statusLoop p u (st.range .write (encode p u64Max)) with
  | error e => exact ⟨_, st, rfl, rfl, h⟩
  | ok found =>
      cases found with
      | some status => exact ⟨_, st, rfl, rfl, h⟩
      | none => exact checkPrimaryLock_mirrors h p hu

/-- Resolving a lock of another transaction on a key that is not staged. -/
lemma resolveLock_mirrors (h : Ahead s b st) {k : Bytes} (hk : Clear b k) {lock : Lock}
    (hlock : lock.startTs ≠ s) :
    ∃ r st', (resolveLock k lock).run (fun _ => t) st = (r, st') ∧
      (resolveLock k lock).run (fun _ => t) (st.apply b) = (r, st'.apply b) ∧
      Ahead s b st' ∧ (r = .ok () → st'.get .lock k = none) := by
  obtain ⟨status, st₁, hrun, hrun', hahead⟩ :=
    @checkTxnStatus_mirrors s t b st h lock.primaryKey lock.startTs hlock
  -- whatever the status, the key is settled in the same way
  have hsettle : ∀ ts w, ∃ r st',
      (Prog.write (settleBatch k ts w) : Handler LockResolverError Unit).run (fun _ => t) st₁
        = (r, st') ∧
      (Prog.write (settleBatch k ts w) : Handler LockResolverError Unit).run (fun _ => t)
        (st₁.apply b) = (r, st'.apply b) ∧
      Ahead s b st' ∧ (r = .ok () → st'.get .lock k = none) := by
    intro ts w
    obtain ⟨hcomm, hahead'⟩ := hahead.settle hk ts w
    simp only [Prog.run_write, hcomm]
    exact ⟨_, _, rfl, rfl, hahead', fun _ => by simp [settleBatch]⟩
  cases status with
  | error e =>
      refine ⟨_, st₁, Prog.run_bind_error hrun, Prog.run_bind_error hrun', hahead, ?_⟩
      rintro ⟨⟩
  | ok status =>
      simp only [resolveLock, Prog.run_bind_ok hrun, Prog.run_bind_ok hrun']
      cases status with
      | committed ct => exact hsettle ct _
      | rolledBack => exact hsettle lock.startTs _
      | locked ttl =>
          simp only [Prog.run_clock_bind]
          split_ifs with hexp
          · exact hsettle lock.startTs _
          · refine ⟨_, st₁, rfl, rfl, hahead, ?_⟩
            rintro ⟨⟩

/-- The two looks that `prewrite` takes pass over keys without a lock of another transaction. -/
lemma recheckLock_own {k : Bytes} (h : Own s (st.get .lock k)) :
    (recheckLock k s).run (fun _ => t) st = (.ok (), st) := by
  simp only [recheckLock, Prog.run_lookup_bind]
  cases hg : st.get .lock k with
  | none => rfl
  | some bytes =>
      obtain ⟨l, hl, hs⟩ := h bytes hg
      simp only [hl, hs, if_true, Prog.run_pure]

lemma clearLockThen_own {clock : ℕ → UInt64} {k : Bytes} (h : Own s (st.get .lock k))
    (afterwards : Handler TxnError Unit) :
    (clearLockThen k s afterwards).run clock st = (.ok (), st) := by
  simp only [clearLockThen, Prog.run_lookup_bind]
  cases hg : st.get .lock k with
  | none => rfl
  | some bytes =>
      obtain ⟨l, hl, hs⟩ := h bytes hg
      simp only [hl, hs, if_true, Prog.run_pure]

/-- Step 2 of the two prewrites, which leaves no lock of another transaction if it succeeds. -/
lemma clearLock_mirrors (h : Ahead s b st) (k : Bytes) :
    ∃ r st', (clearLockOnce k s).run (fun _ => t) st = (r, st') ∧
      (clearLock k s).run (fun _ => t) (st.apply b) = (r, st'.apply b) ∧
      Ahead s b st' ∧ (r = .ok () → Own s (st'.get .lock k)) := by
  by_cases hown : Own s (st.get .lock k)
  · have hown' : Own s ((st.apply b).get .lock k) := by
      rcases h.lock k with hsame | ⟨hown', -⟩
      · rw [hsame]
        exact hown
      · exact hown'
    exact ⟨_, st, clearLockThen_own hown _, clearLockThen_own hown' _, h, fun _ => hown⟩
  · have hclear := h.clear hown
    simp only [clearLockOnce, clearLock, clearLockThen, Prog.run_lookup_bind, hclear.get]
    cases hg : st.get .lock k with
    | none =>
        rw [hg] at hown
        exact absurd (own_none s) hown
    | some bytes =>
        cases hl : Lock.fromBytes bytes with
        | error e =>
            simp only [hl]
            refine ⟨_, st, rfl, rfl, h, ?_⟩
            rintro ⟨⟩
        | ok lock =>
            rw [hg] at hown
            have hs : lock.startTs ≠ s := fun hs => hown (own_some hl hs)
            obtain ⟨r, st', hrun, hrun', hahead, hnone⟩ :=
              @resolveLock_mirrors s t b st h k hclear lock hs
            have hatt := @Prog.run_attempt _ _ _ _ _ TxnError _ _ _ _ (fun _ => t)
              (resolveLock k lock) st
            have hatt' := @Prog.run_attempt _ _ _ _ _ TxnError _ _ _ _ (fun _ => t)
              (resolveLock k lock) (st.apply b)
            rw [hrun] at hatt
            rw [hrun'] at hatt'
            simp only [hl, hs, if_false, Prog.run_bind_ok hatt, Prog.run_bind_ok hatt']
            cases r with
            | error e =>
                refine ⟨_, st', rfl, rfl, hahead, ?_⟩
                rintro ⟨⟩
            | ok u =>
                have hfree : Own s (st'.get .lock k) := by
                  rw [hnone rfl]
                  exact own_none s
                refine ⟨_, st', rfl, recheckLock_own ?_, hahead, fun _ => hfree⟩
                rw [hclear.get]
                exact hfree

/-- Step 3: one more mutation staged. -/
lemma Ahead.stage (h : Ahead s b st) {m : Mutation} (hm : Own s (st.get .lock m.key))
    (p : Bytes) (ttl : UInt64) : Ahead s (b ++ stageBatch s p ttl m) st := by
  intro i hi
  rcases List.mem_append.mp hi with hi | hi
  · exact h i hi
  · have hop := m.opType_ne_rollback
    cases m with
    | put key value =>
        simp only [stageBatch, List.mem_cons, List.not_mem_nil, or_false] at hi
        rcases hi with rfl | rfl
        · exact Or.inl ⟨_, _, rfl⟩
        · exact Or.inr ⟨key, hm, _, rfl, hop, rfl⟩
    | delete key =>
        simp only [stageBatch, List.mem_cons, List.not_mem_nil, or_false] at hi
        subst hi
        exact Or.inr ⟨key, hm, _, rfl, hop, rfl⟩

/-- What the two loops have come to: the same error, or the same store once the batch is
applied. -/
def Agree (out : Except TxnError Batch × Store) (out' : Except TxnError Unit × Store) : Prop :=
  match out with
  | (.ok b, st) => out' = (.ok (), st.apply b)
  | (.error e, _) => out'.1 = .error e

/-- The two loops, one a batch ahead of the other. -/
lemma stageLoop_mirrors (h : Ahead s b st) (ms : List Mutation) (p : Bytes) (ttl : UInt64) :
    Agree ((stageLoop s p ttl b ms).run (fun _ => t) st)
      ((prewrite s ms p ttl).run (fun _ => t) (st.apply b)) := by
  induction ms generalizing b st with
  | nil => exact rfl
  | cons m ms ih =>
      have hone := checkConflict_run (fun _ => t) st m.key s
      have hone' := checkConflict_run (fun _ => t) (st.apply b) m.key s
      rw [h.range] at hone'
      simp only [stageLoop, prewrite]
      cases hconflict : conflictLoop m.key s (st.range .write (encode m.key u64Max)) with
      | error e =>
          rw [hconflict] at hone hone'
          rw [Prog.run_bind_error hone, Prog.run_bind_error hone']
          exact rfl
      | ok u =>
          rw [hconflict] at hone hone'
          obtain ⟨r, st', hclear, hclear', hahead, hown⟩ := @clearLock_mirrors s t b st h m.key
          rw [Prog.run_bind_ok hone, Prog.run_bind_ok hone']
          cases r with
          | error e =>
              rw [Prog.run_bind_error hclear, Prog.run_bind_error hclear']
              exact rfl
          | ok u =>
              rw [Prog.run_bind_ok hclear, Prog.run_bind_ok hclear', Prog.run_write_bind,
                ← Keyspace.apply_append]
              exact ih (hahead.stage (hown rfl) p ttl)

end Prewrite

/-- `batch_prewrite` returns the same result as `prewrite`, and leaves the same store where that is
`Ok`, from every store and for every list of mutations. -/
theorem batchPrewrite_agrees (st : Store) (startTs : UInt64) (mutations : List Mutation)
    (primaryKey : Bytes) (lockTtl now : UInt64) :
    ((batchPrewrite startTs mutations primaryKey lockTtl).run (fun _ => now) st).1
        = ((prewrite startTs mutations primaryKey lockTtl).run (fun _ => now) st).1 ∧
      (((prewrite startTs mutations primaryKey lockTtl).run (fun _ => now) st).1 = .ok () →
        ((batchPrewrite startTs mutations primaryKey lockTtl).run (fun _ => now) st).2
          = ((prewrite startTs mutations primaryKey lockTtl).run (fun _ => now) st).2) := by
  cases mutations with
  | nil => exact ⟨rfl, fun _ => rfl⟩
  | cons m ms =>
      have hempty : Ahead startTs [] st := fun i hi => absurd hi List.not_mem_nil
      have hagree := @stageLoop_mirrors startTs now [] st hempty (m :: ms) primaryKey lockTtl
      rw [Keyspace.apply_nil] at hagree
      simp only [batchPrewrite]
      cases hloop : (stageLoop startTs primaryKey lockTtl [] (m :: ms)).run (fun _ => now) st with
      | mk r st' =>
          rw [hloop] at hagree
          cases r with
          | error e =>
              rw [Prog.run_bind_error hloop]
              refine ⟨hagree.symm, fun hok => ?_⟩
              rw [hagree] at hok
              cases hok
          | ok b =>
              rw [Prog.run_bind_ok hloop, Prog.run_write, hagree]
              exact ⟨rfl, fun _ => rfl⟩

end AcidKv
