import AcidKv.Abstract.Versions
import AcidKv.Properties.Batched
import AcidKv.Properties.Finality

/-!
# What the scans conclude from an arbitrary store

A prewrite looks for records that stand in its way, and `check_txn_status` for a record of the
transaction it is asked about.  Both seek to the newest possible version of the key and stop at
the first entry of another user key.  There is no terminator between a user key and its timestamp,
so the records of a longer key may stand in front of those of its prefix, and then both conclude
that there is nothing.

What is assumed here is only that the entries of the store decode; user keys are arbitrary.  Both
verdicts are determined exactly: each is right if and only if the scan gets to the record that it
has to find.
-/

namespace AcidKv

open KeyEncoder Coordinator

/-! ## Conflicts -/

/-- Some record of `k` stands in the way of a transaction that starts at `s`. -/
def Conflicted (v : View) (s : UInt64) (k : Bytes) : Prop :=
  ∃ ts w, v.write k ts = some w ∧ Conflicts s ts w

/-- And the scan of a prewrite gets to one. -/
def ShowsConflict (v : View) (s : UInt64) (k : Bytes) : Prop :=
  ∃ ts w, v.write k ts = some w ∧ Conflicts s ts w ∧ SeenFrom v k u64Max ts

lemma ShowsConflict.conflicted {v : View} {s : UInt64} {k : Bytes} (h : ShowsConflict v s k) :
    Conflicted v s k := by
  obtain ⟨ts, w, hw, hconf, -⟩ := h
  exact ⟨ts, w, hw, hconf⟩

section

variable {U : Set Bytes} {st : Store} {s : UInt64} {clock : ℕ → UInt64}

/-- The conflict check of one key, read off the view. -/
lemma conflictLoop_walk (h : WF U st) (k : Bytes) :
    conflictLoop k s (st.range .write (encode k u64Max)) = .ok () ↔
      ¬ ShowsConflict (view st) s k := by
  rw [conflictLoop_ok_iff (walk_of_wf h _)]
  constructor
  · rintro hall ⟨ts, w, hw, hconf, hseen⟩
    obtain ⟨b, hm, hb⟩ := mem_walk_of_write hw (le_u64Max ts)
    exact hall ts b w hm hb ((reaches_iff_seenFrom h u64Max ts).mpr hseen) hconf
  · intro hnone ts b w hm hb hreach hconf
    exact hnone ⟨ts, w, write_of_mem_walk hm hb, hconf,
      (reaches_iff_seenFrom h u64Max ts).mp hreach⟩

/-- All locks of the store are of transaction `s`. -/
def OwnLocks (s : UInt64) (st : Store) : Prop := ∀ k, Own s (st.get .lock k)

lemma OwnLocks.stage (h : OwnLocks s st) (p : Bytes) (ttl : UInt64) (m : Mutation) :
    OwnLocks s (st.apply (stageBatch s p ttl m)) := by
  intro k
  by_cases hk : k = m.key
  · have hget : (st.apply (stageBatch s p ttl m)).get .lock k
        = some (Lock.mk p s ttl m.opType).toBytes := by
      cases m <;> simp [stageBatch, hk, Mutation.key, Mutation.opType]
    rw [hget]
    exact own_some (Lock.fromBytes_toBytes m.opType_ne_rollback) rfl
  · have hget : (st.apply (stageBatch s p ttl m)).get .lock k = st.get .lock k := by
      cases m <;> simp_all [stageBatch, Mutation.key]
    rw [hget]
    exact h k

lemma range_stageBatch (st : Store) (s : UInt64) (p : Bytes) (ttl : UInt64) (m : Mutation)
    (lo : Bytes) : (st.apply (stageBatch s p ttl m)).range .write lo = st.range .write lo := by
  refine Keyspace.range_apply_of_ne (fun i hi => ?_) st lo
  cases m <;> simp only [stageBatch, List.mem_cons, List.not_mem_nil, or_false] at hi
  · rcases hi with rfl | rfl <;> simp [BatchItem.entry]
  · subst hi
    simp [BatchItem.entry]

/-- Steps 1 and 2 of either prewrite change nothing where all locks are its own. -/
lemma checked_run {α : Type} (h : OwnLocks s st) (k : Bytes) (afterwards : Handler TxnError Unit)
    (next : Handler TxnError α) :
    ∃ clock', (checkConflict k s >>= fun _ => clearLockThen k s afterwards >>= fun _ => next).run
        clock st =
      match conflictLoop k s (st.range .write (encode k u64Max)) with
      | .ok () => next.run clock' st
      | .error e => (.error e, st) := by
  have hcheck := checkConflict_run clock st k s
  cases hloop : conflictLoop k s (st.range .write (encode k u64Max)) with
  | error e =>
      rw [hloop] at hcheck
      exact ⟨clock, Prog.run_bind_error hcheck⟩
  | ok u =>
      rw [hloop] at hcheck
      obtain ⟨n, hn⟩ := @Prog.run_bind _ _ _ _ _ _ _ _ _ _ _ _
        (fun _ => clearLockThen k s afterwards >>= fun _ => next) _ _ _ hcheck
      obtain ⟨n', hn'⟩ := @Prog.run_bind _ _ _ _ _ _ _ _ _ _ _ _ (fun _ => next) _ _ _
        (@clearLockThen_own s st (fun i => clock (i + n)) k (h k) afterwards)
      exact ⟨_, hn.trans hn'⟩

lemma prewrite_ok_iff_checks (h : OwnLocks s st) (ms : List Mutation) (p : Bytes) (ttl : UInt64) :
    ((prewrite s ms p ttl).run clock st).1 = .ok () ↔
      ∀ m ∈ ms, conflictLoop m.key s (st.range .write (encode m.key u64Max)) = .ok () := by
  induction ms generalizing st clock with
  | nil => simp [prewrite]
  | cons m ms ih =>
      obtain ⟨clock', hrun⟩ := @checked_run st s clock _ h m.key (recheckLock m.key s)
        (Prog.write (stageBatch s p ttl m) >>= fun _ => prewrite s ms p ttl)
      rw [List.forall_mem_cons, prewrite, clearLock, hrun]
      cases hloop : conflictLoop m.key s (st.range .write (encode m.key u64Max)) with
      | error e => simp
      | ok u =>
          simp only [Prog.run_write_bind, true_and]
          rw [ih (h.stage p ttl m)]
          simp only [range_stageBatch]

lemma stageLoop_ok_iff_checks (h : OwnLocks s st) (ms : List Mutation) (p : Bytes) (ttl : UInt64)
    (b : Batch) :
    (∃ b', ((stageLoop s p ttl b ms).run clock st).1 = .ok b') ↔
      ∀ m ∈ ms, conflictLoop m.key s (st.range .write (encode m.key u64Max)) = .ok () := by
  induction ms generalizing b clock with
  | nil => simp [stageLoop]
  | cons m ms ih =>
      obtain ⟨clock', hrun⟩ := @checked_run st s clock _ h m.key (return ())
        (stageLoop s p ttl (b ++ stageBatch s p ttl m) ms)
      rw [List.forall_mem_cons, stageLoop, clearLockOnce, hrun]
      cases hloop : conflictLoop m.key s (st.range .write (encode m.key u64Max)) with
      | error e => simp
      | ok u =>
          simp only [true_and]
          exact ih (b ++ stageBatch s p ttl m)

lemma batchPrewrite_ok_iff_checks (h : OwnLocks s st) (ms : List Mutation) (p : Bytes)
    (ttl : UInt64) :
    ((batchPrewrite s ms p ttl).run clock st).1 = .ok () ↔
      ∀ m ∈ ms, conflictLoop m.key s (st.range .write (encode m.key u64Max)) = .ok () := by
  cases ms with
  | nil => simp [batchPrewrite]
  | cons m ms =>
      rw [← @stageLoop_ok_iff_checks st s clock h (m :: ms) p ttl [], batchPrewrite]
      cases hrun : (stageLoop s p ttl [] (m :: ms)).run clock st with
      | mk r st' =>
          cases r with
          | error e =>
              rw [Prog.run_bind_error hrun]
              simp
          | ok b =>
              obtain ⟨n, hn⟩ := @Prog.run_bind _ _ _ _ _ _ _ _ _ _ _ _
                (fun b' => (Prog.write b' : Handler TxnError Unit)) _ _ _ hrun
              rw [hn]
              simp

/-- Both prewrites, on a store without locks: they succeed exactly if no scan gets to a conflict. -/
lemma prewrites_ok_iff (h : WF U st) (hlock : ∀ k, st.get .lock k = none) (ms : List Mutation)
    (p : Bytes) (ttl : UInt64) :
    (((prewrite s ms p ttl).run clock st).1 = .ok () ↔
        ¬ ∃ m ∈ ms, ShowsConflict (view st) s m.key) ∧
      (((batchPrewrite s ms p ttl).run clock st).1 = .ok () ↔
        ¬ ∃ m ∈ ms, ShowsConflict (view st) s m.key) := by
  have hown : OwnLocks s st := by
    intro k
    rw [hlock k]
    exact own_none s
  rw [prewrite_ok_iff_checks hown, batchPrewrite_ok_iff_checks hown]
  simp only [conflictLoop_walk h, not_exists, not_and]
  exact ⟨trivial, trivial⟩

end

/-- On every store without locks whose write entries decode, and for every list of mutations:
either prewrite returns `Ok` exactly where no mutated key has a record at or after `start_ts` or
a Rollback record for it, if and only if the scan of some mutated key gets to such a record
wherever there is one. -/
theorem prewrite_ok_iff_unconflicted_iff (st : Store) (hwf : WF Set.univ st)
    (hlock : ∀ k, st.get .lock k = none) (startTs : UInt64) (mutations : List Mutation)
    (primaryKey : Bytes) (lockTtl : UInt64) (clock : ℕ → UInt64) :
    ((((prewrite startTs mutations primaryKey lockTtl).run clock st).1 = .ok () ↔
          ¬ ∃ m ∈ mutations, Conflicted (view st) startTs m.key) ↔
        ((∃ m ∈ mutations, Conflicted (view st) startTs m.key) →
          ∃ m ∈ mutations, ShowsConflict (view st) startTs m.key)) ∧
      ((((batchPrewrite startTs mutations primaryKey lockTtl).run clock st).1 = .ok () ↔
          ¬ ∃ m ∈ mutations, Conflicted (view st) startTs m.key) ↔
        ((∃ m ∈ mutations, Conflicted (view st) startTs m.key) →
          ∃ m ∈ mutations, ShowsConflict (view st) startTs m.key)) := by
  obtain ⟨hone, hbatch⟩ :=
    @prewrites_ok_iff _ st startTs clock hwf hlock mutations primaryKey lockTtl
  have himp : (∃ m ∈ mutations, ShowsConflict (view st) startTs m.key) →
      ∃ m ∈ mutations, Conflicted (view st) startTs m.key := by
    rintro ⟨m, hm, hshow⟩
    exact ⟨m, hm, hshow.conflicted⟩
  rw [hone, hbatch, not_iff_not]
  exact ⟨⟨fun hiff => hiff.mpr, fun h => ⟨himp, h⟩⟩, ⟨fun hiff => hiff.mpr, fun h => ⟨himp, h⟩⟩⟩

/-- `user1`, and the longer `user10`. -/
def user1 : Bytes := [117, 115, 101, 114, 49]

def user10 : Bytes := user1 ++ [48]

/-- `user1` is committed. -/
def shorterCommitted : List Event :=
  [{ call := .prewrite 65536 [.put user1 [1]] user1 3000 },
   { call := .commit 65536 65537 [user1] }]

/-- And then `user10`. -/
def bothCommitted : List Event :=
  shorterCommitted ++
  [{ call := .prewrite 131072 [.put user10 [2]] user10 3000 },
   { call := .commit 131072 131073 [user10] }]

/-- A run whose keys are unlocked at the end leaves no lock at all. -/
lemma unlocked_of_runKeys {es : List Event}
    (h : ∀ e ∈ es, ∀ k ∈ e.call.keys, (Config.init.steps es).store.get .lock k = none) (k : Bytes) :
    (Config.init.steps es).store.get .lock k = none := by
  cases hg : (Config.init.steps es).store.get .lock k with
  | none => rfl
  | some b =>
      obtain ⟨e, he, hk⟩ := ((wf_runKeys es).lock k b hg).1
      rw [h e he k hk] at hg
      cases hg

/-- With no other key in the store the conflict is found. -/
theorem prewrite_conflict_seen :
    ((prewrite 65530 [.put user1 [3]] user1 3000).run (fun _ => 0)
      (Config.init.steps shorterCommitted).store).1 = .error (.writeConflict user1 65530) ∧
    ((∃ m ∈ [Mutation.put user1 [3]],
        Conflicted (view (Config.init.steps shorterCommitted).store) 65530 m.key) →
      ∃ m ∈ [Mutation.put user1 [3]],
        ShowsConflict (view (Config.init.steps shorterCommitted).store) 65530 m.key) := by
  have hconf : Conflicted (view (Config.init.steps shorterCommitted).store) 65530 user1 :=
    ⟨65537, ⟨65536, .put⟩, by decide, Or.inl (by decide)⟩
  have herr : ((prewrite 65530 [.put user1 [3]] user1 3000).run (fun _ => 0)
      (Config.init.steps shorterCommitted).store).1 = .error (.writeConflict user1 65530) := by
    decide
  refine ⟨herr, (prewrite_ok_iff_unconflicted_iff _ ((wf_runKeys shorterCommitted).mono
    (Set.subset_univ _)) (unlocked_of_runKeys (by decide)) 65530 [.put user1 [3]] user1 3000
    (fun _ => 0)).1.mp ⟨fun hok => ?_, fun hfree => ?_⟩⟩
  · rw [herr] at hok
    cases hok
  · exact absurd ⟨_, List.mem_cons_self, hconf⟩ hfree

/-- The record of `user10` hides that of `user1`, and both prewrites of an older transaction
succeed. -/
theorem prewrite_conflict_hidden :
    (∀ k, (Config.init.steps bothCommitted).store.get .lock k = none) ∧
      WF Set.univ (Config.init.steps bothCommitted).store ∧
      Conflicted (view (Config.init.steps bothCommitted).store) 65530 user1 ∧
      ((prewrite 65530 [.put user1 [3]] user1 3000).run (fun _ => 0)
        (Config.init.steps bothCommitted).store).1 = .ok () ∧
      ((batchPrewrite 65530 [.put user1 [3]] user1 3000).run (fun _ => 0)
        (Config.init.steps bothCommitted).store).1 = .ok () := by
  refine ⟨unlocked_of_runKeys (by decide), (wf_runKeys bothCommitted).mono (Set.subset_univ _),
    ⟨65537, ⟨65536, .put⟩, by decide, Or.inl (by decide)⟩, by decide, by decide⟩

/-! ## The status of a committed transaction -/

/-- `p` has exactly one record of transaction `s`, a commit record at `c`. -/
structure CommittedOnce (v : View) (p : Bytes) (s c : UInt64) : Prop where
  committed : v.Committed p s c
  once : ∀ ts w, v.write p ts = some w → w.startTs = s → ts = c

lemma CommittedOnce.latest {v : View} {p : Bytes} {s c : UInt64} (h : CommittedOnce v p s c) :
    ∃ op, op ≠ .rollback ∧ Latest v p u64Max (fun w => w.startTs = s) c ⟨s, op⟩ := by
  obtain ⟨op, hop, hw⟩ := h.committed
  refine ⟨op, hop, le_u64Max c, hw, rfl, fun ts w hw' hlt _ hs => ?_⟩
  rw [h.once ts w hw' hs] at hlt
  exact UInt64.lt_irrefl c hlt

/-- On every store of decodable entries, a transaction whose only record on its primary key is a
commit record is reported committed, and the store left alone, exactly if the scan gets to that
record. -/
theorem checkTxnStatus_committed_iff (st : Store) (hwf : WF Set.univ st) (primaryKey : Bytes)
    (startTs commitTs : UInt64) (h : CommittedOnce (view st) primaryKey startTs commitTs)
    (clock : ℕ → UInt64) :
    (LockResolver.checkTxnStatus primaryKey startTs).run clock st =
        (.ok (.committed commitTs), st) ↔
      SeenFrom (view st) primaryKey u64Max commitTs := by
  constructor
  · intro hrun
    obtain ⟨op, -, hd⟩ := @decides_of_committed _ st clock hwf primaryKey startTs commitTs
      (by rw [hrun])
    exact hd.clear
  · intro hseen
    obtain ⟨op, hop, hlatest⟩ := h.latest
    exact status_of_committed hwf hop ⟨hlatest, hseen⟩

/-- The record of `user1` is its only one in either run. -/
lemma user1_committedOnce {es : List Event} (hes : es = shorterCommitted ∨ es = bothCommitted) :
    CommittedOnce (view (Config.init.steps es).store) user1 65536 65537 where
  committed := by rcases hes with rfl | rfl <;> exact ⟨.put, by decide, by decide⟩
  once ts w hw _ := by
    have hkeys : ∀ x ∈ (Config.init.steps es).store.range .write [],
        x.1 = encode user1 65537 ∨ x.1 = encode user10 131073 := by
      rcases hes with rfl | rfl <;> decide
    obtain ⟨b, hb, -⟩ := view_write_some hw
    have hm : (encode user1 ts, b) ∈ (Config.init.steps es).store.range .write [] :=
      mem_range_nil.mpr hb
    rcases hkeys _ hm with heq | heq
    · exact (encode_inj.mp heq).2
    · exact absurd (encode_inj.mp heq).1 (by decide)

/-- With no other key in the store the transaction is reported committed. -/
theorem status_committed_seen :
    SeenFrom (view (Config.init.steps shorterCommitted).store) user1 u64Max 65537 :=
  (checkTxnStatus_committed_iff _ ((wf_runKeys shorterCommitted).mono (Set.subset_univ _)) user1
    65536 65537 (user1_committedOnce (Or.inl rfl)) (fun _ => 0)).mp (by rfl)

/-- The record of `user10` hides that of `user1`, and the committed transaction is reported rolled
back. -/
theorem status_committed_hidden :
    WF Set.univ (Config.init.steps bothCommitted).store ∧
      CommittedOnce (view (Config.init.steps bothCommitted).store) user1 65536 65537 ∧
      ((LockResolver.checkTxnStatus user1 65536).run (fun _ => 0)
        (Config.init.steps bothCommitted).store).1 = .ok .rolledBack :=
  ⟨(wf_runKeys bothCommitted).mono (Set.subset_univ _), user1_committedOnce (Or.inr rfl),
    by decide⟩

end AcidKv
