import AcidKv.Txn.Coordinator

/-!
# What a failed batch prewrite leaves behind

`batch_prewrite` writes its own values and locks in one batch at the end, so a failure on the way
leaves none of them.  What it does leave are the locks of other transactions that it has resolved so
far, each with a record of its transaction in its place.  The store may be any store: nothing is
assumed about its entries.
-/

namespace AcidKv

open KeyEncoder Coordinator LockResolver

/-- The lock `l` stands on `k` in `st`. -/
def StoredLock (st : Store) (k : Bytes) (l : Lock) : Prop :=
  ∃ b, st.get .lock k = some b ∧ Lock.fromBytes b = .ok l

/-- A record of transaction `s` on `k` at `ts`. -/
def RecordAt (st : Store) (k : Bytes) (ts s : UInt64) : Prop :=
  ∃ op, st.get .write (encode k ts) = some (WriteRecord.mk s op).toBytes

/-- From `st₀` to `st` nothing has been done but to put records in the place of locks, none of them
a lock of transaction `s`. -/
structure OnlySettled (s : UInt64) (st₀ st : Store) : Prop where
  default : ∀ e, st.get .default e = st₀.get .default e
  lock : ∀ k, st.get .lock k = st₀.get .lock k ∨
    st.get .lock k = none ∧ ∃ l, StoredLock st₀ k l ∧ l.startTs ≠ s ∧
      ∃ ts, RecordAt st k ts l.startTs
  write : ∀ e, st.get .write e = st₀.get .write e ∨
    ∃ k ts l, e = encode k ts ∧ StoredLock st₀ k l ∧ l.startTs ≠ s ∧ st.get .lock k = none ∧
      RecordAt st k ts l.startTs

section

variable {s : UInt64} {st₀ st : Store}

lemma StoredLock.decodes {k b : Bytes} {l : Lock} (h : StoredLock st k l)
    (hb : st.get .lock k = some b) : Lock.fromBytes b = .ok l := by
  obtain ⟨b', hb', hdec⟩ := h
  rw [hb, Option.some.injEq] at hb'
  rwa [hb']

lemma OnlySettled.refl (s : UInt64) (st : Store) : OnlySettled s st st :=
  ⟨fun _ => rfl, fun _ => Or.inl rfl, fun _ => Or.inl rfl⟩

/-- A lock that is still there has not been touched. -/
lemma OnlySettled.storedLock (h : OnlySettled s st₀ st) {k : Bytes} {l : Lock}
    (hl : StoredLock st k l) : StoredLock st₀ k l := by
  obtain ⟨b, hb, hdec⟩ := hl
  rcases h.lock k with hsame | ⟨hnone, -⟩
  · exact ⟨b, hsame ▸ hb, hdec⟩
  · rw [hnone] at hb
    cases hb

lemma RecordAt.settle_of_ne {k k' : Bytes} {ts ts' t : UInt64} {w : WriteRecord}
    (h : RecordAt st k ts t) (hne : k ≠ k') :
    RecordAt (st.apply (settleBatch k' ts' w)) k ts t := by
  obtain ⟨op, hop⟩ := h
  exact ⟨op, by simpa [settleBatch, encode_inj, hne] using hop⟩

/-- **Settling a lock.** -/
theorem OnlySettled.settle (h : OnlySettled s st₀ st) {k : Bytes} {l : Lock}
    (hl : StoredLock st k l) (hs : l.startTs ≠ s) (ts : UInt64) (op : OpType) :
    OnlySettled s st₀ (st.apply (settleBatch k ts ⟨l.startTs, op⟩)) := by
  have hl₀ := h.storedLock hl
  have hrecord : RecordAt (st.apply (settleBatch k ts ⟨l.startTs, op⟩)) k ts l.startTs :=
    ⟨op, by simp [settleBatch]⟩
  have hlock : ∀ k', (st.apply (settleBatch k ts ⟨l.startTs, op⟩)).get .lock k' =
      if k' = k then none else st.get .lock k' := by
    intro k'
    by_cases hk : k' = k <;> simp [settleBatch, hk]
  refine ⟨fun e => ?_, fun k' => ?_, fun e => ?_⟩
  · simpa [settleBatch] using h.default e
  · rw [hlock]
    by_cases hk : k' = k
    · subst hk
      exact Or.inr ⟨if_pos rfl, l, hl₀, hs, ts, hrecord⟩
    · rw [if_neg hk]
      refine (h.lock k').imp_right ?_
      rintro ⟨hnone, l', hl', hs', ts', hts'⟩
      exact ⟨hnone, l', hl', hs', ts', hts'.settle_of_ne hk⟩
  · by_cases he : e = encode k ts
    · exact Or.inr ⟨k, ts, l, he, hl₀, hs, by simp [hlock], hrecord⟩
    · have hsame : (st.apply (settleBatch k ts ⟨l.startTs, op⟩)).get .write e =
          st.get .write e := by
        simp [settleBatch, he]
      rw [hsame]
      refine (h.write e).imp_right ?_
      rintro ⟨k', ts', l', rfl, hl', hs', hnone, hts'⟩
      -- a key without a lock is not the one that is settled now
      have hk : k' ≠ k := by
        rintro rfl
        obtain ⟨b, hb, -⟩ := hl
        rw [hnone] at hb
        cases hb
      exact ⟨k', ts', l', rfl, hl', hs', by rw [hlock, if_neg hk, hnone], hts'.settle_of_ne hk⟩

/-! ## Resolving -/

/-- Either the status is read, or the primary lock has expired and is rolled back. -/
def StatusLeaves (p : Bytes) (t : UInt64) (st : Store) :
    Except LockResolverError TxnStatus → Store → Prop := fun out st' =>
  st' = st ∨ out = .ok .rolledBack ∧ st' = st.apply (settleBatch p t ⟨t, .rollback⟩) ∧
    ∃ l, StoredLock st p l ∧ l.startTs = t

lemma checkPrimaryLock_leaves (p : Bytes) (t : UInt64) :
    (checkPrimaryLock p t).Sat (fun _ => True) (fun _ => True) (StatusLeaves p t st) st := by
  simp only [checkPrimaryLock, Prog.sat_bind, Prog.sat_lookup, Prog.then_ok]
  cases hg : st.get .lock p with
  | none => exact Or.inl rfl
  | some b =>
      cases hdec : Lock.fromBytes b with
      | error e =>
          simp only [hdec]
          exact Or.inl rfl
      | ok l =>
          simp only [hdec]
          split_ifs with ht
          · simp only [Prog.sat_bind, Prog.sat_clock, Prog.then_ok]
            intro now _
            split_ifs
            · exact ⟨trivial, Or.inr ⟨rfl, rfl, l, ⟨b, hg, hdec⟩, ht⟩⟩
            · exact Or.inl rfl
          · exact Or.inl rfl

lemma checkTxnStatus_leaves (p : Bytes) (t : UInt64) :
    (LockResolver.checkTxnStatus p t).Sat (fun _ => True) (fun _ => True) (StatusLeaves p t st)
      st := by
  simp only [LockResolver.checkTxnStatus, Prog.sat_bind, Prog.sat_walk, Prog.then_ok,
    Prog.sat_ofExcept]
  cases statusLoop p t (st.range .write (encode p u64Max)) with
  | error e => exact Or.inl rfl
  | ok status =>
      cases status with
      | some status => exact Or.inl rfl
      | none => exact checkPrimaryLock_leaves p t

lemma resolveLock_onlySettled (h : OnlySettled s st₀ st) {k : Bytes} {l : Lock}
    (hl : StoredLock st k l) (hs : l.startTs ≠ s) :
    (resolveLock k l).Sat (fun _ => True) (fun _ => True)
      (fun _ st' => OnlySettled s st₀ st') st := by
  rw [resolveLock, Prog.sat_bind]
  refine (checkTxnStatus_leaves l.primaryKey l.startTs).mono ?_
  rintro out st' (rfl | ⟨rfl, rfl, lp, hlp, ht⟩)
  · cases out with
    | error e => exact h
    | ok status =>
        cases status with
        | committed commitTs => exact ⟨trivial, h.settle hl hs commitTs l.op⟩
        | rolledBack => exact ⟨trivial, h.settle hl hs l.startTs .rollback⟩
        | locked ttl =>
            simp only [Prog.then_ok, Prog.sat_bind, Prog.sat_clock]
            intro now _
            split_ifs
            · exact ⟨trivial, h.settle hl hs l.startTs .rollback⟩
            · exact h
  · have hprimary := h.settle hlp (ht ▸ hs) l.startTs .rollback
    rw [ht] at hprimary
    refine ⟨trivial, ?_⟩
    by_cases hk : k = l.primaryKey
    · -- the lock was the primary one: it is gone, and its record is written a second time
      rw [hk, apply_settleBatch_self (by simp [settleBatch]) (by simp [settleBatch])]
      exact hprimary
    · refine hprimary.settle ?_ hs l.startTs .rollback
      obtain ⟨b, hb, hdec⟩ := hl
      exact ⟨b, by simpa [settleBatch, hk] using hb, hdec⟩

/-! ## The request -/

lemma clearLockOnce_onlySettled (h : OnlySettled s st₀ st) (k : Bytes) :
    (clearLockOnce k s).Sat (fun _ => True) (fun _ => True) (fun _ st' => OnlySettled s st₀ st')
      st := by
  simp only [clearLockOnce, clearLockThen, Prog.sat_bind, Prog.sat_lookup, Prog.then_ok]
  cases hg : st.get .lock k with
  | none => exact h
  | some b =>
      cases hdec : Lock.fromBytes b with
      | error e =>
          simp only [hdec]
          exact h
      | ok l =>
          simp only [hdec]
          split_ifs with hs
          · exact h
          · rw [Prog.sat_bind, Prog.sat_attempt]
            refine (resolveLock_onlySettled h ⟨b, hg, hdec⟩ hs).mono fun out st' h' => ?_
            cases out with
            | error e => exact h'
            | ok _ => exact h'

lemma stageLoop_onlySettled (h : OnlySettled s st₀ st) (primaryKey : Bytes) (ttl : UInt64)
    (batch : Batch) (ms : List Mutation) :
    (stageLoop s primaryKey ttl batch ms).Sat (fun _ => True) (fun _ => True)
      (fun _ st' => OnlySettled s st₀ st') st := by
  induction ms generalizing st batch with
  | nil => exact h
  | cons m ms ih =>
      simp only [stageLoop, Prog.sat_bind, checkConflict, Prog.sat_walk, Prog.then_ok,
        Prog.sat_ofExcept]
      cases conflictLoop m.key s (st.range .write (encode m.key u64Max)) with
      | error e => exact h
      | ok _ =>
          simp only [Prog.then_ok, Prog.sat_bind]
          refine (clearLockOnce_onlySettled h m.key).mono fun out st' h' => ?_
          cases out with
          | error e => exact h'
          | ok _ => exact ih h' _

lemma batchPrewrite_onlySettled (primaryKey : Bytes) (ttl : UInt64) (ms : List Mutation) :
    (batchPrewrite s ms primaryKey ttl).Sat (fun _ => True) (fun _ => True)
      (fun out st' => ∀ e, out = .error e → OnlySettled s st st') st := by
  cases ms with
  | nil => simp [batchPrewrite]
  | cons m ms =>
      rw [batchPrewrite, Prog.sat_bind]
      refine (stageLoop_onlySettled (OnlySettled.refl s st) primaryKey ttl [] (m :: ms)).mono ?_
      rintro (e | batch) st' h'
      · exact fun _ _ => h'
      · simp

end

/-- **A failed batch prewrite stages nothing.**  On any store, the values are as before, so is every
lock of the transaction, and there is no new lock; every lock that is gone was another
transaction's, of which its key now has a record; and these records are all that has changed
besides. -/
theorem batchPrewrite_failed (st : Store) (startTs : UInt64) (ms : List Mutation)
    (primaryKey : Bytes) (ttl : UInt64) (clock : ℕ → UInt64) (e : TxnError) (st' : Store)
    (hrun : (batchPrewrite startTs ms primaryKey ttl).run clock st = (.error e, st')) :
    (∀ d, st'.get .default d = st.get .default d) ∧
    (∀ k l, StoredLock st k l → l.startTs = startTs → st'.get .lock k = st.get .lock k) ∧
    (∀ k b, st'.get .lock k = some b → st.get .lock k = some b) ∧
    (∀ k b, st.get .lock k = some b → st'.get .lock k = none →
      ∃ l, Lock.fromBytes b = .ok l ∧ l.startTs ≠ startTs ∧ ∃ ts, RecordAt st' k ts l.startTs) ∧
    ∀ w, st'.get .write w ≠ st.get .write w → ∃ k ts l, w = encode k ts ∧ StoredLock st k l ∧
      l.startTs ≠ startTs ∧ st'.get .lock k = none ∧ RecordAt st' k ts l.startTs := by
  have h := (batchPrewrite_onlySettled primaryKey ttl ms).post hrun e rfl
  refine ⟨h.default, fun k l hl hs => ?_, fun k b hb => ?_, fun k b hb hnone => ?_, fun w hw => ?_⟩
  · rcases h.lock k with hsame | ⟨-, l', hl', hs', -⟩
    · exact hsame
    · obtain ⟨b, hb, hdec⟩ := hl
      have hdec' := hl'.decodes hb
      rw [hdec, Except.ok.injEq] at hdec'
      exact absurd hs (hdec' ▸ hs')
  · rcases h.lock k with hsame | ⟨hnone, -⟩
    · rw [← hsame, hb]
    · rw [hnone] at hb
      cases hb
  · rcases h.lock k with hsame | ⟨-, l, hl, hs, hrecord⟩
    · rw [hnone, hb] at hsame
      cases hsame
    · exact ⟨l, hl.decodes hb, hs, hrecord⟩
  · exact (h.write w).resolve_left hw

/-- A lock of transaction 65536 that expires after three seconds, and one of 131072 elsewhere. -/
def otherLocked : Store :=
  Keyspace.empty.apply [.insert .lock [1] (Lock.mk [1] 65536 3000 .put).toBytes,
    .insert .lock [2] (Lock.mk [2] 131072 9000 .put).toBytes]

/-- The first lock is resolved, the second one is still alive: the prewrite fails, and a rollback
record is all that it leaves. -/
theorem batchPrewrite_failed_resolved :
    ∃ e st', (batchPrewrite 196608 [.put [1] [10], .put [2] [20]] [1] 3000).run (fun _ => 5000)
        otherLocked = (.error e, st') ∧
      (∀ d, st'.get .default d = otherLocked.get .default d) ∧
      st'.get .lock [1] = none ∧ ∃ ts, RecordAt st' [1] ts 65536 := by
  have herr : ((batchPrewrite 196608 [.put [1] [10], .put [2] [20]] [1] 3000).run (fun _ => 5000)
      otherLocked).1 = .error (.keyLocked [2]) := by decide +kernel
  have hgone : ((batchPrewrite 196608 [.put [1] [10], .put [2] [20]] [1] 3000).run (fun _ => 5000)
      otherLocked).2.get .lock [1] = none := by decide +kernel
  obtain ⟨hdefault, -, -, hremoved, -⟩ := batchPrewrite_failed otherLocked 196608
    [.put [1] [10], .put [2] [20]] [1] 3000 (fun _ => 5000) (.keyLocked [2]) _ (Prod.ext herr rfl)
  have hstored : Lock.fromBytes (Lock.mk [1] 65536 3000 .put).toBytes
      = .ok ⟨[1], 65536, 3000, .put⟩ := by decide
  obtain ⟨l, hdec, -, hrecord⟩ := hremoved [1] (Lock.mk [1] 65536 3000 .put).toBytes
    (by decide +kernel) hgone
  rw [hstored, Except.ok.injEq] at hdec
  subst hdec
  exact ⟨_, _, Prod.ext herr rfl, hdefault, hgone, hrecord⟩

end AcidKv
