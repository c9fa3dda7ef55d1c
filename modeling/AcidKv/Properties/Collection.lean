import AcidKv.Properties.Finality

/-!
# What garbage collection takes away

`gc_keys_older_than` keeps of each key the newest version below the safe point, whatever that is.
It may be a rollback record, and then the newest value goes.  It may be a later transaction's
record, and then the commit record goes by which a lock on another key is rolled forward.  And the
value that goes with a version is the one staged under the same start, which a rollback record
shares with the Put record it came too late for.

The three theorems below give for each of these the exact condition on the store before the
collection under which nothing is lost.
-/

namespace AcidKv

open KeyEncoder StorageEngine LockResolver

/-- A collection as an event of a run. -/
def collection (sp : UInt64) : Event := { call := .gc sp }

/-- The store a run leaves, and what is left of it after a collection. -/
lemma gc_step (es : List Event) (sp : UInt64) :
    WF (RunKeys es) (Config.init.steps (es ++ [collection sp])).store ∧
      view (Config.init.steps (es ++ [collection sp])).store
        = (view (Config.init.steps es).store).collect sp := by
  have hstep : (Config.init.steps (es ++ [collection sp])).store =
      ((gcKeysOlderThan sp : Handler TxnError ℕ).run (fun _ => 0)
        (Config.init.steps es).store).2 := by
    rw [Config.steps_append]
    show ((Call.gc sp).handler.run (fun _ => 0) (Config.init.steps es).store).2 = _
    cases hrun : (gcKeysOlderThan sp : Handler TxnError ℕ).run (fun _ => 0)
        (Config.init.steps es).store with
    | mk out st' =>
        cases out with
        | ok n => rw [Call.handler, Prog.run_bind_ok hrun]; rfl
        | error e => rw [Call.handler, Prog.run_bind_error hrun]
  rw [hstep]
  exact ⟨(wf_runKeys es).gc _, view_gc (wf_runKeys es) _⟩

section

variable {v : View} {sp : UInt64}

@[simp] lemma collect_lock : (v.collect sp).lock = v.lock := rfl

lemma collect_write_some {k : Bytes} {ts : UInt64} {w : WriteRecord} :
    (v.collect sp).write k ts = some w ↔ v.write k ts = some w ∧ ¬ Obsolete v sp k ts := by
  simp only [View.collect]
  split_ifs with hobs <;> simp [hobs]

lemma collect_data_some {k x : Bytes} {s : UInt64} :
    (v.collect sp).data k s = some x ↔ v.data k s = some x ∧ ¬ Unstaged v sp k s := by
  simp only [View.collect]
  split_ifs with hobs <;> simp [hobs]

/-- With prefix-free keys everything below an obsolete version is obsolete. -/
lemma Obsolete.below {U : Set Bytes} (hU : PrefixFree U) {st : Store} (h : WF U st) {k : Bytes}
    {c c' : UInt64} {w : WriteRecord} (hw : (view st).write k c' = some w) (hlt : c < c')
    (hsp : c' < sp) : Obsolete (view st) sp k c := by
  refine ⟨UInt64.lt_trans hlt hsp, c', w, hlt, hsp, hw, ?_⟩
  intro k' t w' hw' hlo hhi
  exact hU.eq_of_between (h.write_mem hw) (h.write_mem hw') (Std.le_of_lt hlo) hhi

/-- A hit that is not obsolete stays one. -/
lemma Hit.collect {k : Bytes} {hi ts : UInt64} {P : WriteRecord → Prop} {w : WriteRecord}
    (h : Hit v k hi P ts w) (hobs : ¬ Obsolete v sp k ts) : Hit (v.collect sp) k hi P ts w where
  le := h.le
  write := collect_write_some.mpr ⟨h.write, hobs⟩
  holds := h.holds
  newest ts' w' hw' := h.newest ts' w' (collect_write_some.mp hw').1
  clear k' t w' hw' := h.clear k' t w' (collect_write_some.mp hw').1

end

/-! ## Reads -/

/-- The collection takes nothing away from a read of `k` at `r`.  The Put record it stops at stays,
with its value; and of the Put records that it does not get to none comes out from behind obsolete
entries. -/
structure KeepsRead (v : View) (sp : UInt64) (k : Bytes) (r : UInt64) : Prop where
  stays : ∀ c s, Sees v k r c ⟨s, .put⟩ →
    ¬ Obsolete v sp k c ∧ ((v.data k s).isSome → ¬ Unstaged v sp k s)
  hidden : ∀ c s, v.write k c = some ⟨s, .put⟩ → c ≤ r → ¬ Obsolete v sp k c →
    (∀ c' w, v.write k c' = some w → c < c' → c' ≤ r → w.op ≠ .rollback → Obsolete v sp k c') →
    (∀ k' t w, v.write k' t = some w → encode k r ≤ encode k' t → encode k' t < encode k c →
      k' ≠ k → Obsolete v sp k' t) → Sees v k r c ⟨s, .put⟩

section

variable {v : View} {sp : UInt64} {k : Bytes} {r : UInt64}

lemma KeepsRead.sees (h : KeepsRead v sp k r) {c s : UInt64}
    (hs : Sees (v.collect sp) k r c ⟨s, .put⟩) : Sees v k r c ⟨s, .put⟩ := by
  obtain ⟨hw, hobs⟩ := collect_write_some.mp hs.write
  refine h.hidden c s hw hs.le hobs ?_ ?_
  · intro c' w hw' hlt hle hop
    by_contra hkept
    exact hs.newest c' w (collect_write_some.mpr ⟨hw', hkept⟩) hlt hle hop
  · intro k' t w hw' hlo hhi hne
    by_contra hkept
    exact hne (hs.clear k' t w (collect_write_some.mpr ⟨hw', hkept⟩) hlo hhi)

lemma KeepsRead.readRecord (h : KeepsRead v sp k r) {c s : UInt64}
    (hs : Sees v k r c ⟨s, .put⟩) :
    (v.collect sp).readRecord k ⟨s, .put⟩ = v.readRecord k ⟨s, .put⟩ := by
  simp only [View.readRecord]
  cases hd : v.data k s with
  | some x => rw [collect_data_some.mpr ⟨hd, (h.stays c s hs).2 (by rw [hd]; rfl)⟩]
  | none =>
      have hnone : (v.collect sp).data k s = none := by
        simp only [View.collect, hd, ite_self]
      rw [hnone]

/-- A read that returns nothing sees nothing or a Delete record. -/
lemma readRecord_of_not_put {w : WriteRecord} (h : w.op ≠ .put) : v.readRecord k w = .ok none := by
  obtain ⟨s, op⟩ := w
  cases op with
  | put => exact absurd rfl h
  | delete => rfl
  | rollback => rfl

end

section

variable {U : Set Bytes} {st st' : Store} {sp : UInt64} {k : Bytes} {r : UInt64}
  {clock clock' : ℕ → UInt64}

/-- A read that stops at no Put record returns nothing. -/
lemma readerGet_of_no_put (h : WF U st) (hfree : Unlocked (view st) k r)
    (hnone : ∀ c s, ¬ Sees (view st) k r c ⟨s, .put⟩) :
    ((MvccReader.get k r).run clock st).1 = .ok none := by
  by_cases hs : ∃ c w, Sees (view st) k r c w
  · obtain ⟨c, w, hs⟩ := hs
    rw [readerGet_of_sees h hfree hs]
    refine readRecord_of_not_put fun hput => hnone c w.startTs ?_
    rw [← hput]
    exact hs
  · rw [readerGet_of_unseen h hfree fun c w hs' => hs ⟨c, w, hs'⟩]

lemma KeepsRead.same (hkeep : KeepsRead (view st) sp k r) (h : WF U st) (h' : WF U st')
    (hview : view st' = (view st).collect sp) (hfree : Unlocked (view st) k r) :
    ((MvccReader.get k r).run clock' st').1 = ((MvccReader.get k r).run clock st).1 := by
  have hfree' : Unlocked (view st') k r := by rw [hview]; exact hfree
  by_cases hput : ∃ c s, Sees (view st) k r c ⟨s, .put⟩
  · obtain ⟨c, s, hs⟩ := hput
    have hs' : Sees (view st') k r c ⟨s, .put⟩ := by
      rw [hview]
      exact hs.collect (hkeep.stays c s hs).1
    rw [readerGet_of_sees h hfree hs, readerGet_of_sees h' hfree' hs', hview]
    exact hkeep.readRecord hs
  · rw [readerGet_of_no_put h hfree fun c s hs => hput ⟨c, s, hs⟩,
      readerGet_of_no_put h' hfree' fun c s hs => hput ⟨c, s, hkeep.sees (hview ▸ hs)⟩]

/-- Where keys are prefix-free, the condition is also necessary. -/
lemma KeepsRead.of_same (hU : PrefixFree U) (h : WF U st) (h' : WF U st')
    (hview : view st' = (view st).collect sp) (hfree : Unlocked (view st) k r)
    (hsame : ((MvccReader.get k r).run clock' st').1 = ((MvccReader.get k r).run clock st).1) :
    KeepsRead (view st) sp k r where
  stays := by
    intro c s hs
    have hfree' : Unlocked (view st') k r := by rw [hview]; exact hfree
    rw [readerGet_of_sees h hfree hs] at hsame
    have hput : ((view st).readRecord k ⟨s, .put⟩) ≠ .ok none := by
      simp only [View.readRecord]
      cases (view st).data k s with
      | some x => simp
      | none => simp
    have hkept : ¬ Obsolete (view st) sp k c := by
      intro hobs
      refine hput (hsame.symm.trans (readerGet_of_no_put h' hfree' fun c' s' hs' => ?_))
      rw [hview] at hs'
      obtain ⟨hw', hobs'⟩ := collect_write_some.mp hs'.write
      rcases UInt64.lt_or_lt_of_ne (fun heq : c' = c => hobs' (heq ▸ hobs)) with hlt | hlt
      · exact hobs' (Obsolete.below hU h hs.write hlt hobs.1)
      · exact hs.newest c' _ hw' hlt hs'.le hs'.holds
    refine ⟨hkept, fun hdata hun => ?_⟩
    have hs' : Sees (view st') k r c ⟨s, .put⟩ := by
      rw [hview]
      exact hs.collect hkept
    rw [readerGet_of_sees h' hfree' hs', hview] at hsame
    obtain ⟨x, hx⟩ := Option.isSome_iff_exists.mp hdata
    have hgone : ((view st).collect sp).data k s = none := by
      simp only [View.collect, hun, if_true]
    simp only [View.readRecord, hx, hgone] at hsame
    cases hsame
  hidden := by
    intro c s hw hle hobs hnewer _
    refine ⟨⟨hle, hw, by simp, ?_⟩, hU.seenFrom h (h.write_mem hw) r c⟩
    intro c' w hw' hlt hle' hop
    exact hobs (Obsolete.below hU h hw' hlt (hnewer c' w hw' hlt hle' hop).1)

end

/-- In every reachable store, a read that no lock is in the way of returns the same before and after
a collection if the collection keeps what it reads, and where no user key is a proper prefix of
another one only then. -/
theorem gc_keeps_reads (es : List Event) (sp : UInt64) (k : Bytes) (r : UInt64)
    (clock clock' : ℕ → UInt64) (hfree : Unlocked (view (Config.init.steps es).store) k r) :
    (KeepsRead (view (Config.init.steps es).store) sp k r →
      ((MvccReader.get k r).run clock' (Config.init.steps (es ++ [collection sp])).store).1
        = ((MvccReader.get k r).run clock (Config.init.steps es).store).1) ∧
    (PrefixFree (RunKeys es) →
      ((MvccReader.get k r).run clock' (Config.init.steps (es ++ [collection sp])).store).1
        = ((MvccReader.get k r).run clock (Config.init.steps es).store).1 →
      KeepsRead (view (Config.init.steps es).store) sp k r) := by
  obtain ⟨hwf', hview⟩ := gc_step es sp
  have hwf := wf_runKeys es
  exact ⟨fun hkeep => hkeep.same hwf hwf' hview hfree,
    fun hU hsame => .of_same hU hwf hwf' hview hfree hsame⟩

/-- Two values of one key, committed one after the other. -/
def twoVersions : List Event :=
  [{ call := .prewrite 65536 [.put [1] [10]] [1] 3000 },
   { call := .commit 65536 65537 [[1]] },
   { call := .prewrite 65538 [.put [1] [11]] [1] 3000 },
   { call := .commit 65538 65539 [[1]] }]

/-- The newer value stays and can be read at the safe point. -/
theorem gc_keeps_reads_twoVersions :
    KeepsRead (view (Config.init.steps twoVersions).store) 65540 [1] 65540 ∧
      ((MvccReader.get [1] 65540).run (fun _ => 0)
        (Config.init.steps (twoVersions ++ [collection 65540])).store).1 = .ok (some [11]) := by
  have hfree : Unlocked (view (Config.init.steps twoVersions).store) [1] 65540 := by
    have hnone : (view (Config.init.steps twoVersions).store).lock [1] = none := by decide
    intro l hl
    rw [hnone] at hl
    cases hl
  obtain ⟨-, hnec⟩ := gc_keeps_reads twoVersions 65540 [1] 65540 (fun _ => 0) (fun _ => 0) hfree
  exact ⟨hnec (prefixFree_runKeys (by decide)) (by decide), by decide⟩

/-- A value, and the rollback of a transaction that came after it. -/
def rolledBackAfter : List Event :=
  [{ call := .prewrite 65536 [.put [1] [10]] [1] 3000 },
   { call := .commit 65536 65537 [[1]] },
   { call := .rollback 65540 [[1]] }]

/-- The rollback record is the one version that is kept, and the value is lost to a read at the safe
point. -/
theorem gc_loses_value :
    Unlocked (view (Config.init.steps rolledBackAfter).store) [1] 65541 ∧
      ((MvccReader.get [1] 65541).run (fun _ => 0)
        (Config.init.steps rolledBackAfter).store).1 = .ok (some [10]) ∧
      ((MvccReader.get [1] 65541).run (fun _ => 0)
        (Config.init.steps (rolledBackAfter ++ [collection 65541])).store).1 = .ok none := by
  have hnone : (view (Config.init.steps rolledBackAfter).store).lock [1] = none := by decide
  refine ⟨fun l hl => ?_, by decide, by decide⟩
  rw [hnone] at hl
  cases hl

/-! ## The fate of unresolved locks -/

section

variable {U : Set Bytes} {st : Store} {c : UInt64} {clock : ℕ → UInt64}

/-- A lock of a transaction with a commit record is rolled forward. -/
lemma resolveLock_of_committed (h : WF U st) {op : OpType} (hop : op ≠ .rollback) {lock : Lock}
    (hd : Decides (view st) lock.primaryKey lock.startTs c ⟨lock.startTs, op⟩) (key : Bytes) :
    (resolveLock key lock).run clock st
      = (.ok (), st.apply (settleBatch key c ⟨lock.startTs, lock.op⟩)) := by
  obtain ⟨n, hn⟩ := @Prog.run_bind _ _ _ _ _ _ _ _ _ _ _ _ _ _ _ _
    (@status_of_committed U st clock h lock.primaryKey lock.startTs c op hop hd)
  exact hn

end

/-- In every reachable store in which some key `q` holds a lock of a transaction whose status is
`Committed`, the status is the same after a collection exactly if the collection keeps the commit
record on the primary key; and then the lock is still rolled forward, as it stands or as a read
reports it. -/
theorem gc_keeps_status_iff (es : List Event) (sp : UInt64) (q : Bytes) (l : Lock)
    (hl : (view (Config.init.steps es).store).lock q = some l) (c : UInt64)
    (clock clock' : ℕ → UInt64)
    (hstatus : ((LockResolver.checkTxnStatus l.primaryKey l.startTs).run clock
      (Config.init.steps es).store).1 = .ok (.committed c)) :
    (((LockResolver.checkTxnStatus l.primaryKey l.startTs).run clock'
        (Config.init.steps (es ++ [collection sp])).store).1 = .ok (.committed c) ↔
      ¬ Obsolete (view (Config.init.steps es).store) sp l.primaryKey c) ∧
    (¬ Obsolete (view (Config.init.steps es).store) sp l.primaryKey c →
      (view (Config.init.steps (es ++ [collection sp])).store).lock q = some l ∧
      ∀ lr, lr = l ∨ lr = Coordinator.reportedLock l.primaryKey l.startTs →
        (resolveLock q lr).run clock' (Config.init.steps (es ++ [collection sp])).store
          = (.ok (), (Config.init.steps (es ++ [collection sp])).store.apply
              (settleBatch q c ⟨l.startTs, lr.op⟩))) := by
  obtain ⟨hwf', hview⟩ := gc_step es sp
  obtain ⟨op, hop, hd⟩ := decides_of_committed (wf_runKeys es) hstatus
  have hkept : ¬ Obsolete (view (Config.init.steps es).store) sp l.primaryKey c →
      Decides (view (Config.init.steps (es ++ [collection sp])).store) l.primaryKey l.startTs c
        ⟨l.startTs, op⟩ := by
    intro hobs
    rw [hview]
    exact hd.collect hobs
  refine ⟨⟨fun hafter => ?_, fun hobs => ?_⟩, fun hobs => ⟨?_, ?_⟩⟩
  · obtain ⟨op', -, hd'⟩ := decides_of_committed hwf' hafter
    rw [hview] at hd'
    exact (collect_write_some.mp hd'.write).2
  · rw [status_of_committed hwf' hop (hkept hobs)]
  · rw [hview]
    exact hl
  · rintro lr (rfl | rfl)
    · exact resolveLock_of_committed hwf' hop (hkept hobs) q
    · exact @resolveLock_of_committed _ _ _ _ hwf' op hop
        (Coordinator.reportedLock l.primaryKey l.startTs) (hkept hobs) q

/-- A transaction on two keys of which only the primary is committed. -/
def primaryCommitted : List Event :=
  [{ call := .prewrite 65536 [.put [1] [10], .put [2] [20]] [1] 3000 },
   { call := .commit 65536 65537 [[1]] }]

/-- The commit record is the newest version of the primary key, and stays. -/
theorem gc_keeps_status_newest :
    ¬ Obsolete (view (Config.init.steps primaryCommitted).store) 65538 [1] 65537 := by
  have hl : (view (Config.init.steps primaryCommitted).store).lock [2]
      = some ⟨[1], 65536, 3000, .put⟩ := by decide
  exact (gc_keeps_status_iff primaryCommitted 65538 [2] _ hl 65537 (fun _ => 0) (fun _ => 0)
    (by decide)).1.mp (by decide)

/-- A later transaction commits to the primary key before the secondary lock is resolved. -/
def primaryRewritten : List Event :=
  primaryCommitted ++
  [{ call := .prewrite 65540 [.put [1] [11]] [1] 3000 },
   { call := .commit 65540 65541 [[1]] }]

/-- The collection takes the commit record, and the lock on the other key is rolled back. -/
theorem gc_loses_status :
    (view (Config.init.steps primaryRewritten).store).lock [2] = some ⟨[1], 65536, 3000, .put⟩ ∧
      ((LockResolver.checkTxnStatus [1] 65536).run (fun _ => 0)
        (Config.init.steps primaryRewritten).store).1 = .ok (.committed 65537) ∧
      ((LockResolver.checkTxnStatus [1] 65536).run (fun _ => 0)
        (Config.init.steps (primaryRewritten ++ [collection 65542])).store).1
          = .ok .rolledBack := by
  refine ⟨by decide, by decide, by decide⟩

/-! ## Staged values -/

/-- A Put record or a Put lock of transaction `s` on `k`. -/
def InUse (v : View) (k : Bytes) (s : UInt64) : Prop :=
  (∃ ts, v.write k ts = some ⟨s, .put⟩) ∨ ∃ l, v.lock k = some l ∧ l.startTs = s ∧ l.op = .put

/-- Some record of `s` on `k` goes, while a Put record of `s` on `k` stays or a Put lock does. -/
def Shares (v : View) (sp : UInt64) (k : Bytes) (s : UInt64) : Prop :=
  (∃ ts op, v.write k ts = some ⟨s, op⟩ ∧ Obsolete v sp k ts) ∧
    ((∃ ts, v.write k ts = some ⟨s, .put⟩ ∧ ¬ Obsolete v sp k ts) ∨
      ∃ l, v.lock k = some l ∧ l.startTs = s ∧ l.op = .put)

lemma inUse_collect {v : View} {sp : UInt64} {k : Bytes} {s : UInt64} :
    InUse (v.collect sp) k s ∧ Unstaged v sp k s ↔ Shares v sp k s := by
  simp only [InUse, Shares, Unstaged, collect_write_some, collect_lock]
  exact and_comm

/-- After a collection of a reachable store every value in use that was there before still is,
exactly if no record goes that shares its start with a Put record that stays or with a Put lock. -/
theorem gc_keeps_data_iff (es : List Event) (sp : UInt64) :
    (∀ k s x, InUse (view (Config.init.steps (es ++ [collection sp])).store) k s →
        (view (Config.init.steps es).store).data k s = some x →
        (view (Config.init.steps (es ++ [collection sp])).store).data k s = some x) ↔
      ∀ k s x, (view (Config.init.steps es).store).data k s = some x →
        ¬ Shares (view (Config.init.steps es).store) sp k s := by
  rw [(gc_step es sp).2]
  constructor
  · intro hkeeps k s x hx hshares
    obtain ⟨huse, hun⟩ := inUse_collect.mpr hshares
    exact (collect_data_some.mp (hkeeps k s x huse hx)).2 hun
  · intro hnone k s x huse hx
    refine collect_data_some.mpr ⟨hx, fun hun => ?_⟩
    exact hnone k s x hx (inUse_collect.mp ⟨huse, hun⟩)

/-- A rollback that arrives after the commit of its transaction. -/
def lateRollback : List Event :=
  [{ call := .prewrite 65536 [.put [1] [10]] [1] 3000 },
   { call := .commit 65536 65537 [[1]] },
   { call := .rollback 65536 [[1]] }]

/-- The rollback record goes and takes the value of the Put record with it. -/
theorem gc_loses_data :
    (view (Config.init.steps lateRollback).store).data [1] 65536 = some [10] ∧
      (view (Config.init.steps (lateRollback ++ [collection 65538])).store).write [1] 65537
        = some ⟨65536, .put⟩ ∧
      (view (Config.init.steps (lateRollback ++ [collection 65538])).store).data [1] 65536
        = none := by
  refine ⟨by decide, by decide, by decide⟩

end AcidKv
