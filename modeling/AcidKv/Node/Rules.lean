import AcidKv.Node.Workers

/-!
# Rules for the handlers

What a handler does under every schedule is shown with `Prog.Always`, whatever its reads return.
This module has one rule for each function of the coordinator and of the lock resolver that reads a
lock entry before it acts, for any condition `A` on the batches and any `Q` on the outcome.  A rule
asks for what is left to show on each way through the function; the loops have an invariant `I`.
-/

namespace AcidKv

open Coordinator LockResolver KeyEncoder

variable {A : Trace → Batch → Prop} {h : Trace}

/-! ## Lock resolution -/

section Status

variable {q : Bytes} {u : UInt64} {Q : Except LockResolverError TxnStatus → Trace → Prop}

lemma checkPrimaryLock_always
    (hgone : ∀ entry, (∀ l, entryLock entry = some l → l.startTs ≠ u) →
      Q (.ok .rolledBack) (h ++ [Obs.got Part.lock q entry]))
    (hexpired : ∀ entry l t, entryLock entry = some l → l.startTs = u → expired t u l.ttl →
      A (h ++ [Obs.got Part.lock q entry] ++ [Obs.read t]) (settleBatch q u ⟨u, .rollback⟩) ∧
        Q (.ok .rolledBack) (h ++ [Obs.got Part.lock q entry] ++ [Obs.read t] ++
          [Obs.wrote (settleBatch q u ⟨u, .rollback⟩)]))
    (hlive : ∀ entry l t, entryLock entry = some l → l.startTs = u → ¬ expired t u l.ttl →
      Q (.ok (.locked l.ttl)) (h ++ [Obs.got Part.lock q entry] ++ [Obs.read t])) :
    (checkPrimaryLock q u).Always A Q h := by
  simp only [checkPrimaryLock, Prog.always_bind, Prog.always_lookup, Prog.onward_ok]
  intro entry
  cases entry with
  | none => exact hgone none (by simp)
  | some b =>
      cases hl : Lock.fromBytes b with
      | error e =>
          simp only [hl]
          exact hgone (some b) (by simp [entryLock_error hl])
      | ok l =>
          simp only [hl]
          split_ifs with hu
          · simp only [Prog.always_bind, Prog.always_clock, Prog.onward_ok]
            intro t
            split_ifs with hexp
            · exact hexpired (some b) l t (entryLock_read hl) hu hexp
            · exact hlive (some b) l t (entryLock_read hl) hu hexp
          · refine hgone (some b) fun l' hl' => ?_
            rw [entryLock_read hl, Option.some.injEq] at hl'
            rwa [← hl']

lemma checkTxnStatus_always
    (herror : ∀ items e, statusLoop q u items = .error e →
      Q (.error e) (h ++ [Obs.walked Part.write (encode q u64Max) items]))
    (hfound : ∀ items status, statusLoop q u items = .ok (some status) →
      Q (.ok status) (h ++ [Obs.walked Part.write (encode q u64Max) items]))
    (hnone : ∀ items, statusLoop q u items = .ok none →
      (checkPrimaryLock q u).Always A Q (h ++ [Obs.walked Part.write (encode q u64Max) items])) :
    (LockResolver.checkTxnStatus q u).Always A Q h := by
  simp only [LockResolver.checkTxnStatus, Prog.always_bind, Prog.always_walk, Prog.onward_ok,
    Prog.always_ofExcept]
  intro items
  cases hstatus : statusLoop q u items with
  | error e => exact herror items e hstatus
  | ok found =>
      cases found with
      | some status => exact hfound items status hstatus
      | none => exact hnone items hstatus

end Status

/-- The status `S` has to outlast a look at the clock. -/
lemma resolveLock_always {k : Bytes} {lock : Lock}
    {S : Except LockResolverError TxnStatus → Trace → Prop}
    {Q : Except LockResolverError Unit → Trace → Prop}
    (hstatus : (LockResolver.checkTxnStatus lock.primaryKey lock.startTs).Always A S h)
    (hclock : ∀ out h' t, S out h' → S out (h' ++ [Obs.read t]))
    (herror : ∀ out e h', S out h' → Q (.error e) h')
    (hforward : ∀ ct h', S (.ok (.committed ct)) h' →
      A h' (settleBatch k ct ⟨lock.startTs, lock.op⟩) ∧
        Q (.ok ()) (h' ++ [Obs.wrote (settleBatch k ct ⟨lock.startTs, lock.op⟩)]))
    (hback : ∀ status h', S (.ok status) h' → (∀ ct, status ≠ .committed ct) →
      A h' (settleBatch k lock.startTs ⟨lock.startTs, .rollback⟩) ∧
        Q (.ok ()) (h' ++ [Obs.wrote (settleBatch k lock.startTs ⟨lock.startTs, .rollback⟩)])) :
    (resolveLock k lock).Always A Q h := by
  simp only [resolveLock, Prog.always_bind]
  refine hstatus.mono ?_
  intro out h' hS
  cases out with
  | error e => exact herror _ e h' hS
  | ok status =>
      cases status with
      | committed ct => exact hforward ct h' hS
      | rolledBack => exact hback .rolledBack h' hS fun ct => TxnStatus.noConfusion
      | locked ttl =>
          simp only [Prog.onward_ok, Prog.always_bind, Prog.always_clock]
          intro t
          have hS' := hclock _ h' t hS
          split_ifs
          · exact hback (.locked ttl) _ hS' fun ct => TxnStatus.noConfusion
          · exact herror _ _ _ hS'

/-! ## Point reads -/

/-- The versions of a key are read without a batch, and no lock is reported. -/
lemma getLoop_always (k : Bytes) (r : UInt64) (items : List (Bytes × Bytes)) (h : Trace) :
    (MvccReader.getLoop k r items).Always A
      (fun out _ => ∀ p t, out ≠ .error (.keyIsLocked p t)) h := by
  induction items with
  | nil => simp [MvccReader.getLoop]
  | cons x items ih =>
      obtain ⟨e, b⟩ := x
      simp only [MvccReader.getLoop]
      cases KeyEncoder.decode e with
      | error err => simp
      | ok kt =>
          simp only
          split_ifs
          · cases WriteRecord.fromBytes b with
            | none => simp
            | some w =>
                obtain ⟨s, op⟩ := w
                cases op with
                | put =>
                    simp only [Prog.always_bind, Prog.always_lookup, Prog.onward_ok]
                    intro value
                    cases value <;> simp
                | delete => simp
                | rollback => exact ih
          · exact ih
          · simp

/-- The lock that a point read from `h` on reports is the one it has just read. -/
def Reports (k : Bytes) (h : Trace) (out : Except MvccError (Option Bytes)) (h' : Trace) : Prop :=
  ∀ p t, out = .error (.keyIsLocked p t) → ∃ b l, h' = h ++ [Obs.got Part.lock k (some b)] ∧
    Lock.fromBytes b = .ok l ∧ l.primaryKey = p ∧ l.startTs = t

lemma readerGet_always (k : Bytes) (r : UInt64) (h : Trace) :
    (MvccReader.get k r).Always A (Reports k h) h := by
  have hscan : ∀ h' items, (MvccReader.getLoop k r items).Always A (Reports k h) h' :=
    fun h' items => (getLoop_always k r items h').mono
      fun out h' hne p t hout => absurd hout (hne p t)
  simp only [MvccReader.get, Prog.always_bind, Prog.always_lookup, Prog.onward_ok]
  intro entry
  cases entry with
  | none =>
      simp only [Prog.always_bind, Prog.always_walk, Prog.onward_ok]
      exact fun items => hscan _ items
  | some b =>
      cases hl : Lock.fromBytes b with
      | error e => simp [hl, Reports]
      | ok l =>
          simp only [hl]
          split_ifs with hle
          · rintro p t ⟨⟩
            exact ⟨b, l, rfl, hl, rfl, rfl⟩
          · simp only [Prog.always_bind, Prog.always_walk, Prog.onward_ok]
            exact fun items => hscan _ items

/-- All that a point read may commit is in resolving the lock that it has read. -/
lemma get_always {k : Bytes} {r : UInt64}
    (hresolve : ∀ entry l, entryLock entry = some l →
      (resolveLock k (reportedLock l.primaryKey l.startTs)).Always A (fun _ _ => True)
        (h ++ [Obs.got Part.lock k entry])) :
    (Coordinator.get k r).Always A (fun _ _ => True) h := by
  simp only [Coordinator.get, Prog.always_bind, Prog.always_attempt]
  refine (readerGet_always k r h).mono ?_
  intro out h' hread
  cases out with
  | ok x => trivial
  | error e =>
      cases e with
      | corruptedState => trivial
      | keyIsLocked p t =>
          obtain ⟨b, l, rfl, hl, rfl, rfl⟩ := hread p t rfl
          simp only [Prog.onward_ok, Prog.always_bind, Prog.always_attempt]
          refine (hresolve (some b) l (entryLock_read hl)).mono ?_
          intro out h'' _
          cases out with
          | error e => trivial
          | ok u =>
              simp only [Prog.always_mapError]
              exact (readerGet_always k r h'').mono fun _ _ _ => trivial

/-! ## Commits and heartbeats -/

section Commits

variable {s ct : UInt64}

lemma commitSecondaries_always {I : Trace → Prop} (ks : List Bytes)
    (hread : ∀ k entry h, I h → I (h ++ [Obs.got Part.lock k entry]))
    (hsettle : ∀ k entry l h, I h → entryLock entry = some l → l.startTs = s →
      A (h ++ [Obs.got Part.lock k entry]) (settleBatch k ct ⟨s, l.op⟩) ∧
        I (h ++ [Obs.got Part.lock k entry] ++ [Obs.wrote (settleBatch k ct ⟨s, l.op⟩)]))
    (h₀ : I h) : (commitSecondaries s ct ks).Always A (fun _ h' => I h') h := by
  induction ks generalizing h with
  | nil => exact h₀
  | cons k ks ih =>
      simp only [commitSecondaries, Prog.always_bind, Prog.always_lookup, Prog.onward_ok]
      intro entry
      have hgot := hread k entry h h₀
      cases entry with
      | none => exact ih hgot
      | some b =>
          cases hl : Lock.fromBytes b with
          | error e =>
              simp only [hl]
              exact ih hgot
          | ok l =>
              simp only [hl]
              split_ifs with hs
              · obtain ⟨hA, hI⟩ := hsettle k (some b) l h h₀ (entryLock_read hl) hs
                rw [Prog.always_bind]
                exact ⟨hA, ih hI⟩
              · exact ih hgot

lemma commit_always {Q : Except TxnError Unit → Trace → Prop} {k : Bytes} {ks : List Bytes}
    (herror : ∀ e h', Q (.error e) h')
    (hsettle : ∀ entry l, entryLock entry = some l → l.startTs = s →
      A (h ++ [Obs.got Part.lock k entry]) (settleBatch k ct ⟨s, l.op⟩) ∧
        (commitSecondaries s ct ks).Always A Q
          (h ++ [Obs.got Part.lock k entry] ++ [Obs.wrote (settleBatch k ct ⟨s, l.op⟩)])) :
    (Coordinator.commit s ct (k :: ks)).Always A Q h := by
  simp only [Coordinator.commit, Prog.always_bind, Prog.always_lookup, Prog.onward_ok]
  intro entry
  cases entry with
  | none => exact herror _ _
  | some b =>
      cases hl : Lock.fromBytes b with
      | error e =>
          simp only [hl]
          exact herror _ _
      | ok l =>
          simp only [hl]
          split_ifs with hs
          · rw [Prog.always_bind]
            exact hsettle (some b) l (entryLock_read hl) hs
          · exact herror _ _

lemma commitLoop_always {I : Batch → Trace → Prop} {b : Batch} (ks : List Bytes)
    (hread : ∀ k entry b h, I b h → I b (h ++ [Obs.got Part.lock k entry]))
    (hsettle : ∀ k entry l b h, I b h → entryLock entry = some l → l.startTs = s →
      I (b ++ settleBatch k ct ⟨s, l.op⟩) (h ++ [Obs.got Part.lock k entry]))
    (h₀ : I b h) :
    (commitLoop s ct b ks).Always A (fun out h' => ∀ b', out = .ok b' → I b' h') h := by
  induction ks generalizing h b with
  | nil =>
      rintro b' ⟨⟩
      exact h₀
  | cons k ks ih =>
      simp only [commitLoop, Prog.always_bind, Prog.always_lookup, Prog.onward_ok]
      intro entry
      have hgot := hread k entry b h h₀
      cases entry with
      | none => exact ih hgot
      | some bytes =>
          cases hl : Lock.fromBytes bytes with
          | error e =>
              simp only [hl, Prog.always_throw]
              rintro b' ⟨⟩
          | ok l =>
              simp only [hl]
              split_ifs with hs
              · exact ih (hsettle k (some bytes) l b h h₀ (entryLock_read hl) hs)
              · exact ih hgot

lemma batchCommit_always {I : Batch → Trace → Prop} (ks : List Bytes)
    (hread : ∀ k entry b h, I b h → I b (h ++ [Obs.got Part.lock k entry]))
    (hsettle : ∀ k entry l b h, I b h → entryLock entry = some l → l.startTs = s →
      I (b ++ settleBatch k ct ⟨s, l.op⟩) (h ++ [Obs.got Part.lock k entry]))
    (hA : ∀ b h, I b h → A h b) (h₀ : I [] h) :
    (batchCommit s ct ks).Always A (fun _ _ => True) h := by
  cases ks with
  | nil => trivial
  | cons k ks =>
      simp only [batchCommit, Prog.always_bind]
      refine (commitLoop_always (k :: ks) hread hsettle h₀).mono ?_
      intro out h' hout
      cases out with
      | error e => trivial
      | ok b => exact ⟨hA b h' (hout b rfl), trivial⟩

lemma heartbeat_always {k : Bytes} {ttl : UInt64}
    (hrefresh : ∀ entry l, entryLock entry = some l → l.startTs = s →
      A (h ++ [Obs.got Part.lock k entry]) [.insert .lock k { l with ttl := ttl }.toBytes]) :
    (heartbeat k s ttl).Always A (fun _ _ => True) h := by
  simp only [heartbeat, Prog.always_bind, Prog.always_lookup, Prog.onward_ok]
  intro entry
  cases entry with
  | none => trivial
  | some b =>
      cases hl : Lock.fromBytes b with
      | error e => simp [hl]
      | ok l =>
          simp only [hl]
          split_ifs with hs
          · rw [Prog.always_bind]
            exact ⟨hrefresh (some b) l (entryLock_read hl) hs, trivial⟩
          · trivial

end Commits

end AcidKv
