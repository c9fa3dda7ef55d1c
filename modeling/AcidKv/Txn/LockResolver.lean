import AcidKv.Storage.Engine

/-!
# Lock resolution

The status of a transaction is read off its primary key: a write record for its start timestamp
decides, and where there is none a live lock keeps it open and an expired one is rolled back.
Resolving a lock applies the status to the locked key.

Both functions read the wall clock on their own, and both compare it with a sum of two `u64`s;
the sum wraps, as it does in a release build.
-/

namespace AcidKv

inductive LockResolverError where
  | mvcc (e : MvccError)
  | lockActiveNotExpired
  deriving DecidableEq, Repr

inductive TxnStatus where
  | committed (commitTs : UInt64)
  | rolledBack
  | locked (ttl : UInt64)
  deriving DecidableEq, Repr

namespace LockResolver

/-- `now_phys > start_phys + ttl`, in `u64` arithmetic. -/
def expired (nowPhys startTs ttl : UInt64) : Prop := nowPhys > (startTs >>> 16) + ttl

instance (n s t : UInt64) : Decidable (expired n s t) := inferInstanceAs (Decidable (_ < _))

/-- The scan loop of `check_txn_status` over the write records of the primary key. -/
def statusLoop (primaryKey : Bytes) (startTs : UInt64) :
    List (Bytes × Bytes) → Except LockResolverError (Option TxnStatus)
  | [] => .ok none
  | (encKey, writeBytes) :: rest =>
      match KeyEncoder.decode encKey with
      | .error _ => .error (.mvcc .corruptedState)
      | .ok (currUserKey, commitTs) =>
          if currUserKey = primaryKey then
            match WriteRecord.fromBytes writeBytes with
            | some record =>
                if record.startTs = startTs then
                  match record.op with
                  | .put | .delete => .ok (some (.committed commitTs))
                  | .rollback => .ok (some .rolledBack)
                else statusLoop primaryKey startTs rest
            | none => statusLoop primaryKey startTs rest
          else .ok none

/-- The batch that ends a lock on `key` with a record at `ts`. -/
def settleBatch (key : Bytes) (ts : UInt64) (record : WriteRecord) : Batch :=
  [.insert .write (KeyEncoder.encode key ts) record.toBytes, .remove .lock key]

/-- Settling a key that is settled already changes nothing. -/
lemma apply_settleBatch_self {st : Store} {key : Bytes} {ts : UInt64} {record : WriteRecord}
    (hl : st.get .lock key = none)
    (hw : st.get .write (KeyEncoder.encode key ts) = some record.toBytes) :
    st.apply (settleBatch key ts record) = st := by
  refine Keyspace.ext_get fun p e => ?_
  simp only [settleBatch, Keyspace.apply_cons, Keyspace.apply_nil, Keyspace.get_remove,
    Keyspace.get_insert]
  split_ifs with hlock hwrite
  · rw [hlock.1, hlock.2, hl]
  · rw [hwrite.1, hwrite.2, hw]
  · rfl

/-- The part of `check_txn_status` after the scan: no record decides, so the lock does. -/
def checkPrimaryLock (primaryKey : Bytes) (startTs : UInt64) :
    Handler LockResolverError TxnStatus := do
  match ← Prog.lookup .lock primaryKey with
  | some lockBytes =>
      match Lock.fromBytes lockBytes with
      | .ok lock =>
          if lock.startTs = startTs then do
            let nowPhys ← Prog.clock
            if expired nowPhys startTs lock.ttl then do
              Prog.write (settleBatch primaryKey startTs ⟨startTs, .rollback⟩)
              return .rolledBack
            else return .locked lock.ttl
          else return .rolledBack
      | .error _ => return .rolledBack
  | none => return .rolledBack

/-- Queries the status of a transaction by its primary key, rolling the primary back if it is
still locked and its TTL has run out. -/
def checkTxnStatus (primaryKey : Bytes) (startTs : UInt64) :
    Handler LockResolverError TxnStatus := do
  let items ← Prog.walk .write (KeyEncoder.encode primaryKey u64Max)
  match ← Prog.ofExcept (statusLoop primaryKey startTs items) with
  | some status => return status
  | none => checkPrimaryLock primaryKey startTs

/-- Resolves a lock on `key` by rolling it forward or back. -/
def resolveLock (key : Bytes) (lock : Lock) : Handler LockResolverError Unit := do
  match ← checkTxnStatus lock.primaryKey lock.startTs with
  | .committed commitTs => Prog.write (settleBatch key commitTs ⟨lock.startTs, lock.op⟩)
  | .rolledBack => Prog.write (settleBatch key lock.startTs ⟨lock.startTs, .rollback⟩)
  | .locked _ => do
      let nowPhys ← Prog.clock
      if expired nowPhys lock.startTs lock.ttl then
        Prog.write (settleBatch key lock.startTs ⟨lock.startTs, .rollback⟩)
      else .throw .lockActiveNotExpired

end LockResolver

end AcidKv
