import AcidKv.Txn.LockResolver

/-!
# The transaction coordinator

Two-phase commit over the storage engine: prewrite places locks and stages values, commit turns
the locks into write records, primary first.  `prewrite` commits one batch per mutation and
`batchPrewrite` one batch for all; `commit` and `batchCommit` likewise.
-/

namespace AcidKv

inductive TxnError where
  | mvcc (e : MvccError)
  | lockResolver (e : LockResolverError)
  | writeConflict (key : Bytes) (startTs : UInt64)
  | keyLocked (key : Bytes)
  | txnClosed
  | transactionRolledBack
  deriving DecidableEq, Repr

inductive Mutation where
  | put (key value : Bytes)
  | delete (key : Bytes)
  deriving DecidableEq, Repr

namespace Mutation

def key : Mutation → Bytes
  | .put key _ => key
  | .delete key => key

def opType : Mutation → OpType
  | .put _ _ => .put
  | .delete _ => .delete

end Mutation

namespace Coordinator

/-- Queries transaction status for a primary key at start_ts. -/
def checkTxnStatus (primaryKey : Bytes) (startTs : UInt64) : Handler TxnError TxnStatus :=
  (LockResolver.checkTxnStatus primaryKey startTs).mapError .lockResolver

/-- Sets the TTL of an active primary lock if start_ts matches. -/
def heartbeat (primaryKey : Bytes) (startTs newTtl : UInt64) : Handler TxnError UInt64 := do
  match ← Prog.lookup .lock primaryKey with
  | some lockBytes =>
      match Lock.fromBytes lockBytes with
      | .error _ => .throw (.mvcc .corruptedState)
      | .ok lock =>
          if lock.startTs = startTs then do
            Prog.write [.insert .lock primaryKey { lock with ttl := newTtl }.toBytes]
            return newTtl
          else .throw .transactionRolledBack
  | none => .throw .transactionRolledBack

/-- The lock that `get` resolves: the reader's error carries the primary key and the start
timestamp only, and the other two fields are filled in. -/
def reportedLock (primaryKey : Bytes) (lockTs : UInt64) : Lock := ⟨primaryKey, lockTs, 3000, .put⟩

/-- Reads a value at `readTs`, resolving a lock in the way. -/
def get (userKey : Bytes) (readTs : UInt64) : Handler TxnError (Option Bytes) := do
  match ← (MvccReader.get userKey readTs).attempt with
  | .ok val => return val
  | .error (.keyIsLocked primaryKey lockTs) => do
      match ← (LockResolver.resolveLock userKey (reportedLock primaryKey lockTs)).attempt with
      | .ok _ => (MvccReader.get userKey readTs).mapError .mvcc
      | .error _ => .throw (.keyLocked userKey)
  | .error e => .throw (.mvcc e)

/-- The loop of `scan`, with the last user key seen and the results so far. -/
def scanLoop (startKey endKey : Bytes) (limit : UInt32) (readTs : UInt64) :
    Option Bytes → List (Bytes × Bytes) → List (Bytes × Bytes) →
      Handler TxnError (List (Bytes × Bytes))
  | _, results, [] => return results
  | lastSeenUserKey, results, (encKey, _) :: rest =>
      match KeyEncoder.decode encKey with
      | .error _ => .throw (.mvcc .corruptedState)
      | .ok (userKey, _) =>
          if startKey ≠ [] ∧ userKey < startKey then
            scanLoop startKey endKey limit readTs lastSeenUserKey results rest
          else if endKey ≠ [] ∧ endKey ≤ userKey then return results
          else if lastSeenUserKey = some userKey then
            scanLoop startKey endKey limit readTs lastSeenUserKey results rest
          else do
            match ← get userKey readTs with
            | some value =>
                if 0 < limit ∧ limit.toNat ≤ (results ++ [(userKey, value)]).length then
                  return results ++ [(userKey, value)]
                else
                  scanLoop startKey endKey limit readTs (some userKey)
                    (results ++ [(userKey, value)]) rest
            | none => scanLoop startKey endKey limit readTs (some userKey) results rest

/-- Scans keys in range [start_key, end_key) at snapshot timestamp read_ts. -/
def scan (startKey endKey : Bytes) (limit : UInt32) (readTs : UInt64) :
    Handler TxnError (List (Bytes × Bytes)) := do
  let seekKey := if startKey = [] then [] else KeyEncoder.encode startKey readTs
  let items ← Prog.walk .write seekKey
  scanLoop startKey endKey limit readTs none [] items

/-! ## Prewrite -/

/-- The conflict check of a prewrite: the scan over the write records of the mutated key. -/
def conflictLoop (key : Bytes) (startTs : UInt64) : List (Bytes × Bytes) → Except TxnError Unit
  | [] => .ok ()
  | (encKey, writeBytes) :: rest =>
      match KeyEncoder.decode encKey with
      | .error _ => .error (.mvcc .corruptedState)
      | .ok (currUserKey, commitTs) =>
          if currUserKey = key then
            if WriteRecord.fromBytes writeBytes = some ⟨startTs, .rollback⟩ then
              .error .transactionRolledBack
            else if startTs ≤ commitTs then .error (.writeConflict key startTs)
            else conflictLoop key startTs rest
          else .ok ()

/-- Step 1 of a prewrite: write conflict and permanent rollback record. -/
def checkConflict (key : Bytes) (startTs : UInt64) : Handler TxnError Unit := do
  let items ← Prog.walk .write (KeyEncoder.encode key u64Max)
  Prog.ofExcept (conflictLoop key startTs items)

/-- Step 2 of a prewrite: an active lock of another transaction is resolved, and `afterwards`
runs if that succeeds. -/
def clearLockThen (key : Bytes) (startTs : UInt64) (afterwards : Handler TxnError Unit) :
    Handler TxnError Unit := do
  match ← Prog.lookup .lock key with
  | none => return ()
  | some existingLockBytes =>
      match Lock.fromBytes existingLockBytes with
      | .error _ => .throw (.mvcc .corruptedState)
      | .ok lock =>
          if lock.startTs = startTs then return ()
          else do
            match ← (LockResolver.resolveLock key lock).attempt with
            | .error _ => .throw (.keyLocked key)
            | .ok _ => afterwards

/-- The second look of `prewrite`: no lock of another transaction may be left. -/
def recheckLock (key : Bytes) (startTs : UInt64) : Handler TxnError Unit := do
  match ← Prog.lookup .lock key with
  | none => return ()
  | some stillLocked =>
      match Lock.fromBytes stillLocked with
      | .error _ => .throw (.mvcc .corruptedState)
      | .ok l => if l.startTs = startTs then return () else .throw (.keyLocked key)

def clearLock (key : Bytes) (startTs : UInt64) : Handler TxnError Unit :=
  clearLockThen key startTs (recheckLock key startTs)

/-- Step 2 of `batch_prewrite`, which does not look at the lock again after resolving it. -/
def clearLockOnce (key : Bytes) (startTs : UInt64) : Handler TxnError Unit :=
  clearLockThen key startTs (return ())

/-- Step 3 of a prewrite: the value of a put, and the lock. -/
def stageBatch (startTs : UInt64) (primaryKey : Bytes) (lockTtl : UInt64) (m : Mutation) : Batch :=
  let lock : Lock := ⟨primaryKey, startTs, lockTtl, m.opType⟩
  match m with
  | .put key value =>
      [.insert .default (KeyEncoder.encode key startTs) value, .insert .lock key lock.toBytes]
  | .delete key => [.insert .lock key lock.toBytes]

/-- Phase 1: prewrite mutations, one batch each. -/
def prewrite (startTs : UInt64) (mutations : List Mutation) (primaryKey : Bytes)
    (lockTtl : UInt64) : Handler TxnError Unit :=
  match mutations with
  | [] => return ()
  | m :: rest => do
      checkConflict m.key startTs
      clearLock m.key startTs
      Prog.write (stageBatch startTs primaryKey lockTtl m)
      prewrite startTs rest primaryKey lockTtl

/-- The loop of `batch_prewrite`: the staged batch. -/
def stageLoop (startTs : UInt64) (primaryKey : Bytes) (lockTtl : UInt64) :
    Batch → List Mutation → Handler TxnError Batch
  | batch, [] => return batch
  | batch, m :: rest => do
      checkConflict m.key startTs
      clearLockOnce m.key startTs
      stageLoop startTs primaryKey lockTtl (batch ++ stageBatch startTs primaryKey lockTtl m) rest

/-- Phase 1 in a single batch. -/
def batchPrewrite (startTs : UInt64) (mutations : List Mutation) (primaryKey : Bytes)
    (lockTtl : UInt64) : Handler TxnError Unit :=
  match mutations with
  | [] => return ()
  | _ :: _ => do
      let batch ← stageLoop startTs primaryKey lockTtl [] mutations
      Prog.write batch

/-! ## Commit -/

/-- Step 2 of `commit`: a secondary whose lock is gone or undecodable is skipped. -/
def commitSecondaries (startTs commitTs : UInt64) : List Bytes → Handler TxnError Unit
  | [] => return ()
  | key :: rest => do
      match ← Prog.lookup .lock key with
      | some lockBytes =>
          match Lock.fromBytes lockBytes with
          | .ok lock =>
              if lock.startTs = startTs then do
                Prog.write (LockResolver.settleBatch key commitTs ⟨startTs, lock.op⟩)
                commitSecondaries startTs commitTs rest
              else commitSecondaries startTs commitTs rest
          | .error _ => commitSecondaries startTs commitTs rest
      | none => commitSecondaries startTs commitTs rest

/-- Phase 2: commit the primary key, then the secondaries. -/
def commit (startTs commitTs : UInt64) (keys : List Bytes) : Handler TxnError Unit :=
  match keys with
  | [] => return ()
  | primaryKey :: secondaries => do
      match ← Prog.lookup .lock primaryKey with
      | some lockBytes =>
          match Lock.fromBytes lockBytes with
          | .error _ => .throw (.mvcc .corruptedState)
          | .ok lock =>
              if lock.startTs = startTs then do
                Prog.write (LockResolver.settleBatch primaryKey commitTs ⟨startTs, lock.op⟩)
                commitSecondaries startTs commitTs secondaries
              else .throw .transactionRolledBack
      | none => .throw .transactionRolledBack

/-- The loop of `batch_commit`: the staged batch. -/
def commitLoop (startTs commitTs : UInt64) : Batch → List Bytes → Handler TxnError Batch
  | batch, [] => return batch
  | batch, key :: rest => do
      match ← Prog.lookup .lock key with
      | some lockBytes =>
          match Lock.fromBytes lockBytes with
          | .error _ => .throw (.mvcc .corruptedState)
          | .ok lock =>
              if lock.startTs = startTs then
                commitLoop startTs commitTs
                  (batch ++ LockResolver.settleBatch key commitTs ⟨startTs, lock.op⟩) rest
              else commitLoop startTs commitTs batch rest
      | none => commitLoop startTs commitTs batch rest

/-- Phase 2 in a single batch. -/
def batchCommit (startTs commitTs : UInt64) (keys : List Bytes) : Handler TxnError Unit :=
  match keys with
  | [] => return ()
  | _ :: _ => do
      let batch ← commitLoop startTs commitTs [] keys
      Prog.write batch

/-- Rollback across the given keys: the lock goes if it is this transaction's, and the rollback
record is written in any case. -/
def rollback (startTs : UInt64) : List Bytes → Handler TxnError Unit
  | [] => return ()
  | key :: rest => do
      let record : BatchItem Part Bytes Bytes :=
        .insert .write (KeyEncoder.encode key startTs) (WriteRecord.mk startTs .rollback).toBytes
      match ← Prog.lookup .lock key with
      | some lockBytes =>
          match Lock.fromBytes lockBytes with
          | .ok lock =>
              if lock.startTs = startTs then do
                Prog.write [.remove .lock key, record]
                rollback startTs rest
              else do
                Prog.write [record]
                rollback startTs rest
          | .error _ => do
              Prog.write [record]
              rollback startTs rest
      | none => do
          Prog.write [record]
          rollback startTs rest

end Coordinator

end AcidKv
