import AcidKv.Txn.Coordinator

/-!
# Runs of a node

A node serves requests one after the other on its store.  An event is one request together with
the clock readings it gets and, if it does not run to its end, the number of batches after which
it stops; a stopped request sends no reply.  A configuration is the store with the log of what
was requested and answered, and a run is a list of events.
-/

namespace AcidKv

/-- The requests a node serves. -/
inductive Call where
  | prewrite (startTs : UInt64) (mutations : List Mutation) (primaryKey : Bytes) (lockTtl : UInt64)
  | batchPrewrite (startTs : UInt64) (mutations : List Mutation) (primaryKey : Bytes)
      (lockTtl : UInt64)
  | commit (startTs commitTs : UInt64) (keys : List Bytes)
  | batchCommit (startTs commitTs : UInt64) (keys : List Bytes)
  | rollback (startTs : UInt64) (keys : List Bytes)
  | heartbeat (primaryKey : Bytes) (startTs newTtl : UInt64)
  | get (userKey : Bytes) (readTs : UInt64)
  | scan (startKey endKey : Bytes) (limit : UInt32) (readTs : UInt64)
  | checkTxnStatus (primaryKey : Bytes) (startTs : UInt64)
  | gc (safePointTs : UInt64)
  deriving DecidableEq

inductive Reply where
  | done
  | ttl (ttl : UInt64)
  | value (value : Option Bytes)
  | pairs (kvs : List (Bytes × Bytes))
  | status (status : TxnStatus)
  | removed (gcCount : ℕ)
  deriving DecidableEq

namespace Call

/-- The handler that serves a request. -/
def handler : Call → Handler TxnError Reply
  | .prewrite s ms p ttl => do Coordinator.prewrite s ms p ttl; return .done
  | .batchPrewrite s ms p ttl => do Coordinator.batchPrewrite s ms p ttl; return .done
  | .commit s c ks => do Coordinator.commit s c ks; return .done
  | .batchCommit s c ks => do Coordinator.batchCommit s c ks; return .done
  | .rollback s ks => do Coordinator.rollback s ks; return .done
  | .heartbeat p s ttl => do return .ttl (← Coordinator.heartbeat p s ttl)
  | .get k r => do return .value (← Coordinator.get k r)
  | .scan a b n r => do return .pairs (← Coordinator.scan a b n r)
  | .checkTxnStatus p s => do return .status (← Coordinator.checkTxnStatus p s)
  | .gc sp => do return .removed (← StorageEngine.gcKeysOlderThan sp)

/-- The start timestamp, mutations, primary key and TTL of a prewrite in either form. -/
def prewriteArgs : Call → Option (UInt64 × List Mutation × Bytes × UInt64)
  | .prewrite s ms p ttl => some (s, ms, p, ttl)
  | .batchPrewrite s ms p ttl => some (s, ms, p, ttl)
  | _ => none

/-- The timestamps and keys of a commit in either form. -/
def commitArgs : Call → Option (UInt64 × UInt64 × List Bytes)
  | .commit s c ks => some (s, c, ks)
  | .batchCommit s c ks => some (s, c, ks)
  | _ => none

lemma prewrite_only {c : Call} {a : UInt64 × List Mutation × Bytes × UInt64}
    (h : c.prewriteArgs = some a) : c.commitArgs = none ∧ ∀ s ks, c ≠ .rollback s ks := by
  cases c with
  | prewrite _ _ _ _ => exact ⟨rfl, by simp⟩
  | batchPrewrite _ _ _ _ => exact ⟨rfl, by simp⟩
  | _ => cases h

/-- The timestamp that a request reads at. -/
def readTs : Call → Option UInt64
  | .get _ r => some r
  | .scan _ _ _ r => some r
  | _ => none

/-- The user keys a request names. -/
def keys : Call → List Bytes
  | .prewrite _ ms p _ => p :: ms.map Mutation.key
  | .batchPrewrite _ ms p _ => p :: ms.map Mutation.key
  | .commit _ _ ks => ks
  | .batchCommit _ _ ks => ks
  | .rollback _ ks => ks
  | .heartbeat p _ _ => [p]
  | .get k _ => [k]
  | .scan _ _ _ _ => []
  | .checkTxnStatus p _ => [p]
  | .gc _ => []

end Call

/-- A request with its clock readings; `stop := some n` cuts it off after `n` batches. -/
structure Event where
  call : Call
  clock : ℕ → UInt64 := fun _ => 0
  stop : Option ℕ := none

abbrev Answer := Except TxnError Reply

/-- Serve one request: the reply, if one is sent, and the store afterwards. -/
def Event.exec (e : Event) (st : Store) : Option Answer × Store :=
  match e.stop with
  | none => ((some (e.call.handler.run e.clock st).1), (e.call.handler.run e.clock st).2)
  | some n => (none, e.call.handler.stopAfter n e.clock st)

structure Entry where
  event : Event
  reply : Option Answer

structure Config where
  log : List Entry
  store : Store

namespace Config

/-- An empty store and nothing requested yet. -/
def init : Config := ⟨[], Keyspace.empty⟩

def step (c : Config) (e : Event) : Config :=
  ⟨c.log ++ [⟨e, (e.exec c.store).1⟩], (e.exec c.store).2⟩

def steps (c : Config) (es : List Event) : Config := es.foldl step c

end Config

end AcidKv
