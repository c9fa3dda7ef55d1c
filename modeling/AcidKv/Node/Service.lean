import AcidKv.Client.BatchCollector
import AcidKv.Node.Server

/-!
# The services of a node

The three gRPC services over the state of a node: `KvService` and `TxnService` hand requests to the
coordinator, `KvService` splits regions and reports about them, and `RaftService` passes messages to
the Raft nodes of regions.  A method has a type of requests and one of responses; a request is
handled with a reading of the hybrid clock and the readings that the coordinator takes.

Errors of the coordinator become the status of a failed request or a field of the response, as text.
-/

namespace AcidKv

open Raft

/-! ## Error texts -/

def MvccError.toString : MvccError → String
  | .keyIsLocked primaryKey lockTs =>
      "Key is locked by active transaction: primary_key=" ++ debugBytes primaryKey ++
        s!", lock_ts={lockTs}"
  | .corruptedState => "Corrupted value state in storage"

def LockResolverError.toString : LockResolverError → String
  | .mvcc e => "MVCC error: " ++ e.toString
  | .lockActiveNotExpired => "Lock belongs to active transaction and is not expired"

def TxnError.toString : TxnError → String
  | .mvcc e => "MVCC error: " ++ e.toString
  | .lockResolver e => "Lock resolver error: " ++ e.toString
  | .writeConflict key startTs =>
      "Write conflict detected for key: " ++ debugBytes key ++ s!" at start_ts: {startTs}"
  | .keyLocked key => "Key is locked: " ++ debugBytes key
  | .txnClosed => "Transaction already committed or aborted"
  | .transactionRolledBack => "Transaction was rolled back"

/-- The codes that the services fail with. -/
inductive Code where
  | outOfRange
  | internal
  | aborted
  | unimplemented
  deriving DecidableEq, Repr

structure RpcStatus where
  code : Code
  message : String
  deriving DecidableEq, Repr

def Status.rpc : Status → RpcStatus
  | .outOfRange text => ⟨.outOfRange, text⟩
  | .internal e => ⟨.internal, e.toString⟩

/-! ## Messages -/

structure GetRequest where
  key : Bytes
  version : UInt64

structure ScanRequest where
  startKey : Bytes
  endKey : Bytes
  limit : UInt32
  version : UInt64

structure ScanResponse where
  kvs : List (Bytes × Bytes)
  error : String

structure PrewriteRequest where
  mutations : List KvMutation
  primaryLock : Bytes
  startTs : UInt64
  lockTtl : UInt64

structure CommitRequest where
  keys : List Bytes
  startTs : UInt64
  commitTs : UInt64

structure RollbackRequest where
  keys : List Bytes
  startTs : UInt64

/-- The caller's own timestamp is not looked at. -/
structure CheckTxnStatusRequest where
  primaryKey : Bytes
  lockTs : UInt64
  callerStartTs : UInt64

structure CheckTxnStatusResponse where
  lockTtl : UInt64
  commitTs : UInt64
  isRolledBack : Bool
  error : String
  deriving DecidableEq

structure TxnHeartBeatRequest where
  startTs : UInt64
  primaryLock : Bytes
  ttl : UInt64

structure TxnHeartBeatResponse where
  success : Bool
  ttl : UInt64
  error : String
  deriving DecidableEq

/-- The caller's own figures are not looked at. -/
structure RegionStatsRequest where
  regionId : UInt64
  keyCount : UInt64
  bytesWritten : UInt64

structure RegionStatsResponse where
  splitRecommended : Bool
  suggestedSplitKey : Bytes
  deriving DecidableEq

structure RaftMessage where
  regionId : UInt64
  fromPeer : UInt64
  toPeer : UInt64
  messageData : Bytes

structure RaftResponse where
  accepted : Bool
  error : String

structure SnapshotResponse where
  success : Bool
  error : String

/-- The response to a prewrite, a commit or a rollback that has succeeded.  Its error fields are
never filled in. -/
structure Done where

/-! ## Methods -/

inductive Method where
  | get
  | scan
  | executeTxn
  | batchPrewrite
  | batchCommit
  | askSplit
  | reportRegionStats
  | prewrite
  | commit
  | rollback
  | checkTxnStatus
  | heartBeat
  | sendMessage
  | streamSnapshot
  | step
  deriving DecidableEq, Repr

/-- What a method is called with; what is not looked at at all is left out. -/
def Request : Method → Type
  | .get => GetRequest
  | .scan => ScanRequest
  | .executeTxn => Unit
  | .batchPrewrite => BatchPrewriteRequest
  | .batchCommit => BatchCommitRequest
  | .askSplit => AskSplitRequest
  | .reportRegionStats => RegionStatsRequest
  | .prewrite => PrewriteRequest
  | .commit => CommitRequest
  | .rollback => RollbackRequest
  | .checkTxnStatus => CheckTxnStatusRequest
  | .heartBeat => TxnHeartBeatRequest
  | .sendMessage => RaftMessage
  | .streamSnapshot => Unit
  | .step => List RaftMessage

def Response : Method → Type
  | .get => KvGetResponse
  | .scan => ScanResponse
  | .executeTxn => Empty
  | .batchPrewrite => Done
  | .batchCommit => Done
  | .askSplit => AskSplitResponse
  | .reportRegionStats => RegionStatsResponse
  | .prewrite => Done
  | .commit => Done
  | .rollback => Done
  | .checkTxnStatus => CheckTxnStatusResponse
  | .heartBeat => TxnHeartBeatResponse
  | .sendMessage => RaftResponse
  | .streamSnapshot => SnapshotResponse
  | .step => RaftResponse

namespace NodeState

variable {api : RawNodeApi}

/-- A method that fails with the coordinator. -/
def attempt {α β : Type} (st : NodeState api) (x : Handler TxnError α) (clock : ℕ → UInt64)
    (code : Code) (respond : α → β) : Except RpcStatus β × NodeState api :=
  match st.serve x clock with
  | (.ok a, st) => (.ok (respond a), st)
  | (.error e, st) => (.error ⟨code, e.toString⟩, st)

/-- A method that reports the errors of the coordinator in its response. -/
def inform {α β : Type} (st : NodeState api) (x : Handler TxnError α) (clock : ℕ → UInt64)
    (respond : α → β) (complain : String → β) : Except RpcStatus β × NodeState api :=
  match st.serve x clock with
  | (.ok a, st) => (.ok (respond a), st)
  | (.error e, st) => (.ok (complain e.toString), st)

/-! ## KvService -/

def kvGet (st : NodeState api) (req : GetRequest) (physicalNow : UInt64) (clock : ℕ → UInt64) :
    Except RpcStatus KvGetResponse × NodeState api :=
  let (res, st) := st.get req.key req.version physicalNow clock
  (res.mapError Status.rpc, st)

def scan (st : NodeState api) (req : ScanRequest) (physicalNow : UInt64) (clock : ℕ → UInt64) :
    Except RpcStatus ScanResponse × NodeState api :=
  let (readTs, st) := st.readTs req.version physicalNow
  st.attempt (Coordinator.scan req.startKey req.endKey req.limit readTs) clock .internal (⟨·, ""⟩)

def executeTxn (st : NodeState api) : Except RpcStatus Empty × NodeState api :=
  (.error ⟨.unimplemented, "Direct multi-key transaction execution endpoint"⟩, st)

def batchPrewrite (st : NodeState api) (req : BatchPrewriteRequest) (clock : ℕ → UInt64) :
    Except RpcStatus Done × NodeState api :=
  st.attempt (Coordinator.batchPrewrite req.startTs (req.mutations.map KvMutation.mutation)
    req.primaryLock req.lockTtl) clock .aborted fun _ => ⟨⟩

def batchCommit (st : NodeState api) (req : BatchCommitRequest) (clock : ℕ → UInt64) :
    Except RpcStatus Done × NodeState api :=
  st.attempt (Coordinator.batchCommit req.startTs req.commitTs req.keys) clock .internal fun _ => ⟨⟩

/-- A region is to be split from this many keys or bytes on. -/
def splitRecommended (stats : ℕ × ℕ) : Bool := 10000 ≤ stats.1 ∨ 64 * 1024 * 1024 ≤ stats.2

def reportRegionStats (st : NodeState api) (req : RegionStatsRequest) : RegionStatsResponse :=
  match st.router.getRegion req.regionId with
  | none => ⟨false, []⟩
  | some region =>
      let stats := StorageEngine.calculateRegionStats region.startKey region.endKey st.storage
      if splitRecommended stats then
        ⟨true, (StorageEngine.findMedianKey region.startKey region.endKey st.storage).getD []⟩
      else ⟨false, []⟩

/-! ## TxnService -/

def prewrite (st : NodeState api) (req : PrewriteRequest) (clock : ℕ → UInt64) :
    Except RpcStatus Done × NodeState api :=
  st.attempt (Coordinator.prewrite req.startTs (req.mutations.map KvMutation.mutation)
    req.primaryLock req.lockTtl) clock .aborted fun _ => ⟨⟩

def commit (st : NodeState api) (req : CommitRequest) (clock : ℕ → UInt64) :
    Except RpcStatus Done × NodeState api :=
  st.attempt (Coordinator.commit req.startTs req.commitTs req.keys) clock .internal fun _ => ⟨⟩

def rollback (st : NodeState api) (req : RollbackRequest) (clock : ℕ → UInt64) :
    Except RpcStatus Done × NodeState api :=
  st.attempt (Coordinator.rollback req.startTs req.keys) clock .internal fun _ => ⟨⟩

/-- The response that reports a status. -/
def statusResponse : TxnStatus → CheckTxnStatusResponse
  | .locked ttl => ⟨ttl, 0, false, ""⟩
  | .committed commitTs => ⟨0, commitTs, false, ""⟩
  | .rolledBack => ⟨0, 0, true, ""⟩

def checkTxnStatus (st : NodeState api) (req : CheckTxnStatusRequest) (clock : ℕ → UInt64) :
    Except RpcStatus CheckTxnStatusResponse × NodeState api :=
  st.inform (Coordinator.checkTxnStatus req.primaryKey req.lockTs) clock statusResponse
    (⟨0, 0, false, ·⟩)

def heartBeat (st : NodeState api) (req : TxnHeartBeatRequest) (clock : ℕ → UInt64) :
    Except RpcStatus TxnHeartBeatResponse × NodeState api :=
  st.inform (Coordinator.heartbeat req.primaryLock req.startTs req.ttl) clock (⟨true, ·, ""⟩)
    (⟨false, 0, ·⟩)

/-! ## RaftService -/

/-- A message that can be parsed goes to the Raft node of its region, if there is one; what becomes
of it there is not reported. -/
def deliver (pb : Protobuf) (parse : Bytes → Option api.Message) (st : NodeState api)
    (msg : RaftMessage) : NodeState api :=
  match parse msg.messageData with
  | none => st
  | some m => st.raft pb msg.regionId (.step m)

/-- `sendMessage` is `step` with one message. -/
def step (pb : Protobuf) (parse : Bytes → Option api.Message) (st : NodeState api)
    (msgs : List RaftMessage) : NodeState api := msgs.foldl (deliver pb parse) st

/-! ## All methods -/

/-- Handle a request. -/
def handle (pb : Protobuf) (parse : Bytes → Option api.Message) (st : NodeState api) :
    (m : Method) → Request m → UInt64 → (ℕ → UInt64) →
      Except RpcStatus (Response m) × NodeState api
  | .get, req, physicalNow, clock => st.kvGet req physicalNow clock
  | .scan, req, physicalNow, clock => st.scan req physicalNow clock
  | .executeTxn, _, _, _ => st.executeTxn
  | .batchPrewrite, req, _, clock => st.batchPrewrite req clock
  | .batchCommit, req, _, clock => st.batchCommit req clock
  | .askSplit, req, _, _ =>
      let (res, st) := st.askSplit pb req
      (.ok res, st)
  | .reportRegionStats, req, _, _ => (.ok (st.reportRegionStats req), st)
  | .prewrite, req, _, clock => st.prewrite req clock
  | .commit, req, _, clock => st.commit req clock
  | .rollback, req, _, clock => st.rollback req clock
  | .checkTxnStatus, req, _, clock => st.checkTxnStatus req clock
  | .heartBeat, req, _, clock => st.heartBeat req clock
  | .sendMessage, msg, _, _ => (.ok ⟨true, ""⟩, st.deliver pb parse msg)
  | .streamSnapshot, _, _, _ => (.ok ⟨true, ""⟩, st)
  | .step, msgs, _, _ => (.ok ⟨true, ""⟩, st.step pb parse msgs)

end NodeState

/-- A request at a node, with the reading that the hybrid clock takes if it is asked for a
timestamp, and those that the coordinator takes. -/
structure Arrival where
  method : Method
  request : Request method
  physicalNow : UInt64
  clock : ℕ → UInt64

/-- What the sender of a request gets back. -/
abbrev Outcome (a : Arrival) : Type := Except RpcStatus (Response a.method)

/-- A node serves a request. -/
def NodeState.answer {api : RawNodeApi} (pb : Protobuf) (parse : Bytes → Option api.Message)
    (st : NodeState api) (a : Arrival) : Outcome a × NodeState api :=
  st.handle pb parse a.method a.request a.physicalNow a.clock

end AcidKv
