import AcidKv.Node.Service

/-!
# The client

A method of the client makes one request and takes the result out of the response.  Statuses are
handed on; errors that a response carries in a field are not looked at.
-/

namespace AcidKv

/-- The methods of `KvClient` with their arguments. -/
inductive ClientCall where
  | get (key : Bytes)
  | scan (startKey endKey : Bytes) (limit : UInt32)
  | txnGet (key : Bytes) (startTs : UInt64)
  | txnPrewrite (startTs : UInt64) (mutations : List (Bytes × Option Bytes)) (primaryKey : Bytes)
      (lockTtl : UInt64)
  | txnCommit (startTs commitTs : UInt64) (keys : List Bytes)
  | batchPrewrite (startTs : UInt64) (mutations : List (Bytes × Option Bytes)) (primaryKey : Bytes)
      (lockTtl : UInt64)
  | batchCommit (startTs commitTs : UInt64) (keys : List Bytes)
  | askSplit (regionId : UInt64) (splitKey : Bytes)
  | txnRollback (startTs : UInt64) (keys : List Bytes)
  | txnHeartbeat (startTs : UInt64) (primaryKey : Bytes) (ttl : UInt64)

/-- What the methods of the client return. -/
inductive ClientResult where
  | value (value : Option Bytes)
  | pairs (kvs : List (Bytes × Bytes))
  | done
  | split (res : AskSplitResponse)
  | alive (success : Bool)
  deriving DecidableEq

namespace ClientCall

def method : ClientCall → Method
  | .get _ => .get
  | .scan _ _ _ => .scan
  | .txnGet _ _ => .get
  | .txnPrewrite _ _ _ _ => .prewrite
  | .txnCommit _ _ _ => .commit
  | .batchPrewrite _ _ _ _ => .batchPrewrite
  | .batchCommit _ _ _ => .batchCommit
  | .askSplit _ _ => .askSplit
  | .txnRollback _ _ => .rollback
  | .txnHeartbeat _ _ _ => .heartBeat

/-- The request that is sent; a read without a timestamp has version 0. -/
def request : (c : ClientCall) → Request c.method
  | .get key => GetRequest.mk key 0
  | .scan startKey endKey limit => ScanRequest.mk startKey endKey limit 0
  | .txnGet key startTs => GetRequest.mk key startTs
  | .txnPrewrite startTs mutations primaryKey lockTtl =>
      PrewriteRequest.mk (mutations.map KvClient.protoMutation) primaryKey startTs lockTtl
  | .txnCommit startTs commitTs keys => CommitRequest.mk keys startTs commitTs
  | .batchPrewrite startTs mutations primaryKey lockTtl =>
      KvClient.batchPrewrite startTs mutations primaryKey lockTtl
  | .batchCommit startTs commitTs keys => KvClient.batchCommit startTs commitTs keys
  | .askSplit regionId splitKey => AskSplitRequest.mk regionId splitKey
  | .txnRollback startTs keys => RollbackRequest.mk keys startTs
  | .txnHeartbeat startTs primaryKey ttl => TxnHeartBeatRequest.mk startTs primaryKey ttl

/-- The result in a response of `get`. -/
def found (res : KvGetResponse) : ClientResult :=
  .value (if res.found then some res.value else none)

/-- What a method makes of the response. -/
def decode : (c : ClientCall) → Response c.method → ClientResult
  | .get _, res => found res
  | .scan _ _ _, res => .pairs (ScanResponse.kvs res)
  | .txnGet _ _, res => found res
  | .txnPrewrite _ _ _ _, _ => .done
  | .txnCommit _ _ _, _ => .done
  | .batchPrewrite _ _ _ _, _ => .done
  | .batchCommit _ _ _, _ => .done
  | .askSplit _ _, res => .split res
  | .txnRollback _ _, _ => .done
  | .txnHeartbeat _ _ _, res => .alive (TxnHeartBeatResponse.success res)

/-- The request of a call, as it comes in at a node. -/
def arrival (c : ClientCall) (physicalNow : UInt64) (clock : ℕ → UInt64) : Arrival :=
  ⟨c.method, c.request, physicalNow, clock⟩

end ClientCall

end AcidKv
