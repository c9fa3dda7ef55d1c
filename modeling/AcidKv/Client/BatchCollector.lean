import AcidKv.Node.Calls

/-!
# The client's batch collector

`BatchCollector::new` starts two background tasks, one for prewrites and one for commits.  Each
reads items from a channel into a buffer until the buffer is full or a timer fires, and then makes
the calls of the buffered items one after the other, sending each result to whoever has submitted
the item.

The two differ in their items and in the request that is sent for one, so there is one task here
with these as parameters (`Work`).  A task takes a step when something happens around it: an item
is put into the channel, the last sender is dropped, one of the two branches of the `select!` is
taken, or a call returns.  Which branch is taken if both are ready is left open, as are the times.

Next to its state a task keeps what it has taken in and what it has done: the items that the channel
has accepted, the requests, what the calls have returned, and what has been sent where.
-/

namespace AcidKv

/-- What `batch_prewrite` and `batch_commit` can fail with, and what a submitter is told if the task
has dropped its item. -/
inductive ClientError where
  | status (message : String)
  | channelClosed
  deriving DecidableEq, Repr

/-- `oneshot::Sender`, by the number of its channel. -/
abbrev Sender := ℕ

structure PrewriteItem where
  startTs : UInt64
  mutations : List (Bytes × Option Bytes)
  primaryKey : Bytes
  lockTtl : UInt64
  tx : Sender
  deriving DecidableEq, Repr

structure CommitItem where
  startTs : UInt64
  commitTs : UInt64
  keys : List Bytes
  tx : Sender
  deriving DecidableEq, Repr

structure KvMutation where
  op : ℕ
  key : Bytes
  value : Bytes
  deriving DecidableEq, Repr

structure BatchPrewriteRequest where
  startTs : UInt64
  primaryLock : Bytes
  lockTtl : UInt64
  mutations : List KvMutation
  deriving DecidableEq, Repr

structure BatchCommitRequest where
  startTs : UInt64
  commitTs : UInt64
  keys : List Bytes
  deriving DecidableEq, Repr

namespace KvClient

def protoMutation : Bytes × Option Bytes → KvMutation
  | (key, some val) => ⟨0, key, val⟩
  | (key, none) => ⟨1, key, []⟩

/-- The request that `batch_prewrite` sends. -/
def batchPrewrite (startTs : UInt64) (mutations : List (Bytes × Option Bytes)) (primaryKey : Bytes)
    (lockTtl : UInt64) : BatchPrewriteRequest :=
  ⟨startTs, primaryKey, lockTtl, mutations.map protoMutation⟩

/-- The request that `batch_commit` sends. -/
def batchCommit (startTs commitTs : UInt64) (keys : List Bytes) : BatchCommitRequest :=
  ⟨startTs, commitTs, keys⟩

end KvClient

/-! ## What the server makes of a request -/

/-- The mutation that a submitter means. -/
def Mutation.submitted : Bytes × Option Bytes → Mutation
  | (key, some value) => .put key value
  | (key, none) => .delete key

def KvMutation.mutation (m : KvMutation) : Mutation :=
  if m.op = 1 then .delete m.key else .put m.key m.value

/-- The call of the coordinator in the service's `batch_prewrite`. -/
def BatchPrewriteRequest.call (req : BatchPrewriteRequest) : Call :=
  .batchPrewrite req.startTs (req.mutations.map KvMutation.mutation) req.primaryLock req.lockTtl

/-- The call of the coordinator in the service's `batch_commit`. -/
def BatchCommitRequest.call (req : BatchCommitRequest) : Call :=
  .batchCommit req.startTs req.commitTs req.keys

/-- Mutations arrive as they were submitted. -/
lemma KvClient.call_batchPrewrite (startTs : UInt64) (mutations : List (Bytes × Option Bytes))
    (primaryKey : Bytes) (lockTtl : UInt64) :
    (batchPrewrite startTs mutations primaryKey lockTtl).call =
      .batchPrewrite startTs (mutations.map Mutation.submitted) primaryKey lockTtl := by
  have hmutation : ∀ x, (protoMutation x).mutation = Mutation.submitted x := by
    rintro ⟨key, _ | value⟩
    · rfl
    · rfl
  simp only [BatchPrewriteRequest.call, batchPrewrite, List.map_map, Function.comp_def, hmutation]

namespace BatchCollector

/-- What a task does for an item: the request it sends, and the sender it gives the result to. -/
structure Work (ι κ : Type) where
  request : ι → κ
  tx : ι → Sender

def prewriteWork : Work PrewriteItem BatchPrewriteRequest where
  request item :=
    KvClient.batchPrewrite item.startTs item.mutations item.primaryKey item.lockTtl
  tx := PrewriteItem.tx

def commitWork : Work CommitItem BatchCommitRequest where
  request item := KvClient.batchCommit item.startTs item.commitTs item.keys
  tx := CommitItem.tx

/-- Where a task is: in the inner loop with the items of the buffer, in the `for` loop in the call
of an item, or at its end, with the items that it has dropped by returning. -/
inductive Stage (ι : Type) where
  | collecting (items : List ι)
  | calling (item : ι) (rest : List ι)
  | ended (dropped : List ι)
  deriving DecidableEq

abbrev CallResult := Except ClientError Unit

structure BatchTask (ι κ : Type) where
  queue : List ι
  closed : Bool
  stage : Stage ι
  accepted : List ι
  calls : List κ
  returned : List (κ × CallResult)
  sent : List (Sender × CallResult)

inductive TaskEvent (ι : Type) where
  | send (item : ι)
  | dropSenders
  | recv
  | timeout
  | callReturns (res : CallResult)

/-- The capacity of the channels. -/
def capacity : ℕ := 1024

variable {ι κ : Type}

namespace BatchTask

def start : BatchTask ι κ := ⟨[], false, .collecting [], [], [], [], []⟩

/-- The rest of the `for` loop, and after it the next round of the outer loop. -/
def flush (w : Work ι κ) (t : BatchTask ι κ) : List ι → BatchTask ι κ
  | [] => { t with stage := .collecting [] }
  | item :: rest => { t with stage := .calling item rest, calls := t.calls ++ [w.request item] }

/-- A full channel makes the sender wait, and without senders nothing is sent.  A `oneshot::Sender`
cannot be copied, so it is in one item only. -/
def send (w : Work ι κ) (t : BatchTask ι κ) (item : ι) : BatchTask ι κ :=
  if t.closed ∨ capacity ≤ t.queue.length ∨ w.tx item ∈ t.accepted.map w.tx then t
  else { t with queue := t.queue ++ [item], accepted := t.accepted ++ [item] }

/-- The branch of `recv`: it yields the next item, and none once the channel is closed and empty. -/
def recv (w : Work ι κ) (batchSize : ℕ) (t : BatchTask ι κ) (items : List ι) : BatchTask ι κ :=
  match t.queue with
  | item :: queue =>
      let t := { t with queue := queue }
      if batchSize ≤ (items ++ [item]).length then t.flush w (items ++ [item])
      else { t with stage := .collecting (items ++ [item]) }
  | [] => if t.closed then { t with stage := .ended items } else t

/-- The call of `item` has returned. -/
def callReturns (w : Work ι κ) (t : BatchTask ι κ) (item : ι) (rest : List ι) (res : CallResult) :
    BatchTask ι κ :=
  flush w
    { t with
      returned := t.returned ++ [(w.request item, res)]
      sent := t.sent ++ [(w.tx item, res)] } rest

/-- An event that the task does not wait for changes nothing. -/
def step (w : Work ι κ) (batchSize : ℕ) (t : BatchTask ι κ) : TaskEvent ι → BatchTask ι κ
  | .send item => t.send w item
  | .dropSenders => { t with closed := true }
  | .recv =>
      match t.stage with
      | .collecting items => t.recv w batchSize items
      | _ => t
  | .timeout =>
      match t.stage with
      | .collecting items => t.flush w items
      | _ => t
  | .callReturns res =>
      match t.stage with
      | .calling item rest => t.callReturns w item rest res
      | _ => t

/-- What `submit_prewrite` and `submit_commit` get from `rx.await`: the result that was sent, or an
error if the sender was dropped. -/
def reply (w : Work ι κ) (t : BatchTask ι κ) (tx : Sender) : Option CallResult :=
  match t.sent.lookup tx, t.stage with
  | some res, _ => some res
  | none, .ended dropped =>
      if tx ∈ dropped.map w.tx then some (.error .channelClosed) else none
  | none, _ => none

/-- A task from its start on. -/
def run (w : Work ι κ) (batchSize : ℕ) (events : List (TaskEvent ι)) : BatchTask ι κ :=
  events.foldl (step w batchSize) start

end BatchTask

end BatchCollector

end AcidKv
