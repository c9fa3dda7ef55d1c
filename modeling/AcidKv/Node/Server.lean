import AcidKv.Raft.Node
import AcidKv.Raft.Router
import AcidKv.Txn.Coordinator
import AcidKv.Txn.Hlc

/-!
# A node's state

What a node keeps in memory next to its store: the clock, the router, the Raft nodes of its regions
and the counter that region ids are taken from.  A start builds all of it anew over the data
directory, with region 1 for all keys and the counter at 2.
-/

namespace AcidKv

open Raft

structure NodeState (api : RawNodeApi) where
  nodeId : UInt64
  storage : Store
  hlc : HlcInner
  router : RegionRouter
  raftNodes : Std.ExtTreeMap UInt64 (MultiRaftNode api) compare
  nextRegionId : UInt64

structure KvGetResponse where
  found : Bool
  value : Bytes
  error : String
  deriving DecidableEq, Repr

/-- The status that a request fails with; an internal one carries the error whose text it has. -/
inductive Status where
  | outOfRange (text : String)
  | internal (e : TxnError)
  deriving DecidableEq, Repr

structure AskSplitRequest where
  regionId : UInt64
  splitKey : Bytes
  deriving DecidableEq, Repr

structure AskSplitResponse where
  newRegionId : UInt64
  leftStartKey : Bytes
  leftEndKey : Bytes
  rightStartKey : Bytes
  rightEndKey : Bytes
  error : String
  deriving DecidableEq, Repr

/-- The bytes of a key, as `{:?}` prints them. -/
def debugBytes (key : Bytes) : String := "[" ++ ", ".intercalate (key.map toString) ++ "]"

def RouterError.toString : RouterError → String
  | .regionNotFound key => "No region found covering key: " ++ debugBytes key
  | .regionIdNotFound regionId => s!"Region {regionId} not found"
  | .regionEpochNotMatch regionId => s!"Region epoch mismatch for region {regionId}"

namespace NodeState

variable {api : RawNodeApi}

/-- A start over a data directory; an error of the Raft node aborts the process. -/
def new (api : RawNodeApi) (pb : Protobuf) (nodeId nowMs : UInt64) (storage : Store) :
    Except (NodeError api) (NodeState api) :=
  match MultiRaftNode.new api pb 1 nodeId storage with
  | .error e => .error e
  | .ok raftNode => .ok
      { nodeId
        storage
        hlc := HybridLogicalClock.new nowMs
        router := RegionRouter.new.insertRegion (Region.new 1 [] [] [nodeId])
        raftNodes := (∅ : Std.ExtTreeMap _ _ compare).insert 1 raftNode
        nextRegionId := 2 }

/-- What of the state a start takes from its arguments. -/
lemma fields_of_new {pb : Protobuf} {nodeId nowMs : UInt64} {storage : Store} {st : NodeState api}
    (h : new api pb nodeId nowMs storage = .ok st) :
    st.storage = storage ∧ st.hlc = HybridLogicalClock.new nowMs ∧
      st.router = RegionRouter.new.insertRegion (Region.new 1 [] [] [nodeId]) ∧
      st.nextRegionId = 2 := by
  unfold new at h
  split at h
  · cases h
  · cases h
    exact ⟨rfl, rfl, rfl, rfl⟩

def allocRegionId (st : NodeState api) : UInt64 × NodeState api :=
  (st.nextRegionId, { st with nextRegionId := st.nextRegionId + 1 })

/-- Allocate an id and split a region with it. -/
def splitNext (st : NodeState api) (regionId : UInt64) (splitKey : Bytes) :
    UInt64 × Except RouterError (Region × Region) × NodeState api :=
  let (newRegionId, st) := st.allocRegionId
  let (res, router) := st.router.splitRegion regionId splitKey newRegionId
  (newRegionId, res, { st with router })

/-- The Raft node of a new region, if it can be created. -/
def addRaftNode (pb : Protobuf) (st : NodeState api) (regionId : UInt64) : NodeState api :=
  match MultiRaftNode.new api pb regionId st.nodeId st.storage with
  | .ok node => { st with raftNodes := st.raftNodes.insert regionId node }
  | .error _ => st

/-- Where a region is to be split: at the key of the request, or else at the median of its keys. -/
def splitKeyFor (st : NodeState api) (req : AskSplitRequest) (region : Region) : Option Bytes :=
  if req.splitKey ≠ [] then some req.splitKey
  else StorageEngine.findMedianKey region.startKey region.endKey st.storage

/-- `ask_split`: the id of the new region with the two halves, or the text of the error. -/
def split (pb : Protobuf) (st : NodeState api) (req : AskSplitRequest) :
    Except String (UInt64 × Region × Region) × NodeState api :=
  let regionId := req.regionId
  match st.router.getRegion regionId with
  | none => (.error s!"Region {regionId} not found", st)
  | some region =>
      match st.splitKeyFor req region with
      | none => (.error "Could not find split key", st)
      | some splitKey =>
          match st.splitNext regionId splitKey with
          | (newRegionId, .ok (left, right), st) =>
              (.ok (newRegionId, left, right), st.addRaftNode pb newRegionId)
          | (_, .error e, st) => (.error e.toString, st)

/-- The reply to `ask_split`. -/
def askSplit (pb : Protobuf) (st : NodeState api) (req : AskSplitRequest) :
    AskSplitResponse × NodeState api :=
  match st.split pb req with
  | (.ok (newRegionId, left, right), st) =>
      (⟨newRegionId, left.startKey, left.endKey, right.startKey, right.endKey, ""⟩, st)
  | (.error text, st) => (⟨0, [], [], [], [], text⟩, st)

/-- An operation on the Raft node of a region, if the region has one here. -/
def raft (pb : Protobuf) (st : NodeState api) (regionId : UInt64) (op : Op api) : NodeState api :=
  match st.raftNodes[regionId]? with
  | none => st
  | some node =>
      let (node, storage) := node.perform pb st.storage op
      { st with storage, raftNodes := st.raftNodes.insert regionId node }

lemma raft_of_some (pb : Protobuf) {st : NodeState api} {r : UInt64} {node : MultiRaftNode api}
    (h : st.raftNodes[r]? = some node) (op : Op api) :
    st.raft pb r op =
      { st with
        storage := (node.perform pb st.storage op).2
        raftNodes := st.raftNodes.insert r (node.perform pb st.storage op).1 } := by
  simp only [raft, h]

lemma raft_of_none (pb : Protobuf) {st : NodeState api} {r : UInt64} (h : st.raftNodes[r]? = none)
    (op : Op api) : st.raft pb r op = st := by
  simp only [raft, h]

/-! ## Transactions -/

/-- Run a handler of the coordinator on the node's store. -/
def serve {α : Type} (st : NodeState api) (x : Handler TxnError α) (clock : ℕ → UInt64) :
    Except TxnError α × NodeState api :=
  let (res, storage) := x.run clock st.storage
  (res, { st with storage })

/-- The timestamp that a request reads at: the version it names, or else one from the clock. -/
def readTs (st : NodeState api) (version physicalNow : UInt64) : UInt64 × NodeState api :=
  if version = 0 then
    let (ts, hlc) := HybridLogicalClock.now physicalNow st.hlc
    (ts, { st with hlc })
  else (version, st)

/-- The part of `get` after the routing. -/
def getRouted (st : NodeState api) (key : Bytes) (version physicalNow : UInt64)
    (clock : ℕ → UInt64) : Except Status KvGetResponse × NodeState api :=
  let (readTs, st) := st.readTs version physicalNow
  match st.serve (Coordinator.get key readTs) clock with
  | (.ok value, st) => (.ok ⟨value.isSome, value.getD [], ""⟩, st)
  | (.error e, st) => (.error (.internal e), st)

/-- `get`; `physicalNow` is what the hybrid clock reads, `clock` what the coordinator does. -/
def get (st : NodeState api) (key : Bytes) (version physicalNow : UInt64) (clock : ℕ → UInt64) :
    Except Status KvGetResponse × NodeState api :=
  match st.router.routeKey key with
  | .ok region =>
      if ¬ region.containsKey key then (.error (.outOfRange "ErrKeyNotInRegion"), st)
      else st.getRouted key version physicalNow clock
  | .error _ => st.getRouted key version physicalNow clock

/-- A key is only ever routed to a region that contains it. -/
lemma get_eq_getRouted (st : NodeState api) (key : Bytes) (version physicalNow : UInt64)
    (clock : ℕ → UInt64) :
    st.get key version physicalNow clock = st.getRouted key version physicalNow clock := by
  unfold get RegionRouter.routeKey
  cases hfind : st.router.byKeyValues.reverse.find? (·.containsKey key) with
  | none => rfl
  | some region => simp [List.find?_some hfind]

lemma storage_readTs (st : NodeState api) (version physicalNow : UInt64) :
    (st.readTs version physicalNow).2.storage = st.storage := by
  unfold readTs
  split_ifs <;> rfl

/-- A `get` in terms of what the coordinator does. -/
lemma get_of_run {st : NodeState api} {key : Bytes} {version physicalNow : UInt64}
    {clock : ℕ → UInt64} {res : Except TxnError (Option Bytes)} {storage : Store}
    (h : (Coordinator.get key (st.readTs version physicalNow).1).run clock st.storage =
      (res, storage)) : st.get key version physicalNow clock =
        (match res with
          | .ok value => .ok ⟨value.isSome, value.getD [], ""⟩
          | .error e => .error (.internal e),
        { (st.readTs version physicalNow).2 with storage }) := by
  rw [get_eq_getRouted]
  simp only [getRouted, serve, storage_readTs, h]
  cases res with
  | ok value => rfl
  | error e => rfl

end NodeState

/-- A node with the id 1, just started over an empty data directory. -/
def started : NodeState peerApi where
  nodeId := 1
  storage := Keyspace.empty
  hlc := HybridLogicalClock.new 0
  router := RegionRouter.new.insertRegion (Region.new 1 [] [] [1])
  raftNodes := (∅ : Std.ExtTreeMap _ _ compare).insert 1
    ⟨1, ⟨.follower false, HardState.default, HardState.default, [], [], [], []⟩,
      RaftStorage.new Protobuf.plain Keyspace.empty 1⟩
  nextRegionId := 2

lemma new_started : NodeState.new peerApi Protobuf.plain 1 0 Keyspace.empty = .ok started := by
  rfl

end AcidKv
