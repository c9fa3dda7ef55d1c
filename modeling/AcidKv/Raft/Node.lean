import AcidKv.Raft.Store

/-!
# A region's Raft node

`MultiRaftNode` drives the `RawNode` of raft-rs over the region's storage.  Of raft-rs only the
interface is known: a `RawNode` reads the storage, hands over a `Ready` with what is to be
persisted, sent and applied, and after `advance` a `LightReady` with what came up meanwhile.

`process_ready` persists entries and hard state, and returns the messages of the `Ready` and the
data of its committed entries.  It does not look at the messages that are to be sent only after
persisting, nor at the `LightReady`.
-/

namespace AcidKv.Raft

/-- What `RawNode::ready` hands over. -/
structure Ready (M : Type) where
  hs : Option HardState
  entries : List Entry
  messages : List M
  /-- Messages that are to be sent once entries and hard state are persisted. -/
  persistedMessages : List M
  committedEntries : List Entry

/-- What `RawNode::advance` hands over. -/
structure LightReady (M : Type) where
  commitIndex : Option UInt64
  committedEntries : List Entry
  messages : List M

/-- The interface of a `RawNode`; the storage is shared with it, and read by every operation. -/
structure RawNodeApi where
  Message : Type
  Node : Type
  Error : Type
  new : UInt64 → RaftStorage → Except Error Node
  tick : Node → RaftStorage → Node
  step : Node → RaftStorage → Message → Except Error Unit × Node
  propose : Node → RaftStorage → Bytes → Except Error Unit × Node
  hasReady : Node → RaftStorage → Bool
  ready : Node → RaftStorage → Ready Message × Node
  advance : Node → RaftStorage → Ready Message → LightReady Message × Node

inductive NodeError (api : RawNodeApi) where
  | raft (e : api.Error)
  | raftStorage (e : StorageError)

/-- What a `RawNode` has handed over in one call; no `LightReady` if it came to no `advance`. -/
structure Handed (api : RawNodeApi) where
  ready : Ready api.Message
  light : Option (LightReady api.Message)

structure MultiRaftNode (api : RawNodeApi) where
  regionId : UInt64
  rawNode : api.Node
  storage : RaftStorage

namespace MultiRaftNode

variable {api : RawNodeApi}

/-- `peers` is not looked at, and of the configuration the node id is all that varies. -/
def new (api : RawNodeApi) (pb : Protobuf) (regionId nodeId : UInt64) (engine : Store) :
    Except (NodeError api) (MultiRaftNode api) :=
  let storage := RaftStorage.new pb engine regionId
  match api.new nodeId storage with
  | .error e => .error (.raft e)
  | .ok rawNode => .ok ⟨regionId, rawNode, storage⟩

lemma storage_of_new {pb : Protobuf} {regionId nodeId : UInt64} {engine : Store}
    {node : MultiRaftNode api} (h : new api pb regionId nodeId engine = .ok node) :
    node.storage = RaftStorage.new pb engine regionId := by
  cases hraw : api.new nodeId (RaftStorage.new pb engine regionId) with
  | error e => simp [new, hraw] at h
  | ok rawNode =>
      simp only [new, hraw, Except.ok.injEq] at h
      rw [← h]

def tick (node : MultiRaftNode api) : MultiRaftNode api :=
  { node with rawNode := api.tick node.rawNode node.storage }

def step (node : MultiRaftNode api) (msg : api.Message) :
    Except (NodeError api) Unit × MultiRaftNode api :=
  let (res, rawNode) := api.step node.rawNode node.storage msg
  (res.mapError .raft, { node with rawNode := rawNode })

def propose (node : MultiRaftNode api) (data : Bytes) :
    Except (NodeError api) Unit × MultiRaftNode api :=
  let (res, rawNode) := api.propose node.rawNode node.storage data
  (res.mapError .raft, { node with rawNode := rawNode })

/-- The data of the entries that have any. -/
def payloads (entries : List Entry) : List Bytes :=
  (entries.map Entry.data).filter (· ≠ [])

/-- Persist the entries of a `Ready`. -/
def persistEntries (pb : Protobuf) (storage : RaftStorage) (entries : List Entry) (engine : Store) :
    Except StorageError Unit × RaftStorage × Store :=
  if entries = [] then (.ok (), storage, engine) else storage.append pb entries engine

/-- Persist the hard state of a `Ready`, if it has one. -/
def persistHardState (pb : Protobuf) (storage : RaftStorage) (hs : Option HardState)
    (engine : Store) : RaftStorage × Store :=
  match hs with
  | some hs => storage.setHardState pb hs engine
  | none => (storage, engine)

/-- `process_ready`, with what the `RawNode` hands over on the way. -/
def readyCycle (pb : Protobuf) (node : MultiRaftNode api) (engine : Store) :
    Option (Handed api) × Except (NodeError api) (List api.Message × List Bytes) ×
      MultiRaftNode api × Store :=
  if api.hasReady node.rawNode node.storage then
    let (ready, rawNode) := api.ready node.rawNode node.storage
    match persistEntries pb node.storage ready.entries engine with
    | (.error e, storage, engine) =>
        (some ⟨ready, none⟩, .error (.raftStorage e), { node with rawNode, storage }, engine)
    | (.ok (), storage, engine) =>
        let (storage, engine) := persistHardState pb storage ready.hs engine
        let messages := ready.messages
        let committedPayloads := payloads ready.committedEntries
        -- the messages have been taken out of the `Ready`; the `LightReady` is not used
        let (light, rawNode) := api.advance rawNode storage { ready with messages := [] }
        (some ⟨ready, some light⟩, .ok (messages, committedPayloads),
          { node with rawNode, storage }, engine)
  else (none, .ok ([], []), node, engine)

def processReady (pb : Protobuf) (node : MultiRaftNode api) (engine : Store) :
    Except (NodeError api) (List api.Message × List Bytes) × MultiRaftNode api × Store :=
  (readyCycle pb node engine).2

/-- What a call comes to: nothing is ready, the entries cannot be appended, or everything is
persisted and returned. -/
inductive Cycle (pb : Protobuf) (node : MultiRaftNode api) (engine : Store) :
    Option (Handed api) × Except (NodeError api) (List api.Message × List Bytes) ×
      MultiRaftNode api × Store → Prop
  | idle (hready : ¬ api.hasReady node.rawNode node.storage) :
      Cycle pb node engine (none, .ok ([], []), node, engine)
  | failed {ready : Ready api.Message} {rawNode : api.Node} {e : StorageError}
      {storage : RaftStorage} {engine' : Store}
      (hready : api.ready node.rawNode node.storage = (ready, rawNode))
      (hentries : persistEntries pb node.storage ready.entries engine =
        (.error e, storage, engine')) :
      Cycle pb node engine
        (some ⟨ready, none⟩, .error (.raftStorage e), { node with rawNode, storage }, engine')
  | done {ready : Ready api.Message} {rawNode rawNode' : api.Node} {light : LightReady api.Message}
      {storage storage' : RaftStorage} {engine' engine'' : Store}
      (hready : api.ready node.rawNode node.storage = (ready, rawNode))
      (hentries : persistEntries pb node.storage ready.entries engine = (.ok (), storage, engine'))
      (hhard : persistHardState pb storage ready.hs engine' = (storage', engine''))
      (hadvance : api.advance rawNode storage' { ready with messages := [] } = (light, rawNode')) :
      Cycle pb node engine
        (some ⟨ready, some light⟩, .ok (ready.messages, payloads ready.committedEntries),
          { node with rawNode := rawNode', storage := storage' }, engine'')

lemma readyCycle_cycle (pb : Protobuf) (node : MultiRaftNode api) (engine : Store) :
    Cycle pb node engine (readyCycle pb node engine) := by
  by_cases hready : api.hasReady node.rawNode node.storage
  · rcases hentries : persistEntries pb node.storage
        (api.ready node.rawNode node.storage).1.entries engine with ⟨e | ⟨⟩, storage, engine'⟩
    all_goals simp only [readyCycle, hready, if_true, hentries]
    · exact .failed rfl hentries
    · exact .done rfl hentries rfl rfl
  · simp only [readyCycle, hready]
    exact .idle hready

end MultiRaftNode

/-- The operations on a region's node. -/
inductive Op (api : RawNodeApi) where
  | tick
  | step (msg : api.Message)
  | propose (data : Bytes)
  | processReady

/-- The node and the store after an operation. -/
def MultiRaftNode.perform {api : RawNodeApi} (pb : Protobuf) (node : MultiRaftNode api)
    (engine : Store) : Op api → MultiRaftNode api × Store
  | .tick => (node.tick, engine)
  | .step msg => ((node.step msg).2, engine)
  | .propose data => ((node.propose data).2, engine)
  | .processReady => (node.processReady pb engine).2

/-! ## A peer -/

inductive PeerMessage where
  /-- Entries that follow on the log of the receiver, with the commit index of the sender. -/
  | append (term : UInt64) (entries : List Entry) (commit : UInt64)
  | appendResponse (index : UInt64)
  | propose (data : Bytes)
  deriving DecidableEq, Repr

inductive PeerError where
  | proposalDropped
  | stepPeerNotFound
  deriving DecidableEq, Repr

inductive Role where
  | follower (knowsLeader : Bool)
  /-- A leader without other voters commits what it has persisted. -/
  | leader (alone : Bool)
  deriving DecidableEq, Repr

/-- The part of a peer's state that decides what it hands over in which call. -/
structure Peer where
  role : Role
  hardState : HardState
  /-- The hard state that was handed over last. -/
  handedOver : HardState
  unstable : List Entry
  /-- Entries that are persisted and not committed. -/
  persisted : List Entry
  /-- Entries that are committed and not handed over as such. -/
  committed : List Entry
  messages : List PeerMessage
  deriving DecidableEq, Repr

namespace Peer

def lastIndex (n : Peer) (storage : RaftStorage) : UInt64 :=
  storage.lastIndex + UInt64.ofNat n.unstable.length

def commitTo (n : Peer) (index : UInt64) : Peer :=
  if index ≤ n.hardState.commit then n
  else
    { n with
      hardState := { n.hardState with commit := index }
      persisted := n.persisted.filter (index < ·.index)
      committed := n.committed ++ n.persisted.filter (·.index ≤ index) }

def handleAppend (n : Peer) (storage : RaftStorage) (term : UInt64) (entries : List Entry)
    (commit : UInt64) : Peer :=
  if term < n.hardState.term then n
  else
    let vote := if n.hardState.term < term then 0 else n.hardState.vote
    let n := { n with
      role := .follower true
      hardState := { n.hardState with term, vote }
      unstable := n.unstable ++ entries }
    let last := n.lastIndex storage
    { n.commitTo (min commit last) with messages := n.messages ++ [.appendResponse last] }

/-- A leader appends the data to its log, a follower passes it on if it knows a leader. -/
def handlePropose (n : Peer) (storage : RaftStorage) (data : Bytes) :
    Except PeerError Unit × Peer :=
  match n.role with
  | .leader alone =>
      let term := n.hardState.term
      let entry := { Entry.default with term, index := n.lastIndex storage + 1, data }
      let sent := if alone then [] else [.append term [entry] n.hardState.commit]
      (.ok (), { n with unstable := n.unstable ++ [entry], messages := n.messages ++ sent })
  | .follower true => (.ok (), { n with messages := n.messages ++ [.propose data] })
  | .follower false => (.error .proposalDropped, n)

/-- An acknowledgement is for a leader, and one from no peer of the region is refused. -/
def handleAppendResponse (n : Peer) (storage : RaftStorage) (index : UInt64) :
    Except PeerError Unit × Peer :=
  if storage.core.confState.voters = [] then (.error .stepPeerNotFound, n)
  else
    match n.role with
    | .leader _ => (.ok (), n.commitTo (min index storage.lastIndex))
    | .follower _ => (.ok (), n)

def ready (n : Peer) : Ready PeerMessage × Peer :=
  let hs := if n.hardState = n.handedOver then none else some n.hardState
  -- a leader's messages need not wait until its entries are persisted
  let (messages, persistedMessages) := match n.role with
    | .leader _ => (n.messages, [])
    | .follower _ => ([], n.messages)
  (⟨hs, n.unstable, messages, persistedMessages, n.committed⟩,
    { n with unstable := [], committed := [], messages := [] })

def advance (n : Peer) (storage : RaftStorage) (ready : Ready PeerMessage) :
    LightReady PeerMessage × Peer :=
  let n := { n with
    handedOver := ready.hs.getD n.handedOver
    persisted := n.persisted ++ ready.entries }
  let n := if n.role = .leader true then n.commitTo storage.lastIndex else n
  let commit := n.hardState.commit
  (⟨if commit = n.handedOver.commit then none else some commit,
      n.committed ++ n.persisted.filter (·.index ≤ commit), []⟩,
    { n with
      handedOver := { n.handedOver with commit }
      persisted := n.persisted.filter (commit < ·.index)
      committed := [] })

end Peer

/-- A peer that follows, or leads a region with at most one other voter; elections and conflicting
entries are left out.  It starts as a follower, and without voters it takes no proposal. -/
def peerApi : RawNodeApi where
  Message := PeerMessage
  Node := Peer
  Error := PeerError
  new _ storage :=
    let hs := storage.core.hardState
    let log := storage.core.entries.tail
    .ok ⟨.follower false, hs, hs, [], log.filter (hs.commit < ·.index),
      log.filter (·.index ≤ hs.commit), []⟩
  tick n _ := n
  step n storage
    | .append term entries commit => (.ok (), n.handleAppend storage term entries commit)
    | .appendResponse index => n.handleAppendResponse storage index
    | .propose data => n.handlePropose storage data
  propose n storage data := n.handlePropose storage data
  hasReady n _ := !(n.unstable.isEmpty && n.committed.isEmpty && n.messages.isEmpty &&
    n.hardState = n.handedOver)
  ready n _ := n.ready
  advance n storage ready := n.advance storage ready

instance : DecidableEq peerApi.Message := inferInstanceAs (DecidableEq PeerMessage)

end AcidKv.Raft
