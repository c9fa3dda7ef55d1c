import AcidKv.Lib.Projection
import AcidKv.Properties.RegionIds
import AcidKv.Properties.RegionLogs

/-!
# The Raft nodes of several regions

A node keeps a Raft node for each of its regions, all over one engine.  They are opened, ticked,
given messages and proposals, and persist what is ready, in any order.  A region's Raft node reads
and writes what is under the keys of its region and nothing else, so each region goes through what
it would go through if the node had no other (`region_runs_alone`).
-/

namespace AcidKv

open Raft NodeState

variable {api : RawNodeApi}

/-- What an operation on a Raft node returns. -/
def OpResult (api : RawNodeApi) : Op api → Type
  | .tick => Unit
  | .step _ => Except (NodeError api) Unit
  | .propose _ => Except (NodeError api) Unit
  | .processReady => Except (NodeError api) (List api.Message × List Bytes)

def Raft.MultiRaftNode.result (pb : Protobuf) (node : MultiRaftNode api) (engine : Store) :
    (op : Op api) → OpResult api op
  | .tick => ()
  | .step msg => (node.step msg).1
  | .propose data => (node.propose data).1
  | .processReady => (node.processReady pb engine).1

/-- The Raft node of a region is opened, or an operation is called on it. -/
inductive RegionOp (api : RawNodeApi) where
  | open (regionId : UInt64)
  | call (regionId : UInt64) (op : Op api)

namespace RegionOp

def regionId : RegionOp api → UInt64
  | .open r => r
  | .call r _ => r

/-- What comes back; nothing if there is no Raft node for the region. -/
def Result : RegionOp api → Type
  | .open _ => Unit
  | .call _ op => Option (OpResult api op)

end RegionOp

def NodeState.regionOp (pb : Protobuf) (st : NodeState api) :
    (x : RegionOp api) → x.Result × NodeState api
  | .open r => ((), st.addRaftNode pb r)
  | .call r op => (st.raftNodes[r]?.map fun node => node.result pb st.storage op, st.raft pb r op)

/-! ## What is on disk for other regions does not matter -/

section

variable (pb : Protobuf) {engine engine' : Store}

lemma append_congr (s : RaftStorage) (es : List Raft.Entry) (engine engine' : Store) :
    (s.append pb es engine).1 = (s.append pb es engine').1 := by
  cases es with
  | nil => rfl
  | cons e es =>
      simp only [RaftStorage.append]
      split_ifs <;> rfl

/-- Two outcomes that agree in all but the engine, and there under the keys at which it agreed
before. -/
structure SameBut {α β : Type} (engine engine' : Store) (x y : α × β × Store) : Prop where
  result : x.1 = y.1
  state : x.2.1 = y.2.1
  disk : ∀ k, engine.get .default k = engine'.get .default k →
    x.2.2.get .default k = y.2.2.get .default k

lemma persistEntries_congr (s : RaftStorage) (es : List Raft.Entry) (engine engine' : Store) :
    SameBut engine engine' (MultiRaftNode.persistEntries pb s es engine)
      (MultiRaftNode.persistEntries pb s es engine') := by
  unfold MultiRaftNode.persistEntries
  split_ifs
  · exact ⟨rfl, rfl, fun _ hk => hk⟩
  · obtain ⟨hstate, hdisk⟩ := call_congr pb s engine engine' (.append es)
    exact ⟨append_congr pb s es engine engine', hstate, hdisk⟩

lemma persistHardState_congr (s : RaftStorage) (hs : Option HardState) (engine engine' : Store) :
    (MultiRaftNode.persistHardState pb s hs engine).1 =
        (MultiRaftNode.persistHardState pb s hs engine').1 ∧
      ∀ k, engine.get .default k = engine'.get .default k →
        (MultiRaftNode.persistHardState pb s hs engine).2.get .default k =
          (MultiRaftNode.persistHardState pb s hs engine').2.get .default k := by
  cases hs with
  | none => exact ⟨rfl, fun _ hk => hk⟩
  | some hs => exact call_congr pb s engine engine' (.setHardState hs)

lemma processReady_congr (node : MultiRaftNode api) (engine engine' : Store) :
    SameBut engine engine' (node.processReady pb engine) (node.processReady pb engine') := by
  by_cases hready : api.hasReady node.rawNode node.storage
  · obtain ⟨hresult, hstate, hdisk⟩ := persistEntries_congr pb node.storage
      (api.ready node.rawNode node.storage).1.entries engine engine'
    rcases hpersist : MultiRaftNode.persistEntries pb node.storage
        (api.ready node.rawNode node.storage).1.entries engine with ⟨res, storage, engine₁⟩
    rcases hpersist' : MultiRaftNode.persistEntries pb node.storage
        (api.ready node.rawNode node.storage).1.entries engine' with ⟨res', storage', engine₁'⟩
    rw [hpersist, hpersist'] at hresult hstate hdisk
    obtain rfl : res = res' := hresult
    obtain rfl : storage = storage' := hstate
    simp only [MultiRaftNode.processReady, MultiRaftNode.readyCycle, hready, if_true, hpersist,
      hpersist']
    cases res with
    | error e => exact ⟨rfl, rfl, hdisk⟩
    | ok u =>
        obtain ⟨hstate', hdisk'⟩ := persistHardState_congr pb storage
          (api.ready node.rawNode node.storage).1.hs engine₁ engine₁'
        exact ⟨rfl, by simp only [hstate'], fun k hk => hdisk' k (hdisk k hk)⟩
  · simp only [MultiRaftNode.processReady, MultiRaftNode.readyCycle, hready]
    exact ⟨rfl, rfl, fun _ hk => hk⟩

lemma perform_congr (node : MultiRaftNode api) (engine engine' : Store) (op : Op api) :
    node.result pb engine op = node.result pb engine' op ∧
      (node.perform pb engine op).1 = (node.perform pb engine' op).1 ∧
      ∀ k, engine.get .default k = engine'.get .default k →
        (node.perform pb engine op).2.get .default k =
          (node.perform pb engine' op).2.get .default k := by
  cases op with
  | processReady =>
      obtain ⟨hresult, hstate, hdisk⟩ := processReady_congr pb node engine engine'
      exact ⟨hresult, hstate, hdisk⟩
  | _ => exact ⟨rfl, rfl, fun _ hk => hk⟩

end

/-! ## One operation -/

/-- Every Raft node is that of the region it is kept under. -/
def NodeState.Filed (st : NodeState api) : Prop :=
  ∀ (r : UInt64) node, st.raftNodes[r]? = some node → node.storage.regionId = r

/-- What a node has for a region: its Raft node and what is on disk under its keys. -/
def NodeState.region (r : UInt64) (st : NodeState api) :
    UInt64 × Option (MultiRaftNode api) × ({k // Owned r k} → Option Bytes) :=
  (st.nodeId, st.raftNodes[r]?, fun k => st.storage.get .default k)

lemma NodeState.Filed.of_new {pb : Protobuf} {nodeId nowMs : UInt64} {storage : Store}
    {st : NodeState api} (h : NodeState.new api pb nodeId nowMs storage = .ok st) : st.Filed := by
  unfold NodeState.new at h
  split at h
  · cases h
  · rename_i raftNode hraft
    cases h
    intro r node hnode
    rcases NodeState.insert_origin hnode with ⟨rfl, rfl⟩ | hnone
    · rw [MultiRaftNode.storage_of_new hraft]
      rfl
    · simp at hnone

section

variable (pb : Protobuf)

lemma NodeState.Filed.regionOp {st : NodeState api} (h : st.Filed) (x : RegionOp api) :
    (st.regionOp pb x).2.Filed := by
  cases x with
  | «open» r =>
      intro r' node hnode
      obtain ⟨raftNodes, heq, horigin⟩ := NodeState.addRaftNode_eq pb st r
      rw [NodeState.regionOp, heq] at hnode
      rcases horigin r' node hnode with ⟨rfl, hid⟩ | hold
      · exact hid
      · exact h r' node hold
  | call r op =>
      rw [NodeState.regionOp]
      cases hnode : st.raftNodes[r]? with
      | none =>
          rw [raft_of_none pb hnode]
          exact h
      | some node =>
          rw [raft_of_some pb hnode]
          intro r' node' hnode'
          rcases NodeState.insert_origin hnode' with ⟨rfl, rfl⟩ | hold
          · rw [(perform_writes pb node st.storage op).1]
            exact h r' node hnode
          · exact h r' node' hold

/-- Another region keeps its Raft node in an insertion. -/
lemma getElem?_insert_other {β : Type} {m : Std.ExtTreeMap UInt64 β compare} {r r' : UInt64}
    (hne : r' ≠ r) (x : β) : (m.insert r' x)[r]? = m[r]? := by
  rw [Std.ExtTreeMap.getElem?_insert, if_neg]
  rwa [Std.LawfulEqCmp.compare_eq_iff_eq]

/-- An operation for another region touches nothing of this one. -/
lemma region_of_other {st : NodeState api} (h : st.Filed) {x : RegionOp api} {r : UInt64}
    (hx : x.regionId ≠ r) : (st.regionOp pb x).2.region r = st.region r := by
  cases x with
  | «open» r' =>
      simp only [NodeState.regionOp, NodeState.addRaftNode]
      cases MultiRaftNode.new api pb r' st.nodeId st.storage with
      | error e => rfl
      | ok node => exact Prod.ext rfl (Prod.ext (getElem?_insert_other hx node) rfl)
  | call r' op =>
      rw [NodeState.regionOp]
      cases hnode : st.raftNodes[r']? with
      | none => rw [raft_of_none pb hnode]
      | some node =>
          have hwrites := (perform_writes pb node st.storage op).2
          rw [h r' node hnode] at hwrites
          rw [raft_of_some pb hnode]
          refine Prod.ext rfl (Prod.ext (getElem?_insert_other hx _) (funext fun k => ?_))
          exact hwrites.frame k fun hk => hx (hk.unique k.2)

/-- An operation for a region on nodes that have the same for it. -/
lemma region_congr {st st' : NodeState api} {x : RegionOp api}
    (hst : st.region x.regionId = st'.region x.regionId) :
    (st.regionOp pb x).1 = (st'.regionOp pb x).1 ∧
      (st.regionOp pb x).2.region x.regionId = (st'.regionOp pb x).2.region x.regionId := by
  obtain ⟨hid, hrest⟩ := Prod.mk.inj hst
  obtain ⟨hnodes, hdisk⟩ := Prod.mk.inj hrest
  have hdisk : ∀ k, Owned x.regionId k → st.storage.get .default k = st'.storage.get .default k :=
    fun k hk => congrFun hdisk ⟨k, hk⟩
  cases x with
  | «open» r =>
      refine ⟨rfl, ?_⟩
      have hopened : MultiRaftNode.new api pb r st.nodeId st.storage =
          MultiRaftNode.new api pb r st'.nodeId st'.storage := by
        have hstorage : RaftStorage.new pb st.storage r = RaftStorage.new pb st'.storage r :=
          new_congr hdisk
        simp only [MultiRaftNode.new, hstorage, hid]
      simp only [NodeState.regionOp, NodeState.addRaftNode, hopened]
      cases MultiRaftNode.new api pb r st'.nodeId st'.storage with
      | error e => exact hst
      | ok node =>
          refine Prod.ext hid (Prod.ext ?_ (funext fun k => hdisk k k.2))
          simp only [RegionOp.regionId, NodeState.region, Std.ExtTreeMap.getElem?_insert_self]
  | call r op =>
      simp only [RegionOp.regionId] at hnodes hdisk hst ⊢
      cases hnode : st'.raftNodes[r]? with
      | none =>
          rw [hnode] at hnodes
          simp only [NodeState.regionOp, raft_of_none pb hnode, raft_of_none pb hnodes, hnode,
            hnodes]
          exact ⟨rfl, hst⟩
      | some node =>
          rw [hnode] at hnodes
          obtain ⟨hresult, hstate, hdisk'⟩ :=
            perform_congr pb node st.storage st'.storage op
          simp only [NodeState.regionOp, raft_of_some pb hnode, raft_of_some pb hnodes, hnode,
            hnodes, Option.map_some, hresult]
          refine ⟨rfl, Prod.ext hid (Prod.ext ?_ (funext fun k => hdisk' k (hdisk k k.2)))⟩
          simp only [NodeState.region, Std.ExtTreeMap.getElem?_insert_self, hstate]

/-- A region sees its own operations. -/
lemma projects_region (r : UInt64) : Projects (NodeState.regionOp pb) NodeState.Filed
    (fun _ => True) (fun x : RegionOp api => x.regionId = r) (NodeState.region r) where
  keeps _ x h _ := h.regionOp pb x
  unseen _ _ h _ hx := region_of_other pb h hx
  seen st st' x _ _ _ hx hst := by
    subst hx
    exact region_congr pb hst

end

/-! ## Runs -/

/-- **Regions run alone.**  From a start on, in whatever order the Raft nodes of regions are opened
and operated, a region's operations return what they return in a run of these only, and at the end
its Raft node and all that is on disk under its keys are the same. -/
theorem region_runs_alone {pb : Protobuf} {nodeId nowMs : UInt64} {storage : Store}
    {st : NodeState api} (hnew : NodeState.new api pb nodeId nowMs storage = .ok st) (r : UInt64)
    (xs : List (RegionOp api)) :
    let run := after (NodeState.regionOp pb) st
    let own := xs.filter fun x => x.regionId = r
    (run xs).raftNodes[r]? = (run own).raftNodes[r]? ∧
      (∀ k, Owned r k → (run xs).storage.get .default k = (run own).storage.get .default k) ∧
      (answers (NodeState.regionOp pb) st xs).filter (fun x => x.1.regionId = r) =
        answers (NodeState.regionOp pb) st own := by
  intro run own
  have hfiled := NodeState.Filed.of_new hnew
  obtain ⟨hregion, hanswers⟩ := (projects_region pb r).run hfiled hfiled
    (fun x (_ : x ∈ xs) => trivial) rfl
  obtain ⟨-, hrest⟩ := Prod.mk.inj hregion
  obtain ⟨hnodes, hdisk⟩ := Prod.mk.inj hrest
  exact ⟨hnodes, fun k hk => congrFun hdisk ⟨k, hk⟩, hanswers⟩

/-- Regions 1 and 12 each get entries from a leader, and persist them in turn. -/
theorem region_runs_alone_two :
    let xs : List (RegionOp peerApi) :=
      [.open 12, .call 1 (.step (.append 1 [blank 1 1] 1)),
        .call 12 (.step (.append 2 [blank 2 1, blank 2 2] 0)), .call 12 .processReady,
        .call 1 .processReady]
    (xs.filter fun x => x.regionId = 12).length = 3 ∧
      (after (NodeState.regionOp Protobuf.plain) started xs).storage.get .default (entryKey 1 1) ≠
        none ∧
      (after (NodeState.regionOp Protobuf.plain) started xs).storage.get .default (entryKey 12 2) =
        (after (NodeState.regionOp Protobuf.plain) started
          (xs.filter fun x => x.regionId = 12)).storage.get .default (entryKey 12 2) := by
  intro xs
  have hown := (region_runs_alone new_started 12 xs).2.1 (entryKey 12 2)
    (Or.inr (Or.inr (prefix_entryKey _ _)))
  exact ⟨rfl, by decide +kernel, hown⟩

end AcidKv
