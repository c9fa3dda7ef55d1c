import AcidKv.Properties.RegionNodes

/-!
# Terms and votes survive a restart

A Raft node must not forget the term it is in and whom it has voted for.  The `RawNode` hands over
its hard state in a `Ready` when it has changed, and `process_ready` puts it on disk before it
returns any message.  So the hard state that a region's node would start from is the one that was
handed over last, in any run of the Raft nodes of all regions; and whenever `process_ready` has
returned messages, term and vote on disk are those of the `RawNode` (`term_and_vote_durable`).
-/

namespace AcidKv

open Raft NodeState

variable {api : RawNodeApi} {pb : Protobuf} {r : UInt64}

def Raft.HardState.ballot (hs : HardState) : UInt64 × UInt64 := (hs.term, hs.vote)

/-- What raft-rs says of term and vote of a `RawNode`: it starts with those of the storage, a
`Ready` has them if they are not those reported last, and they are reported once it is advanced. -/
structure ReportsBallot (api : RawNodeApi) where
  ballot : api.Node → UInt64 × UInt64
  reported : api.Node → UInt64 × UInt64
  new {id : UInt64} {s : RaftStorage} {n : api.Node} :
    api.new id s = .ok n → reported n = s.core.hardState.ballot
  tick (n : api.Node) (s : RaftStorage) : reported (api.tick n s) = reported n
  step (n : api.Node) (s : RaftStorage) (msg : api.Message) :
    reported (api.step n s msg).2 = reported n
  propose (n : api.Node) (s : RaftStorage) (data : Bytes) :
    reported (api.propose n s data).2 = reported n
  idle {n : api.Node} {s : RaftStorage} : ¬ api.hasReady n s → ballot n = reported n
  ready (n : api.Node) (s : RaftStorage) :
    ballot n = ((api.ready n s).1.hs.map HardState.ballot).getD (reported n) ∧
      ballot (api.ready n s).2 = ballot n ∧ reported (api.ready n s).2 = reported n
  advance (n : api.Node) (s : RaftStorage) (ready : Ready api.Message) :
    ballot (api.advance n s ready).2 = ballot n ∧
      reported (api.advance n s ready).2 = (ready.hs.map HardState.ballot).getD (reported n)

namespace Raft.Peer

lemma ballot_commitTo (n : Peer) (index : UInt64) :
    (n.commitTo index).hardState.ballot = n.hardState.ballot ∧
      (n.commitTo index).handedOver = n.handedOver := by
  unfold commitTo
  split_ifs <;> exact ⟨rfl, rfl⟩

lemma handedOver_handleAppend (n : Peer) (s : RaftStorage) (term : UInt64) (es : List Raft.Entry)
    (commit : UInt64) : (n.handleAppend s term es commit).handedOver = n.handedOver := by
  unfold handleAppend
  split
  · rfl
  · exact (ballot_commitTo _ _).2

lemma handedOver_handleAppendResponse (n : Peer) (s : RaftStorage) (index : UInt64) :
    (n.handleAppendResponse s index).2.handedOver = n.handedOver := by
  unfold handleAppendResponse
  split_ifs
  · rfl
  · split
    · exact (ballot_commitTo _ _).2
    · rfl

lemma handedOver_handlePropose (n : Peer) (s : RaftStorage) (data : Bytes) :
    (n.handlePropose s data).2.handedOver = n.handedOver := by
  unfold handlePropose
  split <;> rfl

lemma ballot_ready (n : Peer) :
    n.hardState.ballot = (n.ready.1.hs.map HardState.ballot).getD n.handedOver.ballot := by
  unfold ready
  split_ifs with hsame
  · exact congrArg HardState.ballot hsame
  · rfl

lemma ballot_advance (n : Peer) (s : RaftStorage) (rd : Ready PeerMessage) :
    (n.advance s rd).2.hardState.ballot = n.hardState.ballot ∧
      (n.advance s rd).2.handedOver.ballot =
        (rd.hs.map HardState.ballot).getD n.handedOver.ballot := by
  have hgetD : (rd.hs.getD n.handedOver).ballot =
      (rd.hs.map HardState.ballot).getD n.handedOver.ballot := by
    cases rd.hs <;> rfl
  simp only [advance]
  split_ifs
  · exact ⟨(ballot_commitTo _ _).1,
      (congrArg HardState.ballot (ballot_commitTo _ _).2).trans hgetD⟩
  · exact ⟨rfl, hgetD⟩

def reportsBallot : ReportsBallot peerApi where
  ballot n := (hardState n).ballot
  reported n := (handedOver n).ballot
  new h := by
    cases h
    rfl
  tick _ _ := rfl
  step n s msg := by
    cases msg with
    | append term es commit =>
        exact congrArg HardState.ballot (handedOver_handleAppend n s term es commit)
    | appendResponse index =>
        exact congrArg HardState.ballot (handedOver_handleAppendResponse n s index)
    | propose data => exact congrArg HardState.ballot (handedOver_handlePropose n s data)
  propose n s data := congrArg HardState.ballot (handedOver_handlePropose n s data)
  idle {n} _ h := by
    simp only [peerApi, Bool.not_eq_true', Bool.not_eq_false, Bool.and_eq_true,
      decide_eq_true_eq] at h
    exact congrArg HardState.ballot h.2
  ready n _ := ⟨ballot_ready n, rfl, rfl⟩
  advance n s rd := ballot_advance n s rd

end Raft.Peer

/-! ## Storages -/

/-- What is read back depends on two keys. -/
lemma initialState_new_congr {engine engine' : Store}
    (hhs : engine'.get .default (hsKey r) = engine.get .default (hsKey r))
    (hcs : engine'.get .default (csKey r) = engine.get .default (csKey r)) :
    (RaftStorage.new pb engine' r).initialState = (RaftStorage.new pb engine r).initialState := by
  simp only [RaftStorage.initialState, RaftStorage.new, hhs, hcs]

/-- The storage of region `r` has in memory what it would read back. -/
def Durable (pb : Protobuf) (r : UInt64) (s : RaftStorage) (engine : Store) : Prop :=
  s.regionId = r ∧ (RaftStorage.new pb engine r).initialState = s.initialState

namespace Durable

variable {s : RaftStorage} {engine : Store}

/-- The log is kept under keys of its own. -/
lemma append (h : Durable pb r s engine) (es : List Raft.Entry) :
    Durable pb r (s.append pb es engine).2.1 (s.append pb es engine).2.2 := by
  cases es with
  | nil => exact h
  | cons e es =>
      simp only [RaftStorage.append]
      split_ifs
      · exact h
      · refine ⟨h.1, (initialState_new_congr ?_ ?_).trans h.2⟩
        · refine get_appendBatch_of_ne (fun _ e _ heq => ?_) engine
          exact not_entryPrefix_hsKey s.regionId r (heq ▸ prefix_entryKey _ _)
        · refine get_appendBatch_of_ne (fun _ e _ heq => ?_) engine
          exact not_entryPrefix_csKey s.regionId r (heq ▸ prefix_entryKey _ _)

lemma setHardState (h : Durable pb r s engine) (hs : HardState) :
    Durable pb r (s.setHardState pb hs engine).1 (s.setHardState pb hs engine).2 := by
  obtain ⟨bytes, hwrite, hparse⟩ := pb.hardState.roundTrip hs
  have hconf : (RaftStorage.new pb engine r).core.confState = s.core.confState :=
    congrArg Prod.snd h.2
  refine ⟨h.1, ?_⟩
  have hne : csKey r ≠ hsKey r := (hsKey_ne_csKey r r).symm
  simp only [RaftStorage.setHardState, hwrite, h.1]
  refine Prod.ext ?_ (Eq.trans ?_ hconf)
  · simp [RaftStorage.initialState, RaftStorage.new, RaftStorage.loadMessage, hparse]
  · simp [RaftStorage.initialState, RaftStorage.new, hne]

lemma persistEntries (h : Durable pb r s engine) (es : List Raft.Entry) :
    Durable pb r (MultiRaftNode.persistEntries pb s es engine).2.1
      (MultiRaftNode.persistEntries pb s es engine).2.2 := by
  unfold MultiRaftNode.persistEntries
  split_ifs
  · exact h
  · exact h.append es

lemma persistHardState (h : Durable pb r s engine) (hs : Option HardState) :
    Durable pb r (MultiRaftNode.persistHardState pb s hs engine).1
      (MultiRaftNode.persistHardState pb s hs engine).2 := by
  cases hs with
  | none => exact h
  | some hs => exact h.setHardState hs

lemma processReady {node : MultiRaftNode api} (h : Durable pb r node.storage engine) :
    Durable pb r (node.processReady pb engine).2.1.storage (node.processReady pb engine).2.2 := by
  have hcycle := MultiRaftNode.readyCycle_cycle pb node engine
  rw [MultiRaftNode.processReady]
  generalize MultiRaftNode.readyCycle pb node engine = out at hcycle ⊢
  cases hcycle with
  | idle => exact h
  | @failed ready _ _ _ _ _ hentries =>
      have hd := h.persistEntries ready.entries
      rwa [hentries] at hd
  | @done ready _ _ _ _ _ _ _ _ hentries hhard =>
      have hd := h.persistEntries ready.entries
      rw [hentries] at hd
      have hd' := hd.persistHardState ready.hs
      rwa [hhard] at hd'

lemma perform {node : MultiRaftNode api} (h : Durable pb r node.storage engine) (op : Op api) :
    Durable pb r (node.perform pb engine op).1.storage (node.perform pb engine op).2 := by
  cases op with
  | processReady => exact h.processReady
  | _ => exact h

/-- Writes for another region. -/
lemma other {engine' : Store} {r' : UInt64} (h : Durable pb r s engine)
    (hwrites : WritesUnder r' engine engine') (hne : r' ≠ r) : Durable pb r s engine' := by
  refine ⟨h.1, (initialState_new_congr ?_ ?_).trans h.2⟩
  · exact hwrites.frame _ fun hk => hne (hk.unique (Or.inl rfl))
  · exact hwrites.frame _ fun hk => hne (hk.unique (Or.inr (Or.inl rfl)))

end Durable

/-! ## What is handed over -/

/-- The hard state that a call has handed over and persisted. -/
def Raft.Handed.hardState (h : Handed api) : Option HardState := h.light.bind fun _ => h.ready.hs

lemma hardState_persistEntries (pb : Protobuf) (s : RaftStorage) (es : List Raft.Entry)
    (engine : Store) :
    (MultiRaftNode.persistEntries pb s es engine).2.1.core.hardState = s.core.hardState := by
  unfold MultiRaftNode.persistEntries RaftStorage.append
  split_ifs
  · rfl
  · split
    · rfl
    · split_ifs <;> rfl

lemma hardState_persistHardState (pb : Protobuf) (s : RaftStorage) (hs : Option HardState)
    (engine : Store) : (MultiRaftNode.persistHardState pb s hs engine).1.core.hardState =
      hs.getD s.core.hardState := by
  cases hs <;> rfl

/-- The hard state in memory after a call, and that of the `RawNode`. -/
lemma processReady_hardState (pb : Protobuf) (node : MultiRaftNode api) (engine : Store) :
    (node.processReady pb engine).2.1.storage.core.hardState =
      ((MultiRaftNode.readyCycle pb node engine).1.bind Handed.hardState).getD
        node.storage.core.hardState := by
  have hcycle := MultiRaftNode.readyCycle_cycle pb node engine
  rw [MultiRaftNode.processReady]
  generalize MultiRaftNode.readyCycle pb node engine = out at hcycle ⊢
  cases hcycle with
  | idle => rfl
  | @failed ready _ _ _ _ _ hentries =>
      have hkeep := hardState_persistEntries pb node.storage ready.entries engine
      rwa [hentries] at hkeep
  | @done ready _ _ _ storage _ engine' _ _ hentries hhard =>
      have hkeep := hardState_persistEntries pb node.storage ready.entries engine
      have hset := hardState_persistHardState pb storage ready.hs engine'
      rw [hentries] at hkeep
      rw [hhard, hkeep] at hset
      exact hset

namespace ReportsBallot

variable (reports : ReportsBallot api)

/-- The hard state in memory is the one that was reported. -/
def UpToDate (node : MultiRaftNode api) : Prop :=
  reports.reported node.rawNode = node.storage.core.hardState.ballot

lemma upToDate_processReady {node : MultiRaftNode api} (h : reports.UpToDate node)
    (pb : Protobuf) (engine : Store) :
    reports.UpToDate (node.processReady pb engine).2.1 ∧
      ∀ x, (node.processReady pb engine).1 = .ok x →
        reports.ballot (node.processReady pb engine).2.1.rawNode =
          (node.processReady pb engine).2.1.storage.core.hardState.ballot := by
  have hcycle := MultiRaftNode.readyCycle_cycle pb node engine
  have hhs := processReady_hardState pb node engine
  rw [MultiRaftNode.processReady] at hhs ⊢
  generalize MultiRaftNode.readyCycle pb node engine = out at hcycle hhs ⊢
  cases hcycle with
  | idle hready => exact ⟨h, fun _ _ => (reports.idle hready).trans h⟩
  | @failed ready rawNode e storage _ hready hentries =>
      obtain ⟨-, -, hreported⟩ := reports.ready node.rawNode node.storage
      rw [hready] at hreported
      refine ⟨?_, fun _ hx => by cases hx⟩
      rw [UpToDate, hhs]
      exact hreported.trans h
  | @done ready rawNode rawNode' light storage storage' _ _ hready hentries hhard hadvance =>
      obtain ⟨hballot, hkeeps, hreported⟩ := reports.ready node.rawNode node.storage
      obtain ⟨hkeeps', hreported'⟩ :=
        reports.advance rawNode storage' { ready with messages := [] }
      rw [hready] at hballot hkeeps hreported
      rw [hadvance] at hkeeps' hreported'
      have hdisk : (ready.hs.map HardState.ballot).getD (reports.reported node.rawNode) =
          storage'.core.hardState.ballot := by
        rw [show storage'.core.hardState = ready.hs.getD node.storage.core.hardState from hhs, h]
        cases ready.hs <;> rfl
      refine ⟨?_, fun _ _ => ?_⟩
      · exact (hreported'.trans (by rw [hreported])).trans hdisk
      · exact (hkeeps'.trans (hkeeps.trans hballot)).trans hdisk

lemma upToDate_perform {node : MultiRaftNode api} (h : reports.UpToDate node) (pb : Protobuf)
    (engine : Store) (op : Op api) : reports.UpToDate (node.perform pb engine op).1 := by
  cases op with
  | tick => exact (reports.tick _ _).trans h
  | step msg => exact (reports.step _ _ msg).trans h
  | propose data => exact (reports.propose _ _ data).trans h
  | processReady => exact (reports.upToDate_processReady h pb engine).1

end ReportsBallot

/-! ## Nodes -/

/-- A property of a region's Raft node and the disk that holds from its opening on. -/
structure Survives (pb : Protobuf) (P : UInt64 → MultiRaftNode api → Store → Prop) : Prop where
  regionId {r : UInt64} {node : MultiRaftNode api} {engine : Store} :
    P r node engine → node.storage.regionId = r
  new {r nodeId : UInt64} {engine : Store} {node : MultiRaftNode api} :
    MultiRaftNode.new api pb r nodeId engine = .ok node → P r node engine
  own {r : UInt64} {node : MultiRaftNode api} {engine : Store} (op : Op api) :
    P r node engine → P r (node.perform pb engine op).1 (node.perform pb engine op).2
  other {r r' : UInt64} {node : MultiRaftNode api} {engine engine' : Store} :
    P r node engine → WritesUnder r' engine engine' → r' ≠ r → P r node engine'

def NodeState.Each (P : UInt64 → MultiRaftNode api → Store → Prop) (st : NodeState api) : Prop :=
  ∀ (r : UInt64) node, st.raftNodes[r]? = some node → P r node st.storage

namespace Survives

variable {P : UInt64 → MultiRaftNode api → Store → Prop}

lemma start (hP : Survives pb P) {nodeId nowMs : UInt64} {storage : Store} {st : NodeState api}
    (h : NodeState.new api pb nodeId nowMs storage = .ok st) : st.Each P := by
  unfold NodeState.new at h
  split at h
  · cases h
  · rename_i raftNode hraft
    cases h
    intro r node hnode
    rcases NodeState.insert_origin hnode with ⟨rfl, rfl⟩ | hnone
    · exact hP.new hraft
    · simp at hnone

lemma regionOp (hP : Survives pb P) {st : NodeState api} (h : st.Each P) (x : RegionOp api) :
    (st.regionOp pb x).2.Each P := by
  cases x with
  | «open» r =>
      simp only [NodeState.regionOp, NodeState.addRaftNode]
      cases hopen : MultiRaftNode.new api pb r st.nodeId st.storage with
      | error e => exact h
      | ok opened =>
          intro r' node hnode
          rcases NodeState.insert_origin hnode with ⟨rfl, rfl⟩ | hold
          · exact hP.new hopen
          · exact h r' node hold
  | call r op =>
      rw [NodeState.regionOp]
      cases hnode : st.raftNodes[r]? with
      | none =>
          rw [raft_of_none pb hnode]
          exact h
      | some node =>
          rw [raft_of_some pb hnode]
          intro r' node' hnode'
          rw [Std.ExtTreeMap.getElem?_insert] at hnode'
          split_ifs at hnode' with heq
          · obtain rfl := Std.LawfulEqCmp.compare_eq_iff_eq.mp heq
            rw [← Option.some.inj hnode']
            exact hP.own op (h r node hnode)
          · have hne : r ≠ r' := fun hr => heq (Std.LawfulEqCmp.compare_eq_iff_eq.mpr hr)
            have hwrites := (perform_writes pb node st.storage op).2
            rw [hP.regionId (h r node hnode)] at hwrites
            exact hP.other (h r' node' hnode') hwrites hne

lemma run (hP : Survives pb P) {st : NodeState api} (h : st.Each P) (xs : List (RegionOp api)) :
    (after (NodeState.regionOp pb) st xs).Each P := by
  induction xs generalizing st with
  | nil => exact h
  | cons x xs ih => exact ih (hP.regionOp h x)

end Survives

lemma durable_survives (pb : Protobuf) :
    Survives pb fun r (node : MultiRaftNode api) engine => Durable pb r node.storage engine where
  regionId h := h.1
  new h := by
    rw [MultiRaftNode.storage_of_new h]
    exact ⟨rfl, rfl⟩
  own op h := h.perform op
  other h hwrites hne := h.other hwrites hne

lemma upToDate_survives (pb : Protobuf) (reports : ReportsBallot api) :
    Survives pb fun r node _ => node.storage.regionId = r ∧ reports.UpToDate node where
  regionId h := h.1
  new {r nodeId engine node} h := by
    cases hraw : api.new nodeId (RaftStorage.new pb engine r) with
    | error e => simp [MultiRaftNode.new, hraw] at h
    | ok rawNode =>
        simp only [MultiRaftNode.new, hraw, Except.ok.injEq] at h
        rw [← h]
        exact ⟨rfl, reports.new hraw⟩
  own op h := ⟨(perform_writes pb _ _ op).1.trans h.1, reports.upToDate_perform h.2 pb _ op⟩
  other h _ _ := h

/-! ## Runs -/

/-- The hard state of region `r` that an operation persists. -/
def NodeState.persists (pb : Protobuf) (r : UInt64) (st : NodeState api) :
    RegionOp api → Option HardState
  | .call r' .processReady =>
      if r' = r then
        st.raftNodes[r]?.bind fun node =>
          (MultiRaftNode.readyCycle pb node st.storage).1.bind Handed.hardState
      else none
  | _ => none

/-- The hard states of region `r` that are handed over and persisted in a run, in their order. -/
def NodeState.hardStates (pb : Protobuf) (r : UInt64) :
    NodeState api → List (RegionOp api) → List HardState
  | _, [] => []
  | st, x :: xs => (st.persists pb r x).toList ++ hardStates pb r (st.regionOp pb x).2 xs

/-- What region `r` would start from. -/
def NodeState.recovered (pb : Protobuf) (r : UInt64) (st : NodeState api) :
    HardState × ConfState :=
  (RaftStorage.new pb st.storage r).initialState

lemma recovered_regionOp {st : NodeState api}
    (h : st.Each fun r node engine => Durable pb r node.storage engine) (r : UInt64)
    (x : RegionOp api) :
    ((st.regionOp pb x).2.recovered pb r).1 =
      (st.persists pb r x).getD (st.recovered pb r).1 := by
  cases x with
  | «open» r' =>
      simp only [NodeState.regionOp, NodeState.addRaftNode]
      cases MultiRaftNode.new api pb r' st.nodeId st.storage <;> rfl
  | call r' op =>
      rw [NodeState.regionOp]
      cases hnode : st.raftNodes[r']? with
      | none =>
          rw [raft_of_none pb hnode]
          cases op with
          | processReady =>
              simp only [NodeState.persists]
              split_ifs with hr
              · rw [← hr, hnode]
                rfl
              · rfl
          | _ => rfl
      | some node =>
          rw [raft_of_some pb hnode]
          have hdurable := h r' node hnode
          by_cases hr : r' = r
          · subst hr
            have hbefore : (st.recovered pb r').1 = node.storage.core.hardState :=
              congrArg Prod.fst hdurable.2
            have hafter := congrArg Prod.fst (hdurable.perform op).2
            refine Eq.trans hafter ?_
            rw [hbefore]
            cases op with
            | processReady =>
                simp only [NodeState.persists, if_true, hnode, Option.bind_some]
                exact processReady_hardState pb node st.storage
            | _ => rfl
          · have hwrites := (perform_writes pb node st.storage op).2
            rw [hdurable.1] at hwrites
            have hsame : (st.persists pb r (.call r' op)) = none := by
              cases op <;> simp [NodeState.persists, hr]
            rw [hsame]
            refine congrArg Prod.fst (initialState_new_congr ?_ ?_)
            · exact hwrites.frame _ fun hk => hr (hk.unique (Or.inl rfl))
            · exact hwrites.frame _ fun hk => hr (hk.unique (Or.inr (Or.inl rfl)))

lemma recovered_run {st : NodeState api}
    (h : st.Each fun r node engine => Durable pb r node.storage engine) (r : UInt64)
    (xs : List (RegionOp api)) :
    ((after (NodeState.regionOp pb) st xs).recovered pb r).1 =
      (st.hardStates pb r xs).getLast?.getD (st.recovered pb r).1 := by
  induction xs generalizing st with
  | nil => rfl
  | cons x xs ih =>
      have hrest := ih ((durable_survives pb).regionOp h x)
      rw [recovered_regionOp h r x] at hrest
      refine hrest.trans ?_
      rw [NodeState.hardStates, List.getLast?_append]
      cases (NodeState.hardStates pb r (st.regionOp pb x).2 xs).getLast? with
      | some hs => rfl
      | none => cases st.persists pb r x <;> rfl

/-- **Terms and votes are durable.**  From a start on, in whatever order the Raft nodes of regions
are opened and operated, a region's node would start from the hard state that was handed over last,
or from that at the start if none was, and has the same in memory.  When `process_ready` returns,
the term and the vote it would start with are those of its `RawNode`. -/
theorem term_and_vote_durable {nodeId nowMs : UInt64} {storage : Store} {st : NodeState api}
    (hnew : NodeState.new api pb nodeId nowMs storage = .ok st) (xs : List (RegionOp api))
    (r : UInt64) :
    let run := after (NodeState.regionOp pb) st xs
    (run.recovered pb r).1 = (st.hardStates pb r xs).getLast?.getD (st.recovered pb r).1 ∧
      ∀ node, run.raftNodes[r]? = some node →
        run.recovered pb r = node.storage.initialState ∧
        ∀ (reports : ReportsBallot api) x, (node.processReady pb run.storage).1 = .ok x →
          let next := (run.regionOp pb (.call r .processReady)).2
          (next.recovered pb r).1.ballot =
            reports.ballot (node.processReady pb run.storage).2.1.rawNode := by
  intro run
  have hstart := (durable_survives pb).start hnew
  refine ⟨recovered_run hstart r xs, fun node hnode => ?_⟩
  have hdurable := (durable_survives pb).run hstart xs r node hnode
  refine ⟨hdurable.2, fun reports x hx => ?_⟩
  have hstarted := (upToDate_survives pb reports).start hnew
  obtain ⟨-, hupToDate⟩ := (upToDate_survives pb reports).run hstarted xs r node hnode
  intro next
  have hnext : next.storage = (node.processReady pb run.storage).2.2 :=
    congrArg NodeState.storage (raft_of_some pb hnode .processReady)
  have hballot := (reports.upToDate_processReady hupToDate pb run.storage).2 x hx
  rw [NodeState.recovered, hnext, hdurable.processReady.2]
  exact hballot.symm

/-- Regions 1 and 12 get entries in different terms, and region 12 gets more after it has persisted
the first of them. -/
theorem term_and_vote_durable_two :
    let xs : List (RegionOp peerApi) :=
      [.open 12, .call 12 (.step (.append 2 [blank 2 1] 0)), .call 12 .processReady,
        .call 1 (.step (.append 1 [blank 1 1] 1)), .call 1 .processReady,
        .call 12 (.step (.append 3 [blank 3 2] 1))]
    let run := after (NodeState.regionOp Protobuf.plain) started xs
    (run.recovered Protobuf.plain 12).1 = ⟨2, 0, 0⟩ ∧
      ∃ node, run.raftNodes[(12 : UInt64)]? = some node ∧
        ((run.regionOp Protobuf.plain (.call 12 .processReady)).2.recovered
            Protobuf.plain 12).1.ballot =
          Peer.reportsBallot.ballot (node.processReady Protobuf.plain run.storage).2.1.rawNode ∧
        Peer.reportsBallot.ballot (node.processReady Protobuf.plain run.storage).2.1.rawNode =
          (3, 0) := by
  intro xs run
  obtain ⟨hlast, hnodes⟩ := term_and_vote_durable new_started xs 12
  have hpersisted : started.hardStates Protobuf.plain 12 xs = [⟨2, 0, 0⟩] := by decide +kernel
  rw [hpersisted] at hlast
  have hsome : run.raftNodes[(12 : UInt64)]?.isSome := by decide +kernel
  have hok : ((run.raftNodes[(12 : UInt64)]?.get hsome).processReady Protobuf.plain
      run.storage).1 = .ok ([], []) := by rfl
  refine ⟨hlast, _, (Option.some_get hsome).symm, ?_, by rfl⟩
  exact (hnodes _ (Option.some_get hsome).symm).2 Peer.reportsBallot _ hok

end AcidKv
