import AcidKv.Client.KvClient
import AcidKv.Lib.Projection
import AcidKv.Properties.RegionIds

/-!
# Requests over the network

Clients do not see the coordinator but the services of a node, next to which other nodes send Raft
messages and operators split regions.  The requests for transactions are calls of the coordinator,
at a timestamp of the node's clock if a read names none; all others leave the store and the clock
alone.  So a node that serves any requests in any order does to its store what the coordinator does
with the calls among them, and what a client is told is what the coordinator has answered
(`node_refines_coordinator`).
-/

namespace AcidKv

open Raft

/-! ## Requests as calls -/

/-- The version that a read names. -/
def requestVersion : (m : Method) → Request m → Option UInt64
  | .get, req => some (GetRequest.version req)
  | .scan, req => some (ScanRequest.version req)
  | _, _ => none

/-- The call of the coordinator that a request stands for, with the timestamp for a read. -/
def requestCall (readTs : UInt64) : (m : Method) → Request m → Option Call
  | .get, req => some (.get (GetRequest.key req) readTs)
  | .scan, req => some (.scan (ScanRequest.startKey req) (ScanRequest.endKey req)
      (ScanRequest.limit req) readTs)
  | .batchPrewrite, req => some (BatchPrewriteRequest.call req)
  | .batchCommit, req => some (BatchCommitRequest.call req)
  | .prewrite, req => some (.prewrite (PrewriteRequest.startTs req)
      ((PrewriteRequest.mutations req).map KvMutation.mutation) (PrewriteRequest.primaryLock req)
      (PrewriteRequest.lockTtl req))
  | .commit, req => some (.commit (CommitRequest.startTs req) (CommitRequest.commitTs req)
      (CommitRequest.keys req))
  | .rollback, req => some (.rollback (RollbackRequest.startTs req) (RollbackRequest.keys req))
  | .checkTxnStatus, req => some (.checkTxnStatus (CheckTxnStatusRequest.primaryKey req)
      (CheckTxnStatusRequest.lockTs req))
  | .heartBeat, req => some (.heartbeat (TxnHeartBeatRequest.primaryLock req)
      (TxnHeartBeatRequest.startTs req) (TxnHeartBeatRequest.ttl req))
  | _, _ => none

namespace Arrival

/-- The timestamp that a request reads at, and the clock afterwards. -/
def readTs (a : Arrival) (hlc : HlcInner) : UInt64 × HlcInner :=
  match requestVersion a.method a.request with
  | some version =>
      if version = 0 then HybridLogicalClock.now a.physicalNow hlc else (version, hlc)
  | none => (0, hlc)

/-- The event at the coordinator, if the request is one for it. -/
def event (a : Arrival) (hlc : HlcInner) : Option Event :=
  (requestCall (a.readTs hlc).1 a.method a.request).map fun call => { call, clock := a.clock }

/-- The events at the coordinator in a run, as the clock goes along. -/
def events : HlcInner → List Arrival → List Event
  | _, [] => []
  | hlc, a :: as => (a.event hlc).toList ++ events (a.readTs hlc).2 as

/-- The request is one for the coordinator. -/
def ForCoordinator (a : Arrival) : Prop := (requestCall 0 a.method a.request).isSome

instance : DecidablePred ForCoordinator := fun a =>
  inferInstanceAs (Decidable ((requestCall 0 a.method a.request).isSome = true))

end Arrival

/-! ## Answers as outcomes -/

/-- How an answer of the coordinator is reported. -/
inductive ReportedAs : (m : Method) → Answer → Except RpcStatus (Response m) → Prop where
  | value (x : Option Bytes) :
      ReportedAs .get (.ok (.value x)) (.ok (KvGetResponse.mk x.isSome (x.getD []) ""))
  | pairs (kvs : List (Bytes × Bytes)) :
      ReportedAs .scan (.ok (.pairs kvs)) (.ok (ScanResponse.mk kvs ""))
  | batchPrewritten : ReportedAs .batchPrewrite (.ok .done) (.ok Done.mk)
  | batchCommitted : ReportedAs .batchCommit (.ok .done) (.ok Done.mk)
  | prewritten : ReportedAs .prewrite (.ok .done) (.ok Done.mk)
  | committed : ReportedAs .commit (.ok .done) (.ok Done.mk)
  | rolledBack : ReportedAs .rollback (.ok .done) (.ok Done.mk)
  | status (s : TxnStatus) :
      ReportedAs .checkTxnStatus (.ok (.status s)) (.ok (NodeState.statusResponse s))
  | ttl (t : UInt64) :
      ReportedAs .heartBeat (.ok (.ttl t)) (.ok (TxnHeartBeatResponse.mk true t ""))
  | internal {m : Method} (e : TxnError)
      (h : m ∈ [Method.get, .scan, .batchCommit, .commit, .rollback]) :
      ReportedAs m (.error e) (.error ⟨.internal, e.toString⟩)
  | aborted {m : Method} (e : TxnError) (h : m ∈ [Method.batchPrewrite, .prewrite]) :
      ReportedAs m (.error e) (.error ⟨.aborted, e.toString⟩)
  | statusError (e : TxnError) :
      ReportedAs .checkTxnStatus (.error e) (.ok (CheckTxnStatusResponse.mk 0 0 false e.toString))
  | heartBeatError (e : TxnError) :
      ReportedAs .heartBeat (.error e) (.ok (TxnHeartBeatResponse.mk false 0 e.toString))

/-- What a method of the client returns for an answer of the coordinator.  A heartbeat that has
failed is no error but `false`. -/
inductive Tells : ClientCall → Answer → Except RpcStatus ClientResult → Prop where
  | value (key : Bytes) (x : Option Bytes) : Tells (.get key) (.ok (.value x)) (.ok (.value x))
  | valueAt (key : Bytes) (ts : UInt64) (x : Option Bytes) :
      Tells (.txnGet key ts) (.ok (.value x)) (.ok (.value x))
  | pairs (a b : Bytes) (n : UInt32) (kvs : List (Bytes × Bytes)) :
      Tells (.scan a b n) (.ok (.pairs kvs)) (.ok (.pairs kvs))
  | done {c : ClientCall}
      (h : c.method ∈ [Method.prewrite, .commit, .batchPrewrite, .batchCommit, .rollback]) :
      Tells c (.ok .done) (.ok .done)
  | internal {c : ClientCall} (e : TxnError)
      (h : c.method ∈ [Method.get, .scan, .batchCommit, .commit, .rollback]) :
      Tells c (.error e) (.error ⟨.internal, e.toString⟩)
  | aborted {c : ClientCall} (e : TxnError) (h : c.method ∈ [Method.batchPrewrite, .prewrite]) :
      Tells c (.error e) (.error ⟨.aborted, e.toString⟩)
  | alive (s : UInt64) (p : Bytes) (ttl t : UInt64) :
      Tells (.txnHeartbeat s p ttl) (.ok (.ttl t)) (.ok (.alive true))
  | notAlive (s : UInt64) (p : Bytes) (ttl : UInt64) (e : TxnError) :
      Tells (.txnHeartbeat s p ttl) (.error e) (.ok (.alive false))

/-- A client is told what is reported to it. -/
lemma ReportedAs.tells {c : ClientCall} {ans : Answer} {out : Except RpcStatus (Response c.method)}
    (h : ReportedAs c.method ans out) : Tells c ans (out.map c.decode) := by
  cases c with
  | get key =>
      cases h with
      | value x =>
          cases x with
          | none => exact .value key none
          | some v => exact .value key (some v)
      | internal e h => exact .internal e h
      | aborted e h => exact .aborted e h
  | txnGet key ts =>
      cases h with
      | value x =>
          cases x with
          | none => exact .valueAt key ts none
          | some v => exact .valueAt key ts (some v)
      | internal e h => exact .internal e h
      | aborted e h => exact .aborted e h
  | scan a b n =>
      cases h with
      | pairs kvs => exact .pairs a b n kvs
      | internal e h => exact .internal e h
      | aborted e h => exact .aborted e h
  | askSplit r k =>
      cases h with
      | internal e h => exact .internal e h
      | aborted e h => exact .aborted e h
  | txnHeartbeat s p ttl =>
      cases h with
      | ttl t => exact .alive s p ttl t
      | heartBeatError e => exact .notAlive s p ttl e
      | internal e h => exact .internal e h
      | aborted e h => exact .aborted e h
  | _ =>
      cases h with
      | internal e h => exact .internal e h
      | aborted e h => exact .aborted e h
      | _ => exact .done (by simp [ClientCall.method])

/-! ## One request -/

section

variable {api : RawNodeApi} (pb : Protobuf) (parse : Bytes → Option api.Message)

/-- What a request for the coordinator does to a node: its answer to the call is reported, and the
store is the one that the call leaves. -/
def ServedBy (st : NodeState api) (m : Method) (res : Except RpcStatus (Response m) × NodeState api)
    (call : Call) (clock : ℕ → UInt64) (hlc : HlcInner) : Prop :=
  ReportedAs m (call.handler.run clock st.storage).1 res.1 ∧
    res.2 = { st with storage := (call.handler.run clock st.storage).2, hlc }

variable {st : NodeState api} {m : Method} {α : Type} {x : Handler TxnError α} {call : Call}
  {clock : ℕ → UInt64} {respond : α → Response m} (reply : α → Reply)

/-- A method that fails with the coordinator, after the clock has been read or not. -/
lemma servedBy_attempt {code : Code} {hlc : HlcInner}
    (hcall : call.handler = x >>= fun a => pure (reply a))
    (hok : ∀ a, ReportedAs m (.ok (reply a)) (.ok (respond a)))
    (herror : ∀ e : TxnError, ReportedAs m (.error e) (.error ⟨code, e.toString⟩)) :
    ServedBy st m (NodeState.attempt { st with hlc } x clock code respond) call clock hlc := by
  unfold ServedBy
  rw [hcall, Prog.run_map]
  unfold NodeState.attempt NodeState.serve
  cases hrun : x.run clock st.storage with
  | mk out storage =>
      cases out with
      | ok a => exact ⟨hok a, rfl⟩
      | error e => exact ⟨herror e, rfl⟩

/-- A method that reports the errors of the coordinator in its response. -/
lemma servedBy_inform {complain : String → Response m}
    (hcall : call.handler = x >>= fun a => pure (reply a))
    (hok : ∀ a, ReportedAs m (.ok (reply a)) (.ok (respond a)))
    (herror : ∀ e : TxnError, ReportedAs m (.error e) (.ok (complain e.toString))) :
    ServedBy st m (st.inform x clock respond complain) call clock st.hlc := by
  unfold ServedBy
  rw [hcall, Prog.run_map]
  unfold NodeState.inform NodeState.serve
  cases hrun : x.run clock st.storage with
  | mk out storage =>
      cases out with
      | ok a => exact ⟨hok a, rfl⟩
      | error e => exact ⟨herror e, rfl⟩

/-- The node settles the timestamp of a read before it calls the coordinator. -/
lemma readTs_of_version {a : Arrival} {version : UInt64}
    (h : requestVersion a.method a.request = some version) (st : NodeState api) :
    st.readTs version a.physicalNow =
      ((a.readTs st.hlc).1, { st with hlc := (a.readTs st.hlc).2 }) := by
  simp only [NodeState.readTs, Arrival.readTs, h]
  split_ifs <;> rfl

/-- A node serves a request for the coordinator. -/
lemma answer_of_call {a : Arrival} {call : Call}
    (h : requestCall (a.readTs st.hlc).1 a.method a.request = some call) :
    ServedBy st a.method (st.answer pb parse a) call a.clock (a.readTs st.hlc).2 := by
  obtain ⟨m, req, physicalNow, clock⟩ := a
  cases m with
  | get =>
      cases h
      have hread := readTs_of_version (a := .mk .get req physicalNow clock) rfl st
      have hts := congrArg Prod.fst hread
      have hst := congrArg Prod.snd hread
      unfold ServedBy
      rw [Call.handler, Prog.run_map]
      cases hrun : (Coordinator.get (GetRequest.key req)
          ((Arrival.mk .get req physicalNow clock).readTs st.hlc).1).run clock st.storage with
      | mk out storage =>
          have hget := NodeState.get_of_run (hts ▸ hrun)
          simp only [NodeState.answer, NodeState.handle, NodeState.kvGet, hget, hst]
          cases out with
          | ok x => exact ⟨.value x, trivial⟩
          | error e => exact ⟨.internal e (by simp), trivial⟩
  | scan =>
      cases h
      have hread := readTs_of_version (a := .mk .scan req physicalNow clock) rfl st
      simp only [NodeState.answer, NodeState.handle, NodeState.scan]
      rw [hread]
      exact servedBy_attempt .pairs rfl .pairs fun e => .internal e (by simp)
  | batchPrewrite =>
      cases h
      exact servedBy_attempt (fun _ => .done) rfl (fun _ => .batchPrewritten)
        fun e => .aborted e (by simp)
  | batchCommit =>
      cases h
      exact servedBy_attempt (fun _ => .done) rfl (fun _ => .batchCommitted)
        fun e => .internal e (by simp)
  | prewrite =>
      cases h
      exact servedBy_attempt (fun _ => .done) rfl (fun _ => .prewritten)
        fun e => .aborted e (by simp)
  | commit =>
      cases h
      exact servedBy_attempt (fun _ => .done) rfl (fun _ => .committed)
        fun e => .internal e (by simp)
  | rollback =>
      cases h
      exact servedBy_attempt (fun _ => .done) rfl (fun _ => .rolledBack)
        fun e => .internal e (by simp)
  | checkTxnStatus =>
      cases h
      exact servedBy_inform .status rfl .status .statusError
  | heartBeat =>
      cases h
      exact servedBy_inform .ttl rfl .ttl .heartBeatError
  | _ => cases h

/-! ## Requests for others -/

lemma deliver_keeps (st : NodeState api) (msg : RaftMessage) :
    (st.deliver pb parse msg).storage = st.storage ∧ (st.deliver pb parse msg).hlc = st.hlc ∧
      (st.deliver pb parse msg).router = st.router ∧
      (st.deliver pb parse msg).nextRegionId = st.nextRegionId := by
  unfold NodeState.deliver NodeState.raft
  cases parse msg.messageData with
  | none => exact ⟨rfl, rfl, rfl, rfl⟩
  | some m =>
      cases st.raftNodes[msg.regionId]? with
      | none => exact ⟨rfl, rfl, rfl, rfl⟩
      | some node => exact ⟨rfl, rfl, rfl, rfl⟩

lemma step_keeps (st : NodeState api) (msgs : List RaftMessage) :
    (st.step pb parse msgs).storage = st.storage ∧ (st.step pb parse msgs).hlc = st.hlc ∧
      (st.step pb parse msgs).router = st.router ∧
      (st.step pb parse msgs).nextRegionId = st.nextRegionId := by
  unfold NodeState.step
  induction msgs generalizing st with
  | nil => exact ⟨rfl, rfl, rfl, rfl⟩
  | cons msg msgs ih =>
      obtain ⟨h₁, h₂, h₃, h₄⟩ := deliver_keeps pb parse st msg
      obtain ⟨h₁', h₂', h₃', h₄'⟩ := ih (st.deliver pb parse msg)
      exact ⟨h₁'.trans h₁, h₂'.trans h₂, h₃'.trans h₃, h₄'.trans h₄⟩

/-- A split changes neither the store nor the clock. -/
lemma splitStep_keeps {st' : NodeState api} {created : Option UInt64}
    (h : NodeState.SplitStep pb st created st') : st'.storage = st.storage ∧ st'.hlc = st.hlc := by
  cases h with
  | refused => exact ⟨rfl, rfl⟩
  | failed h => exact ⟨rfl, rfl⟩
  | @created call halves h =>
      obtain ⟨raftNodes, heq, -⟩ :=
        NodeState.addRaftNode_eq pb (st.splitCall call) st.nextRegionId
      rw [heq]
      exact ⟨rfl, rfl⟩

/-- Whether a request is one for the coordinator does not depend on the timestamp. -/
lemma forCoordinator_iff (a : Arrival) (ts : UInt64) :
    a.ForCoordinator ↔ (requestCall ts a.method a.request).isSome := by
  obtain ⟨m, req, physicalNow, clock⟩ := a
  cases m <;> exact Iff.rfl

/-- All other requests leave the store and the clock alone. -/
lemma answer_of_other {a : Arrival} (h : ¬ a.ForCoordinator) (st : NodeState api) :
    (st.answer pb parse a).2.storage = st.storage ∧ (st.answer pb parse a).2.hlc = st.hlc ∧
      a.event st.hlc = none ∧ (a.readTs st.hlc).2 = st.hlc := by
  obtain ⟨m, req, physicalNow, clock⟩ := a
  cases m with
  | executeTxn => exact ⟨rfl, rfl, rfl, rfl⟩
  | askSplit =>
      obtain ⟨hstorage, hhlc⟩ := splitStep_keeps pb (NodeState.split_step pb st req)
      exact ⟨hstorage, hhlc, rfl, rfl⟩
  | reportRegionStats => exact ⟨rfl, rfl, rfl, rfl⟩
  | sendMessage =>
      obtain ⟨hstorage, hhlc, -, -⟩ := deliver_keeps pb parse st req
      exact ⟨hstorage, hhlc, rfl, rfl⟩
  | streamSnapshot => exact ⟨rfl, rfl, rfl, rfl⟩
  | step =>
      obtain ⟨hstorage, hhlc, -, -⟩ := step_keeps pb parse st req
      exact ⟨hstorage, hhlc, rfl, rfl⟩
  | _ => exact absurd rfl h

end

/-! ## Runs -/

/-- The call that a method of the client is meant to make, with `now` for the current timestamp.
`txn_get` at 0 reads at the current one too. -/
def ClientCall.meant (now : UInt64) : ClientCall → Option Call
  | .get key => some (.get key now)
  | .scan startKey endKey limit => some (.scan startKey endKey limit now)
  | .txnGet key startTs => some (.get key (if startTs = 0 then now else startTs))
  | .txnPrewrite startTs mutations primaryKey lockTtl =>
      some (.prewrite startTs (mutations.map Mutation.submitted) primaryKey lockTtl)
  | .txnCommit startTs commitTs keys => some (.commit startTs commitTs keys)
  | .batchPrewrite startTs mutations primaryKey lockTtl =>
      some (.batchPrewrite startTs (mutations.map Mutation.submitted) primaryKey lockTtl)
  | .batchCommit startTs commitTs keys => some (.batchCommit startTs commitTs keys)
  | .askSplit _ _ => none
  | .txnRollback startTs keys => some (.rollback startTs keys)
  | .txnHeartbeat startTs primaryKey ttl => some (.heartbeat primaryKey startTs ttl)

/-- A client's request is the call that is meant. -/
lemma requestCall_arrival (c : ClientCall) (physicalNow : UInt64) (clock : ℕ → UInt64)
    (hlc : HlcInner) :
    requestCall ((c.arrival physicalNow clock).readTs hlc).1 c.method c.request =
      c.meant (HybridLogicalClock.now physicalNow hlc).1 := by
  cases c with
  | txnGet key startTs =>
      simp only [requestCall, ClientCall.meant, Arrival.readTs, ClientCall.arrival, requestVersion,
        ClientCall.method, ClientCall.request]
      split_ifs <;> rfl
  | txnPrewrite startTs mutations primaryKey lockTtl =>
      have hbatch := KvClient.call_batchPrewrite startTs mutations primaryKey lockTtl
      simp only [BatchPrewriteRequest.call, KvClient.batchPrewrite, Call.batchPrewrite.injEq]
        at hbatch
      simp only [requestCall, ClientCall.meant, ClientCall.method, ClientCall.request, hbatch.2.1]
  | batchPrewrite startTs mutations primaryKey lockTtl =>
      exact congrArg some (KvClient.call_batchPrewrite startTs mutations primaryKey lockTtl)
  | _ => rfl

/-- What went over the network agrees with an entry of the coordinator's log: the answer is
reported, and if a client has made the request, it is the call that was meant and the client is told
its answer. -/
structure Matches (x : Sigma Outcome) (en : Entry) : Prop where
  reported : ∃ ans, en.reply = some ans ∧ ReportedAs x.1.method ans x.2
  told : ∀ (c : ClientCall) physicalNow clock out, x = ⟨c.arrival physicalNow clock, out⟩ →
    (∃ now, c.meant now = some en.event.call) ∧
      ∃ ans, en.reply = some ans ∧ Tells c ans (out.map c.decode)

lemma matches_of_call {api : RawNodeApi} {pb : Protobuf} {parse : Bytes → Option api.Message}
    {st : NodeState api} {a : Arrival} {call : Call}
    (h : requestCall (a.readTs st.hlc).1 a.method a.request = some call) :
    Matches ⟨a, (st.answer pb parse a).1⟩
      ⟨{ call, clock := a.clock }, some (call.handler.run a.clock st.storage).1⟩ := by
  have hreport := (answer_of_call pb parse h).1
  refine ⟨⟨_, rfl, hreport⟩, ?_⟩
  rintro c physicalNow clock out hx
  obtain ⟨rfl, hout⟩ := Sigma.mk.inj hx
  obtain rfl := eq_of_heq hout
  exact ⟨⟨_, (requestCall_arrival c physicalNow clock st.hlc).symm.trans h⟩, _, rfl, hreport.tells⟩

/-- A run from any log on. -/
lemma refines_from {api : RawNodeApi} (pb : Protobuf) (parse : Bytes → Option api.Message)
    (st : NodeState api) (as : List Arrival) (log : List Entry) :
    ∃ entries, ((Config.mk log st.storage).steps (Arrival.events st.hlc as)) =
        ⟨log ++ entries, (after (NodeState.answer pb parse) st as).storage⟩ ∧
      List.Forall₂ Matches
        ((answers (NodeState.answer pb parse) st as).filter fun x => x.1.ForCoordinator)
        entries := by
  induction as generalizing st log with
  | nil => exact ⟨[], by simp [Config.steps, Arrival.events, after], .nil⟩
  | cons a as ih =>
      by_cases ha : a.ForCoordinator
      · obtain ⟨call, hcall⟩ := Option.isSome_iff_exists.mp
          ((forCoordinator_iff a (a.readTs st.hlc).1).mp ha)
        have hnext := (answer_of_call pb parse hcall).2
        obtain ⟨entries, hsteps, hmatch⟩ := ih (st.answer pb parse a).2
          (log ++ [⟨{ call, clock := a.clock }, some (call.handler.run a.clock st.storage).1⟩])
        refine ⟨⟨{ call, clock := a.clock }, some (call.handler.run a.clock st.storage).1⟩ ::
          entries, ?_, ?_⟩
        · rw [← List.append_cons] at hsteps
          rw [hnext] at hsteps
          simp only [Arrival.events, Arrival.event, hcall]
          rw [after, List.foldl_cons, hnext]
          exact hsteps
        · simp only [answers, List.filter_cons, decide_eq_true ha, if_true]
          exact .cons (matches_of_call hcall) hmatch
      · obtain ⟨hstorage, hhlc, hevent, hclock⟩ := answer_of_other pb parse ha st
        obtain ⟨entries, hsteps, hmatch⟩ := ih (st.answer pb parse a).2 log
        refine ⟨entries, ?_, ?_⟩
        · rw [hstorage, hhlc] at hsteps
          simp only [Arrival.events, hevent, hclock]
          exact hsteps
        · simp only [answers, List.filter_cons, decide_eq_false ha, Bool.false_eq_true, if_false]
          exact hmatch

/-- **The services refine the coordinator.**  Whatever requests a node serves, its store is the one
that the coordinator leaves after the calls among them, at the timestamps that the clock gives for
them, and what was reported and told for them matches the coordinator's log one by one. -/
theorem node_refines_coordinator {api : RawNodeApi} (pb : Protobuf)
    (parse : Bytes → Option api.Message) (st : NodeState api) (as : List Arrival) :
    (after (NodeState.answer pb parse) st as).storage =
        ((Config.mk [] st.storage).steps (Arrival.events st.hlc as)).store ∧
      List.Forall₂ Matches
        ((answers (NodeState.answer pb parse) st as).filter fun x => x.1.ForCoordinator)
        ((Config.mk [] st.storage).steps (Arrival.events st.hlc as)).log := by
  obtain ⟨entries, hsteps, hmatch⟩ := refines_from pb parse st as []
  rw [hsteps]
  exact ⟨rfl, hmatch⟩

/-! ## Two runs

Requests for the coordinator see the store and the clock, and no others change them; splits at a key
that is named see the router and the counter for ids, and no others change those.
-/

/-- An answer is reported in one way. -/
lemma ReportedAs.unique {m : Method} {ans : Answer} {out out' : Except RpcStatus (Response m)}
    (h : ReportedAs m ans out) (h' : ReportedAs m ans out') : out = out' := by
  cases h with
  | internal e hm =>
      cases h' with
      | internal e' hm' => rfl
      | aborted e' hm' => simp at hm hm'; rcases hm' with rfl | rfl <;> simp at hm
      | statusError e' => simp at hm
      | heartBeatError e' => simp at hm
  | aborted e hm =>
      cases h' with
      | internal e' hm' => simp at hm hm'; rcases hm with rfl | rfl <;> simp at hm'
      | aborted e' hm' => rfl
      | statusError e' => simp at hm
      | heartBeatError e' => simp at hm
  | statusError e =>
      cases h' with
      | statusError e' => rfl
      | internal e' hm' => simp at hm'
      | aborted e' hm' => simp at hm'
  | heartBeatError e =>
      cases h' with
      | heartBeatError e' => rfl
      | internal e' hm' => simp at hm'
      | aborted e' hm' => simp at hm'
  | _ => cases h'; rfl

/-- A request for a split names the key. -/
def namesSplitKey : (m : Method) → Request m → Prop
  | .askSplit, req => AskSplitRequest.splitKey req ≠ []
  | _, _ => True

section

variable {api : RawNodeApi} (pb : Protobuf) (parse : Bytes → Option api.Message)

lemma projects_store : Projects (NodeState.answer pb parse) (fun _ => True) (fun _ => True)
    Arrival.ForCoordinator fun st => (st.storage, st.hlc) where
  keeps _ _ _ _ := trivial
  unseen st a _ _ ha := by
    obtain ⟨hstorage, hhlc, -, -⟩ := answer_of_other pb parse ha st
    rw [hstorage, hhlc]
  seen st st' a _ _ _ ha hst := by
    obtain ⟨hstorage, hhlc⟩ := Prod.mk.inj hst
    obtain ⟨call, hcall⟩ := Option.isSome_iff_exists.mp
      ((forCoordinator_iff a (a.readTs st.hlc).1).mp ha)
    obtain ⟨hreport, hnext⟩ := answer_of_call pb parse hcall
    obtain ⟨hreport', hnext'⟩ := answer_of_call pb parse (hhlc ▸ hcall)
    rw [← hstorage] at hreport' hnext'
    exact ⟨hreport.unique hreport', by rw [hnext, hnext', hhlc]⟩

/-- A split at a named key, on nodes with the same router and counter. -/
lemma askSplit_congr {st st' : NodeState api} {req : AskSplitRequest} (hkey : req.splitKey ≠ [])
    (hrouter : st.router = st'.router) (hnext : st.nextRegionId = st'.nextRegionId) :
    (st.askSplit pb req).1 = (st'.askSplit pb req).1 ∧
      (st.askSplit pb req).2.router = (st'.askSplit pb req).2.router ∧
      (st.askSplit pb req).2.nextRegionId = (st'.askSplit pb req).2.nextRegionId := by
  cases hregion : st'.router.getRegion req.regionId with
  | none =>
      simp only [NodeState.askSplit, NodeState.split, hrouter, hregion, hnext, and_self]
  | some region =>
      cases hsplit : st'.router.splitRegion req.regionId req.splitKey st'.nextRegionId with
      | mk res router =>
          simp only [NodeState.askSplit, NodeState.split, NodeState.splitKeyFor,
            NodeState.splitNext, NodeState.allocRegionId, hrouter, hnext, hregion, hkey, ne_eq,
            not_false_iff, if_true, hsplit]
          cases res with
          | error e => exact ⟨rfl, rfl, rfl⟩
          | ok halves =>
              obtain ⟨left, right⟩ := halves
              obtain ⟨nodes, heq, -⟩ := NodeState.addRaftNode_eq pb
                { st with router, nextRegionId := st'.nextRegionId + 1 } st'.nextRegionId
              obtain ⟨nodes', heq', -⟩ := NodeState.addRaftNode_eq pb
                { st' with router, nextRegionId := st'.nextRegionId + 1 } st'.nextRegionId
              exact ⟨rfl,
                (congrArg NodeState.router heq).trans (congrArg NodeState.router heq').symm,
                (congrArg NodeState.nextRegionId heq).trans
                  (congrArg NodeState.nextRegionId heq').symm⟩

lemma projects_router : Projects (NodeState.answer pb parse) (fun _ => True)
    (fun a => namesSplitKey a.method a.request) (fun a => a.method = .askSplit)
    fun st => (st.router, st.nextRegionId) where
  keeps _ _ _ _ := trivial
  unseen st a _ _ ha := by
    by_cases hcoord : a.ForCoordinator
    · obtain ⟨call, hcall⟩ := Option.isSome_iff_exists.mp
        ((forCoordinator_iff a (a.readTs st.hlc).1).mp hcoord)
      rw [(answer_of_call pb parse hcall).2]
    · obtain ⟨m, req, physicalNow, clock⟩ := a
      cases m with
      | askSplit => exact absurd rfl ha
      | executeTxn => rfl
      | reportRegionStats => rfl
      | streamSnapshot => rfl
      | sendMessage =>
          obtain ⟨-, -, hrouter, hnext⟩ := deliver_keeps pb parse st req
          exact Prod.ext hrouter hnext
      | step =>
          obtain ⟨-, -, hrouter, hnext⟩ := step_keeps pb parse st req
          exact Prod.ext hrouter hnext
      | _ => exact absurd rfl hcoord
  seen st st' a _ _ hok ha hst := by
    obtain ⟨hrouter, hnext⟩ := Prod.mk.inj hst
    obtain ⟨m, req, physicalNow, clock⟩ := a
    cases ha
    obtain ⟨hres, hrouter', hnext'⟩ := askSplit_congr pb hok hrouter hnext
    exact ⟨congrArg Except.ok hres, Prod.ext hrouter' hnext'⟩

end

/-- **Data and regions do not interfere.**  A run leaves the same store and clock, and answers the
requests for the coordinator alike, if all others are left out of it; and if its splits name their
keys, it leaves the same regions and answers the splits alike with the splits alone. -/
theorem data_and_regions_independent {api : RawNodeApi} (pb : Protobuf)
    (parse : Bytes → Option api.Message) (st : NodeState api) (as : List Arrival) :
    let run := after (NodeState.answer pb parse) st
    let told := answers (NodeState.answer pb parse) st
    let data := as.filter fun a => a.ForCoordinator
    let splits := as.filter fun a => a.method = .askSplit
    ((run as).storage = (run data).storage ∧ (run as).hlc = (run data).hlc ∧
        (told as).filter (fun x => x.1.ForCoordinator) = told data) ∧
      ((∀ a ∈ as, namesSplitKey a.method a.request) →
        (run as).router = (run splits).router ∧
          (run as).nextRegionId = (run splits).nextRegionId ∧
          (told as).filter (fun x => x.1.method = .askSplit) = told splits) := by
  intro run told data splits
  constructor
  · obtain ⟨hstore, hdata⟩ := (projects_store pb parse).run (s := st) (t := st) trivial trivial
      (fun a (_ : a ∈ as) => trivial) rfl
    obtain ⟨hstorage, hhlc⟩ := Prod.mk.inj hstore
    exact ⟨hstorage, hhlc, hdata⟩
  · intro hkeys
    obtain ⟨hregions, hsplits⟩ := (projects_router pb parse).run (s := st) (t := st) trivial trivial
      hkeys rfl
    obtain ⟨hrouter, hnext⟩ := Prod.mk.inj hregions
    exact ⟨hrouter, hnext, hsplits⟩

/-- A region is split between a prewrite and its commit, and a Raft message comes in. -/
def splitInBetween : List Arrival :=
  [(ClientCall.txnPrewrite 65536 [([7], some [1])] [7] 3000).arrival 1 fun _ => 1,
    (ClientCall.askSplit 1 [5]).arrival 2 fun _ => 2,
    ⟨.sendMessage, RaftMessage.mk 1 2 1 [0], 2, fun _ => 2⟩,
    (ClientCall.txnCommit 65536 65537 [[7]]).arrival 3 fun _ => 3,
    (ClientCall.get [7]).arrival 4 fun _ => 4]

/-- Every message is an append without entries, in term 1. -/
def parseAppend : Bytes → Option peerApi.Message := fun _ => some (.append 1 [] 0)

theorem data_and_regions_independent_between :
    (after (NodeState.answer Protobuf.plain parseAppend) started splitInBetween).storage =
        (after (NodeState.answer Protobuf.plain parseAppend) started
          (splitInBetween.filter fun a => a.ForCoordinator)).storage ∧
      (splitInBetween.filter fun a => a.ForCoordinator).length = 3 ∧
      (after (NodeState.answer Protobuf.plain parseAppend) started splitInBetween).router =
        (after (NodeState.answer Protobuf.plain parseAppend) started
          (splitInBetween.filter fun a => a.method = .askSplit)).router ∧
      (splitInBetween.filter fun a => a.method = .askSplit).length = 1 := by
  obtain ⟨hdata, hregions⟩ :=
    data_and_regions_independent Protobuf.plain parseAppend started splitInBetween
  have hkeys : ∀ a ∈ splitInBetween, namesSplitKey a.method a.request := by
    simp [splitInBetween, namesSplitKey, ClientCall.arrival, ClientCall.method, ClientCall.request]
  exact ⟨hdata.1, rfl, (hregions hkeys).1, rfl⟩

end AcidKv
