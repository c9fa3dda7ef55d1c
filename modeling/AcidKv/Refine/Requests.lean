import AcidKv.Refine.Collect
import AcidKv.Refine.Writes
import AcidKv.Lib.Runs

/-!
# Events are sequences of moves

The handler lemmas put together: serving any request, to its end or to any of its batches, is a
sequence of moves, and the reply says what `Call.Outcome` lists.  From here on a property of runs
is an invariant of `Move` for each step of the run.
-/

namespace AcidKv

open Coordinator

/-- What the reply to a request that led from `v₀` to `v` tells. -/
def Call.Outcome (U : Set Bytes) (v₀ v : View) : Call → Answer → Prop
  | .prewrite s ms _ _, out => ∀ r, out = .ok r → ∀ m ∈ ms, Ready U v₀ v s m.key
  | .batchPrewrite s ms _ _, out => ∀ r, out = .ok r → ∀ m ∈ ms, Ready U v₀ v s m.key
  | .rollback s ks, out => out = .ok .done ∧ ∀ k ∈ ks, Barred v k s
  | .get k r, out => ∃ res, out = res.map .value ∧ GetOutcome U v k r res
  | .scan _ _ _ r, out => ∃ res, out = res.map .pairs ∧ ScanOutcome U v r res
  | _, _ => True

/-- The clock readings that an event may get. -/
def Event.Reading (e : Event) (t : UInt64) : Prop := ∃ i, e.clock i = t

section

variable {U : Set Bytes} {T : UInt64 → Prop} {st : Store}

/-- Giving a handler's result a name in the reply type. -/
lemma sat_reply {α : Type} {I : Store → Prop} {x : Handler TxnError α} {f : α → Reply}
    {Q : Answer → Store → Prop}
    (h : x.Sat T I (fun out st' => Q (out.map f) st') st) :
    (x >>= fun a => (pure (f a) : Handler TxnError Reply)).Sat T I Q st := by
  rw [Prog.sat_bind]
  refine h.mono ?_
  rintro (e | a) st' hq
  · exact hq
  · exact hq

theorem handler_sat (h : WF U st) (c : Call) (hU : ∀ k ∈ c.keys, k ∈ U) :
    c.handler.Sat T (Along U T c (view st) (view st))
      (fun out st' => Along U T c (view st) (view st) st' ∧
        c.Outcome U (view st) (view st') out) st := by
  have hdone : ∀ {res : Except TxnError Unit} {r : Reply},
      (res.map fun _ => Reply.done) = .ok r → res = .ok () := by
    rintro (e | u) r hr
    · cases hr
    · rfl
  cases c with
  | prewrite s ms p ttl =>
      have hms : ∀ m ∈ ms, m.key ∈ U := fun m hm =>
        hU _ (List.mem_cons_of_mem p (List.mem_map_of_mem hm))
      refine sat_reply ((prewrite_sat (.refl h) rfl hms fun _ hm => hm).mono ?_)
      exact fun out st' hq => ⟨hq.1, fun r hout => (hq.2 (hdone hout)).2⟩
  | batchPrewrite s ms p ttl =>
      have hms : ∀ m ∈ ms, m.key ∈ U := fun m hm =>
        hU _ (List.mem_cons_of_mem p (List.mem_map_of_mem hm))
      refine sat_reply ((batchPrewrite_sat (.refl h) rfl hms).mono ?_)
      exact fun out st' hq => ⟨hq.1, fun r hout => hq.2 (hdone hout)⟩
  | commit s ct ks =>
      exact sat_reply ((commit_sat h rfl).mono fun out st' hq => ⟨hq, trivial⟩)
  | batchCommit s ct ks =>
      exact sat_reply ((batchCommit_sat h rfl).mono fun out st' hq => ⟨hq, trivial⟩)
  | rollback s ks =>
      refine sat_reply ((rollback_sat (.refl h) rfl hU fun _ hk => hk).mono ?_)
      rintro out st' ⟨halong, -, rfl, hbarred⟩
      exact ⟨halong, rfl, hbarred⟩
  | heartbeat p s ttl =>
      exact sat_reply ((heartbeat_sat h rfl).mono fun out st' hq => ⟨hq, trivial⟩)
  | get k r =>
      have hreads : (Call.get k r).Reads (view st) k r := ⟨rfl, fun l hl => ⟨rfl, hl, rfl⟩⟩
      exact sat_reply ((get_sat h hreads).mono fun out st' hq => ⟨hq.1, out, rfl, hq.2⟩)
  | scan a b n r =>
      have hreads : ∀ k ts w, InRange a b k → (view st).write k ts = some w →
          (Call.scan a b n r).Reads (view st) k r :=
        fun k ts w hk hw => ⟨rfl, fun l hl => ⟨hk, ⟨ts, w, hw⟩, hl, rfl⟩⟩
      exact sat_reply ((scan_sat h hreads).mono fun out st' hq => ⟨hq.1, out, rfl, hq.2⟩)
  | checkTxnStatus p s =>
      refine sat_reply ?_
      simp only [Coordinator.checkTxnStatus, Prog.sat_mapError]
      exact (checkTxnStatus_sat h (Or.inl rfl)).mono fun out st' hq => ⟨hq.1, trivial⟩
  | gc sp =>
      exact sat_reply ((gcKeysOlderThan_sat h rfl).mono fun out st' hq => ⟨hq, trivial⟩)

/-- Serving an event makes moves, and its reply tells the truth. -/
theorem exec_along (h : WF U st) (e : Event) (hU : ∀ k ∈ e.call.keys, k ∈ U) :
    Along U e.Reading e.call (view st) (view st) (e.exec st).2 ∧
      ∀ out, (e.exec st).1 = some out →
        e.call.Outcome U (view st) (view (e.exec st).2) out := by
  have hsat := @handler_sat U e.Reading st h e.call hU
  have hclock : ∀ i, e.Reading (e.clock i) := fun i => ⟨i, rfl⟩
  unfold Event.exec
  cases e.stop with
  | none =>
      obtain ⟨halong, -, hout⟩ := hsat.run (.refl h) hclock
      exact ⟨halong, fun out ho => by cases ho; exact hout⟩
  | some n => exact ⟨hsat.stopAfter (.refl h) hclock n, fun out ho => by cases ho⟩

/-- A read that returns has read the view it leaves. -/
theorem get_reply (h : WF U st) {e : Event} {k : Bytes} {r : UInt64} {x : Option Bytes}
    (hU : ∀ k ∈ e.call.keys, k ∈ U) (hcall : e.call = .get k r)
    (hreply : (e.exec st).1 = some (.ok (.value x))) :
    ReadOutcome U (view (e.exec st).2) k r (.ok x) := by
  have hout := (exec_along h e hU).2 _ hreply
  rw [hcall] at hout
  obtain ⟨res, hres, hget⟩ := hout
  cases res with
  | error err => cases hres
  | ok x' => cases hres; exact hget

/-- What a scan that returns has read on its way holds at its end, if its moves keep it. -/
theorem scan_reply (h : WF U st) {e : Event} {a b : Bytes} {n : UInt32} {r : UInt64}
    {kvs : List (Bytes × Bytes)} {P : View → Bytes × Bytes → Prop}
    (hcall : e.call = .scan a b n r) (hreply : (e.exec st).1 = some (.ok (.pairs kvs)))
    (hread : ∀ v k x, Moves U e.Reading e.call (view st) (view st) v →
      ReadOutcome U v k r (.ok (some x)) → P v (k, x))
    (hkeep : ∀ v v' y, Moves U e.Reading e.call (view st) (view st) v →
      Move U e.Reading e.call (view st) v v' → P v y → P v' y) :
    ∀ y ∈ kvs, P (view (e.exec st).2) y := by
  rw [hcall] at hread hkeep
  have hsat : e.call.handler.Sat e.Reading
      (Along U e.Reading (.scan a b n r) (view st) (view st))
      (fun out st' => out = .ok (.pairs kvs) → ∀ y ∈ kvs, P (view st') y) st := by
    rw [hcall]
    refine sat_reply ((scan_found h hread hkeep).mono ?_)
    rintro (err | kvs') st' hfound hout
    · cases hout
    · cases hout
      exact hfound kvs rfl
  revert hreply
  unfold Event.exec
  cases e.stop with
  | none =>
      intro hreply
      exact (hsat.run (.refl h) fun i => ⟨i, rfl⟩).2 (Option.some.inj hreply)
  | some m => rintro ⟨⟩

/-- A rollback that returns has barred its keys. -/
theorem rollback_reply (h : WF U st) {e : Event} {s : UInt64} {ks : List Bytes}
    (hU : ∀ k ∈ e.call.keys, k ∈ U) (hcall : e.call = .rollback s ks) {out : Answer}
    (hreply : (e.exec st).1 = some out) : ∀ k ∈ ks, Barred (view (e.exec st).2) k s := by
  have hout := (exec_along h e hU).2 _ hreply
  rw [hcall] at hout
  exact hout.2

/-- A prewrite that returns `Ok` found its keys ready. -/
theorem prewrite_reply (h : WF U st) {e : Event} {s ttl : UInt64} {ms : List Mutation} {p : Bytes}
    (hU : ∀ k ∈ e.call.keys, k ∈ U) (hcall : e.call.prewriteArgs = some (s, ms, p, ttl)) {r : Reply}
    (hreply : (e.exec st).1 = some (.ok r)) :
    ∀ m ∈ ms, Ready U (view st) (view (e.exec st).2) s m.key := by
  have hout := (exec_along h e hU).2 _ hreply
  revert hout hcall
  cases e.call with
  | prewrite _ _ _ _ =>
      intro hcall hout
      cases hcall
      exact hout r rfl
  | batchPrewrite _ _ _ _ =>
      intro hcall hout
      cases hcall
      exact hout r rfl
  | _ =>
      intro hcall
      cases hcall

/-- A prewrite that returns `Ok` has locked its keys. -/
theorem prewrite_reply_prewritten (h : WF U st) {e : Event} {s ttl : UInt64} {ms : List Mutation}
    {p : Bytes} (hU : ∀ k ∈ e.call.keys, k ∈ U)
    (hcall : e.call.prewriteArgs = some (s, ms, p, ttl)) {r : Reply}
    (hreply : (e.exec st).1 = some (.ok r)) :
    ∀ m ∈ ms, (view (e.exec st).2).Prewritten m.key p s := by
  have hms : ∀ m ∈ ms, m.key ∈ U := by
    intro m hm
    refine hU _ ?_
    cases hc : e.call with
    | prewrite _ _ _ _ =>
        rw [hc] at hcall
        cases hcall
        exact List.mem_cons_of_mem p (List.mem_map_of_mem hm)
    | batchPrewrite _ _ _ _ =>
        rw [hc] at hcall
        cases hcall
        exact List.mem_cons_of_mem p (List.mem_map_of_mem hm)
    | _ => rw [hc] at hcall; cases hcall
  have hsat : e.call.handler.Sat e.Reading (Along U e.Reading e.call (view st) (view st))
      (fun out st' => out = .ok r → ∀ m ∈ ms, (view st').Prewritten m.key p s) st := by
    have hdone : ∀ {res : Except TxnError Unit}, (res.map fun _ => Reply.done) = .ok r →
        res = .ok () := by
      rintro (err | u) hr
      · cases hr
      · rfl
    generalize e.call = c at hcall ⊢
    cases c with
    | prewrite _ _ _ _ =>
        cases hcall
        exact sat_reply ((prewrite_places (.refl h) rfl hms fun _ hm => hm).mono
          fun out st' hq hout => hq (hdone hout))
    | batchPrewrite _ _ _ _ =>
        cases hcall
        exact sat_reply ((batchPrewrite_places (.refl h) rfl hms).mono
          fun out st' hq hout => hq (hdone hout))
    | _ => cases hcall
  revert hreply
  unfold Event.exec
  cases e.stop with
  | none =>
      intro hreply
      exact (hsat.run (.refl h) fun i => ⟨i, rfl⟩).2 (Option.some.inj hreply)
  | some n => rintro ⟨⟩

/-! ## Runs -/

/-- The requests made so far. -/
def Config.calls (cfg : Config) : List Call := cfg.log.map fun en => en.event.call

@[simp] lemma Config.calls_init : Config.init.calls = [] := rfl

@[simp] lemma Config.calls_step (cfg : Config) (e : Event) :
    (cfg.step e).calls = cfg.calls ++ [e.call] := by
  simp [Config.calls, Config.step]

@[simp] lemma Config.steps_append (cfg : Config) (es es' : List Event) :
    cfg.steps (es ++ es') = (cfg.steps es).steps es' := List.foldl_append

lemma Config.guarded_steps {ok : Config → Event → Prop} {cfg : Config} {es es' : List Event} :
    Guarded Config.step ok cfg (es ++ es') ↔
      Guarded Config.step ok cfg es ∧ Guarded Config.step ok (cfg.steps es) es' :=
  guarded_append

@[simp] lemma Config.calls_steps (cfg : Config) (es : List Event) :
    (cfg.steps es).calls = cfg.calls ++ es.map Event.call := by
  induction es generalizing cfg with
  | nil => simp [Config.steps]
  | cons e es ih =>
      have hstep : cfg.steps (e :: es) = (cfg.step e).steps es := rfl
      rw [hstep, ih]
      simp

/-- The rule of invariants for guarded runs: an invariant of the log, of the requests made and of
the view has to survive the arrival of a request, then each of its moves, and then its reply. -/
theorem log_invariant {ok : Config → Event → Prop} {Inv : List Entry → List Call → View → Prop}
    (hU : ∀ cfg e, ok cfg e → ∀ k ∈ e.call.keys, k ∈ U)
    (harrive : ∀ cfg e, ok cfg e → Inv cfg.log cfg.calls (view cfg.store) →
      Inv cfg.log (cfg.calls ++ [e.call]) (view cfg.store))
    (hmove : ∀ cfg e v v', ok cfg e → WF U cfg.store → Inv cfg.log cfg.calls (view cfg.store) →
      Moves U e.Reading e.call (view cfg.store) (view cfg.store) v →
      Inv cfg.log (cfg.calls ++ [e.call]) v → Move U e.Reading e.call (view cfg.store) v v' →
      Inv cfg.log (cfg.calls ++ [e.call]) v')
    (hreply : ∀ cfg e v reply, ok cfg e → Inv cfg.log cfg.calls (view cfg.store) →
      Moves U e.Reading e.call (view cfg.store) (view cfg.store) v →
      Inv cfg.log (cfg.calls ++ [e.call]) v →
      Inv (cfg.log ++ [⟨e, reply⟩]) (cfg.calls ++ [e.call]) v)
    {cfg : Config} {es : List Event} (h : Guarded Config.step ok cfg es)
    (hinit : WF U cfg.store ∧ Inv cfg.log cfg.calls (view cfg.store)) :
    WF U (cfg.steps es).store ∧
      Inv (cfg.steps es).log (cfg.steps es).calls (view (cfg.steps es).store) := by
  refine @Guarded.invariant _ _ _ ok _ _
    (fun cfg => WF U cfg.store ∧ Inv cfg.log cfg.calls (view cfg.store)) h ?_ hinit
  intro cfg e hinv hok
  obtain ⟨hwf, hinv⟩ := hinv
  obtain ⟨halong, -⟩ := exec_along hwf e (hU cfg e hok)
  refine ⟨halong.wf, ?_⟩
  rw [Config.calls_step]
  show Inv (cfg.log ++ [⟨e, (e.exec cfg.store).1⟩]) (cfg.calls ++ [e.call])
    (view (e.exec cfg.store).2)
  refine hreply cfg e _ _ hok hinv halong.moves ?_
  have hmoves := halong.moves
  generalize view (e.exec cfg.store).2 = v' at hmoves ⊢
  induction hmoves with
  | refl => exact harrive cfg e hok hinv
  | tail hprev hlast ih => exact hmove cfg e _ _ hok hwf hinv hprev ih hlast

/-- The rule for invariants that do not look at replies. -/
theorem run_invariant {ok : Config → Event → Prop} {Inv : List Call → View → Prop}
    (hU : ∀ cfg e, ok cfg e → ∀ k ∈ e.call.keys, k ∈ U)
    (harrive : ∀ cfg e, ok cfg e → Inv cfg.calls (view cfg.store) →
      Inv (cfg.calls ++ [e.call]) (view cfg.store))
    (hmove : ∀ cfg e v v', ok cfg e → WF U cfg.store → Inv cfg.calls (view cfg.store) →
      Moves U e.Reading e.call (view cfg.store) (view cfg.store) v →
      Inv (cfg.calls ++ [e.call]) v → Move U e.Reading e.call (view cfg.store) v v' →
      Inv (cfg.calls ++ [e.call]) v')
    {cfg : Config} {es : List Event} (h : Guarded Config.step ok cfg es)
    (hinit : WF U cfg.store ∧ Inv cfg.calls (view cfg.store)) :
    WF U (cfg.steps es).store ∧ Inv (cfg.steps es).calls (view (cfg.steps es).store) :=
  @log_invariant U ok (fun _ calls v => Inv calls v) hU harrive hmove
    (fun _ _ _ _ _ _ _ hinv => hinv) cfg es h hinit

end

end AcidKv
