import AcidKv.Properties.Atomicity
import AcidKv.Properties.CommitReplies
import AcidKv.Properties.History
import AcidKv.Properties.SnapshotReads

/-!
# What the replies promise

Clients draw their timestamps from one clock and keep to the protocol (`Protocol`), and the requests
stay clear of the places where the code goes past the primary key or past a conflict check
(`Protected`).  Then a reply is a promise that the node keeps for good: a value that was read at a
timestamp is what any later read at that timestamp finds, a prewritten key carries the lock or a
record of its transaction, and an acknowledged commit stays committed (`Promised`).
-/

namespace AcidKv

open LockResolver

/-! ## The conditions -/

/-- What keeps a request that begins at `v` from going past a primary key or a conflict check. -/
structure Protected (T : UInt64 → Prop) (log : List Entry) (calls : List Call) (v : View)
    (c : Call) : Prop where
  /-- Locks name the primary key as it is. -/
  stored : ∀ s ms p ttl, c.prewriteArgs = some (s, ms, p, ttl) → Lock.storedKey p = p
  /-- A transaction mutates a key once. -/
  nodup : ∀ s ms p ttl, c.prewriteArgs = some (s, ms, p, ttl) → (ms.map Mutation.key).Nodup
  /-- The status of a transaction is asked for at its primary key. -/
  asked : ∀ k s p, c = .checkTxnStatus k s → PrimaryOf calls s p → k = p
  /-- A batch is committed while the primary key is locked, or after it was committed. -/
  batch : ∀ s ct p rest, c = .batchCommit s ct (p :: rest) →
    v.LockedBy p s ∨ ∃ ct', v.Committed p s ct'
  /-- While the primary of a prewritten transaction is alive, its other locks do not run out by the
  TTL that they are judged by. -/
  inTime : ∀ k l lr lp t t', c.Resolves v k l lr → v.lock k = some l → k ≠ l.primaryKey →
    v.lock l.primaryKey = some lp → lp.startTs = l.startTs → Acked log l.startTs →
    T t → ¬ expired t l.startTs lp.ttl → T t' → ¬ expired t' l.startTs lr.ttl
  /-- A prewrite that rolls a lock forward has seen the commit in its conflict check. -/
  forwards : ForwardsInTime c v

/-- What a client may do next: draws from one clock, one commit timestamp for each transaction, and
requests that carry what was drawn for them, follow the protocol and are protected. -/
structure Protocol (t : Timeline) (a : Action) : Prop where
  later : ∀ ts u, a = .draw ts u → ∀ d ∈ t.drawn, d.1 < ts
  oneCommit : ∀ ct s, a = .draw ct (.commit s) → ∀ ct', (ct', .commit s) ∉ t.drawn
  proper : ∀ e, a = .serve e → Proper t.drawn e.call
  reads : ∀ e r, a = .serve e → e.call.readTs = some r → ∃ use, (r, use) ∈ t.drawn
  follows : ∀ e, a = .serve e → Follows t.config.log t.config.calls e.call
  safe : ∀ e, a = .serve e →
    Protected e.Reading t.config.log t.config.calls (view t.config.store) e.call

lemma protocol_draw {t : Timeline} {ts : UInt64} {u : Use} (hts : ∀ d ∈ t.drawn, d.1 < ts)
    (hone : ∀ s, u = .commit s → ∀ ct, (ct, .commit s) ∉ t.drawn) : Protocol t (.draw ts u) where
  later := by
    rintro ts u ⟨⟩
    exact hts
  oneCommit := by
    rintro ct s ⟨⟩
    exact hone s rfl
  proper := by
    rintro e ⟨⟩
  reads := by
    rintro e r ⟨⟩
  follows := by
    rintro e ⟨⟩
  safe := by
    rintro e ⟨⟩

lemma protocol_serve {t : Timeline} {e : Event} (hproper : Proper t.drawn e.call)
    (hreads : ∀ r, e.call.readTs = some r → ∃ use, (r, use) ∈ t.drawn)
    (hfollows : Follows t.config.log t.config.calls e.call)
    (hsafe : Protected e.Reading t.config.log t.config.calls (view t.config.store) e.call) :
    Protocol t (.serve e) where
  later := by
    rintro ts u ⟨⟩
  oneCommit := by
    rintro ct s ⟨⟩
  proper := by
    rintro e ⟨⟩
    exact hproper
  reads := by
    rintro e r ⟨⟩
    exact hreads r
  follows := by
    rintro e ⟨⟩
    exact hfollows
  safe := by
    rintro e ⟨⟩
    exact hsafe

/-- A read at a timestamp that was drawn keeps to the protocol. -/
lemma protocol_read {t : Timeline} {e : Event} {r : UInt64} (hread : e.call.readTs = some r)
    (hr : ∃ use, (r, use) ∈ t.drawn)
    (hsafe : Protected e.Reading t.config.log t.config.calls (view t.config.store) e.call) :
    Protocol t (.serve e) := by
  refine protocol_serve ?_ (fun r' hr' => Option.some.inj (hread.symm.trans hr') ▸ hr) ?_ hsafe
  · cases hcall : e.call with
    | get k r' => constructor <;> simp [Call.prewriteArgs, Call.commitArgs]
    | scan a b n r' => constructor <;> simp [Call.prewriteArgs, Call.commitArgs]
    | _ => rw [hcall] at hread; cases hread
  · cases hcall : e.call with
    | get k r' => exact follows_get k r'
    | scan a b n r' => constructor <;> simp [Call.prewriteArgs, Call.commitArgs]
    | _ => rw [hcall] at hread; cases hread

/-- A request that is neither a prewrite nor a status query nor a commit in one batch is protected if
the locks that it resolves are in time. -/
lemma protected_of_inTime {T : UInt64 → Prop} {log : List Entry} {calls : List Call} {v : View}
    {c : Call} (hpre : c.prewriteArgs = none) (hask : ∀ k s, c ≠ .checkTxnStatus k s)
    (hbatch : ∀ s ct ks, c ≠ .batchCommit s ct ks)
    (htime : ∀ k l lr lp t t', c.Resolves v k l lr → v.lock k = some l → k ≠ l.primaryKey →
      v.lock l.primaryKey = some lp → lp.startTs = l.startTs → Acked log l.startTs →
      T t → ¬ expired t l.startTs lp.ttl → T t' → ¬ expired t' l.startTs lr.ttl) :
    Protected T log calls v c where
  stored := by simp [hpre]
  nodup := by simp [hpre]
  asked k s p hc := absurd hc (hask k s)
  batch s ct p rest hc := absurd hc (hbatch s ct _)
  inTime := htime
  forwards := by simp [ForwardsInTime, hpre]

/-! ## Records and their timestamps -/

/-- Timestamps are drawn once, locks and records carry those drawn for them, and a rollback record
stands at the start of its transaction. -/
structure Stamped (drawn : List (UInt64 × Use)) (v : View) : Prop extends Clocked drawn v where
  once : DrawnOnce drawn
  ops : LockOps v
  marked : ∀ k ts s, v.write k ts = some ⟨s, .rollback⟩ → ts = s ∧ (s, .start) ∈ drawn

/-- Transaction `s` has a lock or a record on `k`. -/
def Touched (v : View) (k : Bytes) (s : UInt64) : Prop :=
  v.LockedBy k s ∨ (∃ ct, v.Committed k s ct) ∨ v.RolledBack k s

section

variable {U : Set Bytes} {T : UInt64 → Prop} {c : Call} {v₀ v v' : View}
  {drawn : List (UInt64 × Use)} {k : Bytes} {s ct r : UInt64}

lemma Stamped.draw (h : Stamped drawn v) {ts : UInt64} {u : Use} (hts : ∀ d ∈ drawn, d.1 < ts) :
    Stamped (drawn ++ [(ts, u)]) v where
  toClocked := h.toClocked.draw hts
  once := h.once.append hts
  ops := h.ops
  marked k ts s hw := ⟨(h.marked k ts s hw).1, List.mem_append_left _ (h.marked k ts s hw).2⟩

lemma Stamped.move (hc : Proper drawn c) (h : Stamped drawn v) (hmove : Move U T c v₀ v v') :
    Stamped drawn v' where
  toClocked := h.toClocked.move hc hmove
  once := h.once
  ops := h.ops.move hmove
  marked := by
    intro k ts s hw
    rcases hmove.write_origin hw with hold | hnew
    · exact h.marked k ts s hold
    · obtain ⟨hs, hwhy⟩ := hnew.rollback h.ops rfl
      obtain rfl : s = ts := hs
      refine ⟨rfl, ?_⟩
      rcases hwhy with ⟨l, hl, rfl⟩ | ⟨ks, hcall, -⟩
      · exact h.lock k l hl
      · exact hc.rollback s ks hcall

/-- A commit stays: whatever is written over it is a commit of the same transaction. -/
lemma Stamped.keeps_committed (hc : Proper drawn c) (h : Stamped drawn v)
    (hmove : Move U T c v₀ v v') (hcom : v.Committed k s ct) : v'.Committed k s ct := by
  have hdrawn := h.committed k s ct hcom
  have hcommit : ∀ {s'}, (ct, Use.commit s') ∈ drawn → s' = s := fun hs' =>
    Use.commit.inj (h.once.use_unique hs' hdrawn)
  have hstart : (ct, Use.start) ∉ drawn := fun hs => by cases h.once.use_unique hs hdrawn
  obtain ⟨op, hop, hw⟩ := hcom
  obtain ⟨⟨s', op'⟩, hw'⟩ := Option.isSome_iff_exists.mp
    (hmove.write_isSome hc.noGc (by rw [hw]; rfl : (v.write k ct).isSome))
  rcases hmove.write_origin hw' with hold | hnew
  · exact ⟨op, hop, by rw [hw', ← hold, hw]⟩
  · cases hnew with
    | commit hargs _ hl _ hop' _ _ =>
        obtain rfl := hcommit (hc.commit _ ct _ hargs)
        obtain rfl : op' = _ := hop'
        exact ⟨_, h.ops k _ hl, hw'⟩
    | forward hr _ hl _ hop' hp _ _ =>
        obtain rfl := hcommit (h.committed _ _ ct hp)
        obtain rfl : op' = _ := hop'
        refine ⟨_, ?_, hw'⟩
        rcases hr.op with heq | heq
        · exact heq ▸ h.ops k _ hl
        · exact heq ▸ OpType.noConfusion
    | back hl hs _ _ _ => exact absurd (hs ▸ h.lock k _ hl) hstart
    | mark hcall _ _ _ => exact absurd (hc.rollback ct _ hcall) hstart

/-- So does a rollback. -/
lemma Stamped.keeps_rolledBack (hc : Proper drawn c) (h : Stamped drawn v)
    (hmove : Move U T c v₀ v v') (hback : v.RolledBack k s) : v'.RolledBack k s := by
  obtain ⟨ts, hw⟩ := hback
  obtain ⟨rfl, hstart⟩ := h.marked k ts s hw
  have hcommit : ∀ s', (ts, Use.commit s') ∉ drawn := fun s' hs' => by
    cases h.once.use_unique hs' hstart
  obtain ⟨⟨s', op'⟩, hw'⟩ := Option.isSome_iff_exists.mp
    (hmove.write_isSome hc.noGc (by rw [hw]; rfl : (v.write k ts).isSome))
  rcases hmove.write_origin hw' with hold | hnew
  · exact ⟨ts, by rw [hw', ← hold, hw]⟩
  · cases hnew with
    | commit hargs _ _ _ _ _ _ => exact absurd (hc.commit _ ts _ hargs) (hcommit _)
    | forward _ _ _ _ _ hp _ _ => exact absurd (h.committed _ _ ts hp) (hcommit _)
    | back _ _ hw'' _ _ => exact ⟨ts, hw'' ▸ hw'⟩
    | mark _ _ hw'' _ => exact ⟨ts, hw'' ▸ hw'⟩

lemma Touched.move (hc : Proper drawn c) (hst : Stamped drawn v) (hmove : Move U T c v₀ v v')
    (h : Touched v k s) : Touched v' k s := by
  rcases h with ⟨l, hl, rfl⟩ | ⟨ct, hcom⟩ | hback
  · rcases hmove.lock_kept_or_settled hl with hlocked | ⟨ts, op, hw⟩
    · exact Or.inl hlocked
    · by_cases hop : op = .rollback
      · exact Or.inr (Or.inr ⟨ts, hop ▸ hw⟩)
      · exact Or.inr (Or.inl ⟨ts, op, hop, hw⟩)
  · exact Or.inr (Or.inl ⟨ct, hst.keeps_committed hc hmove hcom⟩)
  · exact Or.inr (Or.inr (hst.keeps_rolledBack hc hmove hback))

/-! ## What was promised stays true -/

lemma Newest.of_same {w : WriteRecord} (hsame : SameBelow k r v v') (h : Newest v k r ct w) :
    Newest v' k r ct w := by
  obtain ⟨hle, hw, hop, hnew⟩ := h
  refine ⟨hle, (hsame.write ct w.startTs w.op hle hop).mp hw, hop, fun c' w' hw' hlt hle' => ?_⟩
  by_contra hop'
  exact hop' (hnew c' w' ((hsame.write c' w'.startTs w'.op hle' hop').mpr hw') hlt hle')

/-- A read finds the same where the records below it are the same. -/
lemma ReadsTo.of_same {x : Option Bytes} (hsame : SameBelow k r v v') (h : ReadsTo v k r x) :
    ReadsTo v' k r x := by
  cases x with
  | some x =>
      obtain ⟨ct, s, hnew, hdata⟩ := h
      refine ⟨ct, s, hnew.of_same hsame, ?_⟩
      rw [← hsame.data ct s .put hnew.1 OpType.noConfusion hnew.2.1, hdata]
  | none =>
      rcases h with ⟨ct, s, hnew⟩ | hnone
      · exact Or.inl ⟨ct, s, hnew.of_same hsame⟩
      · refine Or.inr fun ct w hw hle => ?_
        by_contra hop
        exact hop (hnone ct w ((hsame.write ct w.startTs w.op hle hop).mpr hw) hle)

/-- The request has read `x` on `k` at `r`: by a `get`, or among the pairs of a `scan`. -/
inductive Entry.Read (en : Entry) (k : Bytes) (r : UInt64) : Option Bytes → Prop
  | get {x} : en.event.call = .get k r → en.reply = some (.ok (.value x)) → en.Read k r x
  | scan {a b n kvs x} : en.event.call = .scan a b n r → en.reply = some (.ok (.pairs kvs)) →
      (k, x) ∈ kvs → en.Read k r (some x)

lemma Entry.Read.readTs {en : Entry} {x : Option Bytes} (h : en.Read k r x) :
    en.event.call.readTs = some r := by
  cases h with
  | get hcall _ => rw [hcall]; rfl
  | scan hcall _ _ => rw [hcall]; rfl

/-- What the replies so far have promised holds on. -/
structure Promised (drawn : List (UInt64 × Use)) (log : List Entry) (v : View) : Prop where
  read : ∀ en ∈ log, ∀ k r x, en.Read k r x →
    (∃ use, (r, use) ∈ drawn) ∧ Frozen drawn k r v ∧ ReadsTo v k r x
  prewritten : ∀ en ∈ log, ∀ s ms p ttl, en.event.call.prewriteArgs = some (s, ms, p, ttl) →
    en.reply = some (.ok .done) → ∀ m ∈ ms, Touched v m.key s
  committed : ∀ en ∈ log, ∀ s ct ks rep, en.event.call.commitArgs = some (s, ct, ks) →
    en.reply = some (.ok rep) → ∃ p, v.Committed p s ct

variable {log : List Entry}

lemma Promised.draw (h : Promised drawn log v) {ts : UInt64} {u : Use}
    (hts : ∀ d ∈ drawn, d.1 < ts) : Promised (drawn ++ [(ts, u)]) log v where
  read := by
    intro en hen k r x hread
    obtain ⟨⟨use, huse⟩, hfrozen, hreads⟩ := h.read en hen k r x hread
    exact ⟨⟨use, List.mem_append_left _ huse⟩, hfrozen.draw ⟨use, huse⟩ hts, hreads⟩
  prewritten := h.prewritten
  committed := h.committed

lemma Promised.move (hc : Proper drawn c) (hst : Stamped drawn v) (h : Promised drawn log v)
    (hmove : Move U T c v₀ v v') : Promised drawn log v' where
  read := by
    intro en hen k r x hread
    obtain ⟨hr, hfrozen, hreads⟩ := h.read en hen k r x hread
    exact ⟨hr, hfrozen.move hc hmove,
      hreads.of_same (hfrozen.same hst.once hc hst.toClocked hmove)⟩
  prewritten en hen s ms p ttl hargs hreply m hm :=
    (h.prewritten en hen s ms p ttl hargs hreply m hm).move hc hst hmove
  committed := by
    intro en hen s ct ks rep hargs hreply
    obtain ⟨p, hcom⟩ := h.committed en hen s ct ks rep hargs hreply
    exact ⟨p, hst.keeps_committed hc hmove hcom⟩

end

/-! ## Requests and replies -/

section

variable {U : Set Bytes} {st : Store} {e : Event} {s ct : UInt64}

/-- A commit in either form that returns `Ok` has settled the keys that were locked. -/
lemma commits_exec_ok (h : LocksDecode st) {keys : List Bytes} {r : Reply}
    (hargs : e.call.commitArgs = some (s, ct, keys)) (hreply : (e.exec st).1 = some (.ok r)) :
    (e.exec st).2 = commitAll st s ct keys ∧
      (e.call = .commit s ct keys → ∀ p, keys.head? = some p → (view st).LockedBy p s) := by
  cases hcall : e.call with
  | commit s' ct' keys' =>
      rw [hcall] at hargs
      cases hargs
      obtain ⟨hfirst, hst⟩ := commit_exec_ok h hcall hreply
      exact ⟨hst, fun _ => hfirst⟩
  | batchCommit s' ct' keys' =>
      rw [hcall] at hargs
      cases hargs
      refine ⟨?_, by rintro ⟨⟩⟩
      have hrun := Prog.run_map e.clock (Coordinator.batchCommit s ct keys) (fun _ => Reply.done) st
      cases hstop : e.stop with
      | none =>
          simp only [Event.exec, hstop, hcall, Call.handler]
          rw [hrun, batchCommit_run h]
      | some n => simp [Event.exec, hstop] at hreply
  | _ => rw [hcall] at hargs; cases hargs

/-- After a commit that returned `Ok` the primary key is committed. -/
lemma primary_committed_of_reply (h : LocksDecode st) {keys : List Bytes} {p : Bytes} {r : Reply}
    (hargs : e.call.commitArgs = some (s, ct, keys)) (hhead : keys.head? = some p)
    (hreply : (e.exec st).1 = some (.ok r))
    (hbatch : ∀ rest, e.call = .batchCommit s ct (p :: rest) →
      (view st).LockedBy p s ∨ (view st).Committed p s ct) :
    (view (e.exec st).2).Committed p s ct := by
  obtain ⟨hst, hfirst⟩ := commits_exec_ok h hargs hreply
  obtain ⟨rest, rfl⟩ := List.head?_eq_some_iff.mp hhead
  rw [hst, committed_commitAll_iff List.mem_cons_self]
  cases hcall : e.call with
  | commit s' ct' keys' =>
      rw [hcall] at hargs
      cases hargs
      exact Or.inl (hfirst hcall p rfl)
  | batchCommit s' ct' keys' =>
      rw [hcall] at hargs
      cases hargs
      exact hbatch rest hcall
  | _ => rw [hcall] at hargs; cases hargs

end

/-- The clocks, the records and the replies of a timeline so far. -/
structure Kept (U : Set Bytes) (t : Timeline) : Prop where
  wf : WF U t.config.store
  stamped : Stamped t.drawn (view t.config.store)
  single : ∀ s ct ct', (ct, Use.commit s) ∈ t.drawn → (ct', Use.commit s) ∈ t.drawn → ct = ct'
  promised : Promised t.drawn t.config.log (view t.config.store)

lemma kept_init (U : Set Bytes) : Kept U Timeline.init where
  wf := wf_empty U
  stamped := by
    refine ⟨⟨?_, ?_, ?_⟩, List.Pairwise.nil, ?_, ?_⟩
    · intro k l hl
      simp [Timeline.init, Config.init] at hl
    · intro k l hl
      simp [Timeline.init, Config.init] at hl
    · rintro k s ct ⟨op, -, hw⟩
      simp [Timeline.init, Config.init] at hw
    · exact view_lockOps _
    · intro k ts s hw
      simp [Timeline.init, Config.init] at hw
  single := by
    intro s ct ct' hct
    cases hct
  promised := by
    refine ⟨?_, ?_, ?_⟩
    · intro en hen
      cases hen
    · intro en hen
      cases hen
    · intro en hen
      cases hen

section

variable {U : Set Bytes} {t : Timeline} {e : Event}

lemma Kept.draw (h : Kept U t) {ts : UInt64} {u : Use} (hok : Protocol t (.draw ts u)) :
    Kept U (t.step (.draw ts u)) where
  wf := h.wf
  stamped := h.stamped.draw (hok.later ts u rfl)
  single := by
    intro s ct ct' hct hct'
    rcases List.mem_append.mp hct with hold | hnew
    · rcases List.mem_append.mp hct' with hold' | hnew'
      · exact h.single s ct ct' hold hold'
      · obtain ⟨rfl, rfl⟩ := Prod.mk.inj (List.mem_singleton.mp hnew')
        exact absurd hold (hok.oneCommit ct' s rfl ct)
    · obtain ⟨rfl, rfl⟩ := Prod.mk.inj (List.mem_singleton.mp hnew)
      rcases List.mem_append.mp hct' with hold' | hnew'
      · exact absurd hold' (hok.oneCommit ct s rfl ct')
      · exact (Prod.mk.inj (List.mem_singleton.mp hnew')).1.symm
  promised := h.promised.draw (hok.later ts u rfl)

/-- Stamps and answers survive the moves of a request. -/
lemma Kept.moves (h : Kept U t) (hc : Proper t.drawn e.call) {T : UInt64 → Prop} {v : View}
    (hmoves : Moves U T e.call (view t.config.store) (view t.config.store) v) :
    Stamped t.drawn v ∧ Promised t.drawn t.config.log v := by
  induction hmoves with
  | refl => exact ⟨h.stamped, h.promised⟩
  | tail _ hmove ih => exact ⟨ih.1.move hc hmove, ih.2.move hc ih.1 hmove⟩

/-- A read that found its key free of older locks is frozen from then on. -/
lemma Stamped.frozen {drawn : List (UInt64 × Use)} {v : View} {k : Bytes} {r : UInt64}
    (h : Stamped drawn v) (hfree : ∀ l, v.lock k = some l → r < l.startTs) : Frozen drawn k r v :=
  fun l hl ct hct => UInt64.lt_trans (hfree l hl) (h.later k l hl ct hct)

/-- A pair of a scan is read on the way, and the moves that resolve the other locks of the range
leave it as it was read. -/
lemma Kept.scan_reply (h : Kept U t) (hc : Proper t.drawn e.call) {a b : Bytes} {n : UInt32}
    {r : UInt64} {kvs : List (Bytes × Bytes)} (hcall : e.call = .scan a b n r)
    (hreply : (e.exec t.config.store).1 = some (.ok (.pairs kvs))) {k x : Bytes}
    (hmem : (k, x) ∈ kvs) :
    Frozen t.drawn k r (view (e.exec t.config.store).2) ∧
      ReadsTo (view (e.exec t.config.store).2) k r (some x) := by
  refine AcidKv.scan_reply (P := fun v y => Frozen t.drawn y.1 r v ∧ ReadsTo v y.1 r (some y.2))
    h.wf hcall hreply ?_ ?_ (k, x) hmem
  · rintro v k x hmoves ⟨hfree, hreads⟩
    exact ⟨(h.moves hc hmoves).1.frozen hfree, hreads⟩
  · rintro v v' y hmoves hmove ⟨hfrozen, hreads⟩
    have hst := (h.moves hc hmoves).1
    exact ⟨hfrozen.move hc hmove,
      hreads.of_same (hfrozen.same hst.once hc hst.toClocked hmove)⟩

/-- And its reply keeps its promises. -/
lemma Kept.reply (h : Kept U t) (hU : PrefixFree U) (hok : Protocol t (.serve e))
    (hkeys : ∀ k ∈ e.call.keys, k ∈ U) (hst : Stamped t.drawn (view (e.exec t.config.store).2)) :
    Promised t.drawn [⟨e, (e.exec t.config.store).1⟩] (view (e.exec t.config.store).2) where
  read := by
    intro en hen k r x hread
    obtain rfl := List.mem_singleton.mp hen
    refine ⟨hok.reads e r rfl hread.readTs, ?_⟩
    cases hread with
    | get hcall hreply =>
        obtain ⟨hfree, hreads⟩ := (get_reply h.wf hkeys hcall hreply).readsTo hU
        exact ⟨hst.frozen hfree, hreads⟩
    | scan hcall hreply hmem => exact h.scan_reply (hok.proper e rfl) hcall hreply hmem
  prewritten := by
    intro en hen s ms p ttl hargs hreply m hm
    obtain rfl := List.mem_singleton.mp hen
    obtain ⟨l, hl, -, hs⟩ := prewrite_reply_prewritten h.wf hkeys hargs hreply m hm
    exact Or.inl ⟨l, hl, hs⟩
  committed := by
    intro en hen s ct ks rep hargs hreply
    obtain rfl := List.mem_singleton.mp hen
    obtain ⟨-, -, p, -, hp⟩ := (hok.follows e rfl).commit s ct ks hargs
    refine ⟨p, primary_committed_of_reply h.wf.locksDecode hargs hp hreply fun rest hcall => ?_⟩
    rcases (hok.safe e rfl).batch s ct p rest hcall with hlocked | ⟨ct', hcom⟩
    · exact Or.inl hlocked
    · have hct := (hok.proper e rfl).commit s ct _ hargs
      rw [h.single s ct ct' hct (h.stamped.committed p s ct' hcom)]
      exact Or.inr hcom

lemma Promised.append {drawn : List (UInt64 × Use)} {log log' : List Entry} {v : View}
    (h : Promised drawn log v) (h' : Promised drawn log' v) : Promised drawn (log ++ log') v where
  read en hen := (List.mem_append.mp hen).elim (h.read en) (h'.read en)
  prewritten en hen := (List.mem_append.mp hen).elim (h.prewritten en) (h'.prewritten en)
  committed en hen := (List.mem_append.mp hen).elim (h.committed en) (h'.committed en)

lemma Kept.serve (h : Kept U t) (hU : PrefixFree U) (hok : Protocol t (.serve e))
    (hkeys : ∀ k ∈ e.call.keys, k ∈ U) : Kept U (t.step (.serve e)) := by
  obtain ⟨halong, -⟩ := exec_along h.wf e hkeys
  obtain ⟨hst, hans⟩ := h.moves (hok.proper e rfl) halong.moves
  exact ⟨halong.wf, hst, h.single, hans.append (h.reply hU hok hkeys hst)⟩

theorem kept_steps {as : List Action} (hU : PrefixFree U)
    (h : Guarded Timeline.step Protocol Timeline.init as)
    (hkeys : ∀ e ∈ served as, ∀ k ∈ e.call.keys, k ∈ U) : Kept U (Timeline.init.steps as) := by
  have hguard : Guarded Timeline.step (fun t a => Protocol t a ∧ ∀ e, a = .serve e →
      ∀ k ∈ e.call.keys, k ∈ U) Timeline.init as := by
    refine h.and (Guarded.of_forall fun a ha e hae => hkeys e ?_)
    subst hae
    exact List.mem_filterMap.mpr ⟨_, ha, rfl⟩
  refine hguard.invariant (fun t a hkept hok => ?_) (kept_init U)
  cases a with
  | draw ts u => exact hkept.draw hok.1
  | serve e => exact hkept.serve hU hok.1 (hok.2 e rfl)

end

end AcidKv
