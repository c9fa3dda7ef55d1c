import AcidKv.Properties.Batched
import AcidKv.Properties.LiveTxn

/-!
# What the replies of a commit are worth

`commit` looks at the locks only.  It fails with `TransactionRolledBack` if its first key carries no
lock of the transaction, whether that was rolled back, never prewritten or committed before; and it
skips every other key that carries none, so `Ok` is no statement about those.

A commit that fails has changed nothing, and afterwards the first key gets no Put or Delete record
of the transaction unless it is locked again; whether it has one already is another matter.  A
commit that succeeds has committed the keys that were still locked.
-/

namespace AcidKv

open Coordinator LockResolver KeyEncoder

section

variable {st : Store} {e : Event} {s ct : UInt64} {keys : List Bytes}

/-- A commit that runs to its end. -/
lemma commit_exec_run (hcall : e.call = .commit s ct keys) (hstop : e.stop = none) :
    e.exec st = (some (((commit s ct keys).run e.clock st).1.map fun _ => Reply.done),
      ((commit s ct keys).run e.clock st).2) := by
  have hrun := Prog.run_map e.clock (commit s ct keys) (fun _ => Reply.done) st
  simp only [Event.exec, hstop, hcall, Call.handler]
  rw [hrun]

/-- The reply and the effect of a commit that sends a reply. -/
lemma commit_exec (hcall : e.call = .commit s ct keys) {out : Answer}
    (hreply : (e.exec st).1 = some out) :
    out = ((commit s ct keys).run e.clock st).1.map (fun _ => Reply.done) ∧
      (e.exec st).2 = ((commit s ct keys).run e.clock st).2 := by
  cases hstop : e.stop with
  | none =>
      rw [commit_exec_run hcall hstop] at hreply ⊢
      exact ⟨(Option.some.inj hreply).symm, rfl⟩
  | some n => simp [Event.exec, hstop] at hreply

/-- `Ok` means that the first key was locked, and the locked keys are settled. -/
lemma commit_exec_ok (h : LocksDecode st) (hcall : e.call = .commit s ct keys) {r : Reply}
    (hreply : (e.exec st).1 = some (.ok r)) :
    (∀ p, keys.head? = some p → (view st).LockedBy p s) ∧
      (e.exec st).2 = st.apply (keys.flatMap (commitItems (view st) s ct)) := by
  obtain ⟨hout, hst⟩ := commit_exec hcall hreply
  cases keys with
  | nil => exact ⟨by simp, by simpa [commit] using hst⟩
  | cons p rest =>
      by_cases hp : (view st).LockedBy p s
      · rw [commit_run h e.clock hp] at hst
        refine ⟨fun q hq => ?_, hst⟩
        obtain rfl : p = q := by simpa using hq
        exact hp
      · rw [commit_run_unlocked h e.clock hp] at hout
        cases hout

/-- The items of a commit for one key, if it is locked. -/
lemma mem_commitItems {v : View} {k : Bytes} {i : BatchItem Part Bytes Bytes} :
    i ∈ commitItems v s ct k ↔
      ∃ l, v.lock k = some l ∧ l.startTs = s ∧ i ∈ settleBatch k ct ⟨s, l.op⟩ := by
  constructor
  · intro hi
    by_cases h : v.LockedBy k s
    · obtain ⟨l, hl, hs⟩ := h
      rw [commitItems_of_lock hl hs] at hi
      exact ⟨l, hl, hs, hi⟩
    · rw [commitItems_of_unlocked h] at hi
      cases hi
  · rintro ⟨l, hl, hs, hi⟩
    rwa [commitItems_of_lock hl hs]

/-- An item for `k` is among those of `k`. -/
lemma mem_commitItems_of_entry {v : View} {k : Bytes} {ts : UInt64}
    {i : BatchItem Part Bytes Bytes} (hi : i ∈ keys.flatMap (commitItems v s ct))
    (hentry : i.entry = (.write, encode k ts) ∨ i.entry = (.lock, k)) :
    ∃ l, v.lock k = some l ∧ l.startTs = s ∧ i ∈ settleBatch k ct ⟨s, l.op⟩ := by
  obtain ⟨k', -, hi⟩ := List.mem_flatMap.mp hi
  obtain ⟨l, hl, hs, hi⟩ := mem_commitItems.mp hi
  have hitem := hi
  simp only [settleBatch, List.mem_cons, List.not_mem_nil, or_false] at hitem
  have hk : k' = k := by
    rcases hitem with rfl | rfl
    · rcases hentry with hentry | hentry
      · exact (encode_inj.mp (congrArg Prod.snd hentry)).1
      · cases hentry
    · rcases hentry with hentry | hentry
      · cases hentry
      · exact congrArg Prod.snd hentry
  subst hk
  exact ⟨l, hl, hs, hi⟩

/-- The store that a successful commit leaves. -/
abbrev commitAll (st : Store) (s ct : UInt64) (keys : List Bytes) : Store :=
  st.apply (keys.flatMap (commitItems (view st) s ct))

/-- A locked key of a commit is settled. -/
lemma commitAll_settles {k : Bytes} {l : Lock} (hk : k ∈ keys) (hl : (view st).lock k = some l)
    (hs : l.startTs = s) :
    (commitAll st s ct keys).get .write (encode k ct) = some (WriteRecord.mk s l.op).toBytes ∧
      (commitAll st s ct keys).get .lock k = none := by
  have hmem : ∀ i ∈ settleBatch k ct ⟨s, l.op⟩, i ∈ keys.flatMap (commitItems (view st) s ct) :=
    fun i hi => List.mem_flatMap.mpr ⟨k, hk, mem_commitItems.mpr ⟨l, hl, hs, hi⟩⟩
  -- a key that comes up twice is settled the same way both times
  have hitem : ∀ j ∈ keys.flatMap (commitItems (view st) s ct),
      j.entry = (.write, encode k ct) ∨ j.entry = (.lock, k) →
      j = .insert .write (encode k ct) (WriteRecord.mk s l.op).toBytes ∨ j = .remove .lock k := by
    intro j hj hentry
    obtain ⟨l', hl', -, hj⟩ := mem_commitItems_of_entry hj hentry
    rw [hl, Option.some.injEq] at hl'
    subst hl'
    simpa [settleBatch] using hj
  constructor
  · refine Keyspace.get_apply_of_mem (hmem _ List.mem_cons_self) rfl (fun j hj hentry => ?_) st
    rcases hitem j hj (Or.inl hentry) with rfl | rfl
    · rfl
    · cases hentry
  · refine Keyspace.get_apply_of_mem (hmem _ (List.mem_cons_of_mem _ List.mem_cons_self)) rfl
      (fun j hj hentry => ?_) st
    rcases hitem j hj (Or.inr hentry) with rfl | rfl
    · cases hentry
    · rfl

/-- Any other key has the records that it had. -/
lemma commitAll_skips {k : Bytes} (hk : ¬ (view st).LockedBy k s) (ts : UInt64) :
    (commitAll st s ct keys).get .write (encode k ts) = st.get .write (encode k ts) := by
  refine Keyspace.get_apply_of_entry_ne (fun i hi hentry => hk ?_) st
  obtain ⟨l, hl, hs, -⟩ := mem_commitItems_of_entry hi (Or.inl hentry)
  exact ⟨l, hl, hs⟩

/-- **The keys that a successful commit leaves committed.** -/
lemma committed_commitAll_iff {k : Bytes} (hk : k ∈ keys) :
    (view (commitAll st s ct keys)).Committed k s ct ↔
      (view st).LockedBy k s ∨ (view st).Committed k s ct := by
  by_cases hlocked : (view st).LockedBy k s
  · obtain ⟨l, hl, hs⟩ := hlocked
    have hw : (view (commitAll st s ct keys)).write k ct = some ⟨s, l.op⟩ :=
      view_write_of_get (commitAll_settles hk hl hs).1 (WriteRecord.fromBytes_toBytes _)
    exact ⟨fun _ => Or.inl ⟨l, hl, hs⟩, fun _ => ⟨l.op, (view_lock_op hl).1, hw⟩⟩
  · have hsame : (view (commitAll st s ct keys)).write k ct = (view st).write k ct := by
      simp only [view, commitAll_skips hlocked]
    simp only [View.Committed, hsame, hlocked, false_or]

end

/-! ## Ok -/

/-- In every state that a run leads to: a commit that returns `Ok` has committed all of its keys
exactly if each of them was still locked by the transaction, or already had the record. -/
theorem commit_ok_complete_iff (es : List Event) (e : Event) (s ct : UInt64) (keys : List Bytes)
    (r : Reply) (hcall : e.call = .commit s ct keys)
    (hreply : (e.exec (Config.init.steps es).store).1 = some (.ok r)) :
    (∀ k ∈ keys, (view (e.exec (Config.init.steps es).store).2).Committed k s ct) ↔
      ∀ k ∈ keys, (view (Config.init.steps es).store).LockedBy k s ∨
        (view (Config.init.steps es).store).Committed k s ct := by
  rw [(commit_exec_ok (wf_runKeys es).locksDecode hcall hreply).2]
  exact forall₂_congr fun k hk => committed_commitAll_iff hk

/-- Both keys are still locked after a read that came in time. -/
theorem commit_ok_complete_soon :
    (Event.exec { call := .commit 65536 65537 [[1], [2]] } (Config.init.steps
        [{ call := .prewrite 65536 [.put [1] [10], .put [2] [20]] [1] 60000 },
          { call := .get [2] 70000, clock := fun _ => 2000 }]).store).1 = some (.ok .done) ∧
      ∀ k ∈ [[1], [2]], (view (Event.exec { call := .commit 65536 65537 [[1], [2]] }
        (Config.init.steps [{ call := .prewrite 65536 [.put [1] [10], .put [2] [20]] [1] 60000 },
          { call := .get [2] 70000, clock := fun _ => 2000 }]).store).2).Committed k 65536
        65537 := by
  refine ⟨by decide +kernel, (commit_ok_complete_iff
    [{ call := .prewrite 65536 [.put [1] [10], .put [2] [20]] [1] 60000 },
      { call := .get [2] 70000, clock := fun _ => 2000 }] { call := .commit 65536 65537 [[1], [2]] }
    65536 65537 [[1], [2]] .done rfl (by decide +kernel)).mpr fun k hk => Or.inl ?_⟩
  rcases List.mem_pair.mp hk with rfl | rfl
  · exact ⟨⟨[1], 65536, 60000, .put⟩, by decide +kernel, rfl⟩
  · exact ⟨⟨[1], 65536, 60000, .put⟩, by decide +kernel, rfl⟩

/-- The transaction has sixty seconds.  A read of its secondary key after five seconds rolls that
key back, and the commit that follows returns `Ok` without it. -/
theorem commit_ok_incomplete :
    (Event.exec { call := .prewrite 65536 [.put [1] [10], .put [2] [20]] [1] 60000 }
        Config.init.store).1 = some (.ok .done) ∧
      (Event.exec { call := .commit 65536 65537 [[1], [2]] } (Config.init.steps
        [{ call := .prewrite 65536 [.put [1] [10], .put [2] [20]] [1] 60000 },
          { call := .get [2] 70000, clock := fun _ => 5000 }]).store).1 = some (.ok .done) ∧
      ∀ op, (view (Event.exec { call := .commit 65536 65537 [[1], [2]] } (Config.init.steps
        [{ call := .prewrite 65536 [.put [1] [10], .put [2] [20]] [1] 60000 },
          { call := .get [2] 70000, clock := fun _ => 5000 }]).store).2).write [2] 65537
        ≠ some ⟨65536, op⟩ := by
  refine ⟨by decide +kernel, by decide +kernel, fun op hw => ?_⟩
  have hnone : (view (Event.exec { call := .commit 65536 65537 [[1], [2]] } (Config.init.steps
      [{ call := .prewrite 65536 [.put [1] [10], .put [2] [20]] [1] 60000 },
        { call := .get [2] 70000, clock := fun _ => 5000 }]).store).2).write [2] 65537 = none := by
    decide +kernel
  rw [hnone] at hw
  cases hw

/-! ## Keys that stay locked -/

/-- Transaction `s` with primary key `p` is open: its locks name `p`, which has no record of it, and
the keys are locked. -/
structure OpenTxn (v : View) (p : Bytes) (s : UInt64) (keys : List Bytes) : Prop where
  primary : ∀ k l, v.lock k = some l → l.startTs = s → l.primaryKey = p
  undecided : ∀ ct op, v.write p ct ≠ some ⟨s, op⟩
  locked : ∀ k ∈ keys, v.LockedBy k s

/-- Heartbeats, and requests of others that find the locks of `s` in time. -/
def SparesTxn (p : Bytes) (s : UInt64) (cfg : Config) (e : Event) : Prop :=
  (∃ q t ttl, e.call = .heartbeat q t ttl) ∨
    e.call.ByOthers s ∧ InTime e.Reading (view cfg.store) e.call p s ∧
      ∀ lp now, (view cfg.store).lock p = some lp → e.Reading now →
        now.toNat ≤ (s >>> 16).toNat + lp.ttl.toNat

section

variable {U : Set Bytes} {T : UInt64 → Prop} {c : Call} {v₀ v v' : View} {p : Bytes} {s : UInt64}
  {keys : List Bytes}

/-- A heartbeat changes nothing of a lock but its TTL. -/
lemma OpenTxn.heartbeat (h : OpenTxn v p s keys) {q : Bytes} {t ttl : UInt64}
    (hc : c = .heartbeat q t ttl) (hmove : Move U T c v₀ v v') : OpenTxn v' p s keys := by
  cases hmove with
  | @refresh q' t' ttl' l hc' hl hs =>
      refine ⟨fun k l' hl' hs' => ?_, h.undecided, fun k hk => ?_⟩
      · rw [View.putLock_lock] at hl'
        split_ifs at hl' with hkq
        · cases hl'
          exact h.primary q' l hl hs'
        · exact h.primary k l' hl' hs'
      · obtain ⟨l', hl', hs'⟩ := h.locked k hk
        by_cases hkq : k = q'
        · subst hkq
          rw [hl, Option.some.injEq] at hl'
          exact ⟨{ l with ttl := ttl' }, by rw [View.putLock_lock, if_pos rfl], by rw [← hs', hl']⟩
        · exact ⟨l', by rw [View.putLock_lock, if_neg hkq, hl'], hs'⟩
  | stage hc' => rw [hc] at hc'; cases hc'
  | commitKey hc' => rw [hc] at hc'; cases hc'
  | rollForward hr _ hl => exact absurd hc ((hr.queries hl).not_commit.2 _ _ _)
  | expire hq => exact absurd hc (hq.not_commit.2 _ _ _)
  | rollBack hr hl => exact absurd hc ((hr.queries hl).not_commit.2 _ _ _)
  | timeOut hr hl => exact absurd hc ((hr.queries hl).not_commit.2 _ _ _)
  | abandon hc' => rw [hc] at hc'; cases hc'
  | forbid hc' => rw [hc] at hc'; cases hc'
  | collect hc' => rw [hc] at hc'; cases hc'

lemma OpenTxn.untouched (h : OpenTxn v₀ p s keys) (hc : c.ByOthers s)
    (hmoves : Moves U T c v₀ v₀ v) (hkept : Untouched s v₀ v) : OpenTxn v p s keys where
  primary k l hl hs := h.primary k l (hmoves.lock_of_other hc hl hs) hs
  undecided ct op hw := h.undecided ct op (hkept.write p ct op hw)
  locked k hk := by
    obtain ⟨l, hl, hs⟩ := h.locked k hk
    exact ⟨l, hkept.lock k l hl hs, hs⟩

/-- The locks of a new transaction name the primary key of its prewrite. -/
lemma Moves.names_primary {ttl : UInt64} {ms : List Mutation} (hmoves : Moves U T c v₀ v₀ v)
    (hargs : c.prewriteArgs = some (s, ms, p, ttl)) (hnew : ∀ k, ¬ v₀.LockedBy k s) {k : Bytes}
    {l : Lock} (hl : v.lock k = some l) (hs : l.startTs = s) : l.primaryKey = Lock.storedKey p := by
  induction hmoves generalizing l with
  | refl => exact absurd ⟨l, hl, hs⟩ (hnew k)
  | tail _ hmove ih =>
      rcases hmove.lock_origin hl with ⟨l', hl', heq, -⟩ | hplaced
      · have hp' := ih hl' (by rw [← hs, heq])
        rw [heq]
        exact hp'
      · obtain ⟨ms', p', ttl', m, hargs', -, -, heq⟩ := hplaced.args
        rw [hargs] at hargs'
        cases hargs'
        rw [heq]
        rfl

/-- A prewrite of a new transaction that returns `Ok` opens it. -/
lemma openTxn_of_prewrite {st : Store} (hwf : WF Set.univ st) {e : Event} {ttl : UInt64}
    {ms : List Mutation} {r : Reply} (hargs : e.call.prewriteArgs = some (s, ms, p, ttl))
    (hreply : (e.exec st).1 = some (.ok r)) (hnew : ∀ k, ¬ (view st).LockedBy k s)
    (hnone : ∀ ct op, (view st).write p ct ≠ some ⟨s, op⟩) (hp : Lock.storedKey p = p)
    (hkeys : ∀ k ∈ keys, ∃ m ∈ ms, m.key = k) : OpenTxn (view (e.exec st).2) p s keys := by
  obtain ⟨halong, -⟩ := exec_along hwf e fun _ _ => trivial
  refine ⟨fun k l hl hs => ?_, fun ct op hw => ?_, fun k hk => ?_⟩
  · rw [halong.moves.names_primary hargs hnew hl hs, hp]
  · exact hnone ct op (halong.moves.own_record hargs hw)
  · obtain ⟨m, hm, rfl⟩ := hkeys k hk
    obtain ⟨l, hl, -, hs⟩ :=
      prewrite_reply_prewritten hwf (fun _ _ => trivial) hargs hreply m hm
    exact ⟨l, hl, hs⟩

end

lemma openTxn_steps {cfg : Config} (hwf : WF Set.univ cfg.store) {p : Bytes} {s : UInt64}
    {keys : List Bytes} {es : List Event} (hp : p ∈ keys)
    (h : Guarded Config.step (SparesTxn p s) cfg es) (hopen : OpenTxn (view cfg.store) p s keys) :
    WF Set.univ (cfg.steps es).store ∧ OpenTxn (view (cfg.steps es).store) p s keys := by
  refine @Guarded.invariant _ _ _ _ _ _
    (fun cfg => WF Set.univ cfg.store ∧ OpenTxn (view cfg.store) p s keys) h ?_ ⟨hwf, hopen⟩
  rintro cfg e ⟨hwf, hopen⟩ hok
  obtain ⟨halong, -⟩ := exec_along hwf e fun _ _ => trivial
  refine ⟨halong.wf, ?_⟩
  rcases hok with ⟨q, t, ttl, hc⟩ | ⟨hc, htime, halive⟩
  · have hmoves := halong.moves
    change OpenTxn (view (e.exec cfg.store).2) p s keys
    generalize view (e.exec cfg.store).2 = v' at hmoves ⊢
    induction hmoves with
    | refl => exact hopen
    | tail _ hmove ih => exact ih.heartbeat hc hmove
  · obtain ⟨lp, hlp, hs⟩ := hopen.locked p hp
    exact hopen.untouched hc halong.moves (Untouched.moves hc
      ⟨hlp, hs, hopen.primary, hopen.undecided, fun now => halive lp now hlp⟩ htime halong.moves)

/-- **A commit in time is complete.**  If a new transaction has prewritten the keys, and the
requests in between are heartbeats or find its locks in time, then a commit that returns `Ok` has
committed all of its keys. -/
theorem commit_complete_in_time {es between : List Event} {e₁ e : Event} {s ct ttl : UInt64}
    {p : Bytes} {ms : List Mutation} {keys : List Bytes} {r₁ r : Reply}
    (hargs : e₁.call.prewriteArgs = some (s, ms, p, ttl)) (hp : Lock.storedKey p = p)
    (hnew : ∀ k, ¬ (view (Config.init.steps es).store).LockedBy k s)
    (hnone : ∀ ct op, (view (Config.init.steps es).store).write p ct ≠ some ⟨s, op⟩)
    (hreply₁ : (e₁.exec (Config.init.steps es).store).1 = some (.ok r₁))
    (hkeys : ∀ k ∈ keys, ∃ m ∈ ms, m.key = k) (hmem : p ∈ keys)
    (hbetween : Guarded Config.step (SparesTxn p s) ((Config.init.steps es).step e₁) between)
    (hcall : e.call = .commit s ct keys)
    (hreply : (e.exec (((Config.init.steps es).step e₁).steps between).store).1 = some (.ok r)) :
    ∀ k ∈ keys, (view (e.exec
      (((Config.init.steps es).step e₁).steps between).store).2).Committed k s ct := by
  have hwf : WF Set.univ (Config.init.steps es).store := (wf_runKeys es).mono (Set.subset_univ _)
  have hwf₁ : WF Set.univ ((Config.init.steps es).step e₁).store :=
    (exec_along hwf e₁ fun _ _ => trivial).1.wf
  obtain ⟨hwf', hopen⟩ := openTxn_steps hwf₁ hmem hbetween
    (openTxn_of_prewrite hwf hargs hreply₁ hnew hnone hp hkeys)
  intro k hk
  rw [(commit_exec_ok hwf'.locksDecode hcall hreply).2]
  exact (committed_commitAll_iff hk).mpr (Or.inl (hopen.locked k hk))

/-! ## TransactionRolledBack -/

/-- The primary key `p` shows that `s` has committed: it has a Put or Delete record of `s`, or a
lock of `s` that is rolled forward with its own primary key. -/
inductive ShowsCommit (v : View) (s : UInt64) : Bytes → Prop
  | committed {p : Bytes} {ct : UInt64} (h : v.Committed p s ct) : ShowsCommit v s p
  | locked {p : Bytes} {l : Lock} (hl : v.lock p = some l) (hs : l.startTs = s)
      (h : ShowsCommit v s l.primaryKey) : ShowsCommit v s p

/-- A request that begins at `v` may end the lock of `s` on `k` with a commit: it is a commit of `s`
that names `k` and finds its first key locked, or it is to resolve the lock while the primary key
shows a commit. -/
def MayCommit (c : Call) (v : View) (k : Bytes) (s : UInt64) : Prop :=
  ∃ l, v.lock k = some l ∧ l.startTs = s ∧
    ((∃ ct ks, c.commitArgs = some (s, ct, ks) ∧ k ∈ ks ∧
        ∀ p rest, c = .commit s ct (p :: rest) → v.LockedBy p s) ∨
      (∃ lr, c.Resolves v k l lr) ∧ ShowsCommit v s l.primaryKey)

section

variable {U : Set Bytes} {T : UInt64 → Prop} {c : Call} {v₀ v : View} {k : Bytes} {s : UInt64}

/-- What a request of others finds committed could be seen when it began. -/
lemma Moves.showsCommit (hmoves : Moves U T c v₀ v₀ v) (hcommit : c.commitArgs = none)
    (hown : ∀ ms q ttl, c.prewriteArgs ≠ some (s, ms, q, ttl)) {p : Bytes} {ct : UInt64}
    (hcom : v.Committed p s ct) : ShowsCommit v₀ s p := by
  induction hmoves generalizing p with
  | refl => exact .committed hcom
  | tail hprev hmove ih =>
      rcases hmove.committed_origin hcom with hcom | ⟨-, -, ⟨ks, hargs, -⟩ | hfwd⟩
      · exact ih hcom
      · rw [hcommit] at hargs
        cases hargs
      · obtain ⟨l, lr, -, -, hl, rfl, hp⟩ := hfwd
        obtain ⟨l', hl', heq⟩ := Moves.lock_before hprev hl hown
        have hkey : l.primaryKey = l'.primaryKey := by rw [heq]
        exact .locked hl' (by rw [heq]) (hkey ▸ ih hp)

/-- A request that does not end the lock of `s` on `k` with a commit does not commit `k` for `s`. -/
lemma Moves.committed_of_spared (hmoves : Moves U T c v₀ v₀ v)
    (hfirst : ∀ ct p rest, c = .commit s ct (p :: rest) → v₀.LockedBy p s)
    (hspare : ¬ MayCommit c v₀ k s) {ct : UInt64} (hcom : v.Committed k s ct) :
    v₀.Committed k s ct := by
  induction hmoves with
  | refl => exact hcom
  | tail hprev hmove ih =>
      rcases hmove.committed_origin hcom with hcom | ⟨⟨l, hl, hs⟩, -, ⟨ks, hargs, hk, -⟩ | hfwd⟩
      · exact ih hcom
      · exfalso
        rcases Moves.lock_origin hprev hl with ⟨l', hl', heq, -⟩ | ⟨ms, p, ttl, hpre⟩
        · refine hspare ⟨l', hl', ?_, Or.inl ⟨ct, ks, hargs, hk, fun p rest => hfirst ct p rest⟩⟩
          rw [← hs, heq]
        · rw [(Call.prewrite_only hpre).1] at hargs
          cases hargs
      · exfalso
        obtain ⟨l', lr, hr, -, hl', rfl, hp⟩ := hfwd
        have hqueries := hr.queries hl'
        have hshows := Moves.showsCommit hprev hqueries.not_commit.1
          (fun ms q ttl hpre => hr.ne_start hpre rfl) hp
        exact hspare ⟨l', Moves.lock_of_queries hprev hl' hqueries, rfl,
          Or.inr ⟨⟨lr, hr⟩, hshows⟩⟩

end

/-- A commit whose first key is not locked changes nothing, wherever it is cut off. -/
lemma commit_exec_unlocked {st : Store} (h : LocksDecode st) {e : Event} {s ct : UInt64} {p : Bytes}
    {rest : List Bytes} (hcall : e.call = .commit s ct (p :: rest))
    (hp : ¬ (view st).LockedBy p s) : (e.exec st).2 = st := by
  have hsat : e.call.handler.Sat (fun _ => True) (fun st' => st' = st)
      (fun _ st' => st' = st) st := by
    rw [hcall, Call.handler, Prog.sat_bind]
    refine (commit_sat_unlocked h hp).mono ?_
    rintro _ _ ⟨rfl, rfl⟩
    exact rfl
  unfold Event.exec
  cases e.stop with
  | none => exact (hsat.run rfl fun _ => trivial).1
  | some n => exact hsat.stopAfter rfl (fun _ => trivial) n

/-- A request of a run leaves the lock of `s` on `k` alone, or rolls it back. -/
def SparesKey (k : Bytes) (s : UInt64) (cfg : Config) (e : Event) : Prop :=
  ¬ MayCommit e.call (view cfg.store) k s

/-- `k` has no Put or Delete record of `s`. -/
def Uncommitted (k : Bytes) (s : UInt64) (cfg : Config) : Prop :=
  WF Set.univ cfg.store ∧ ∀ ct, ¬ (view cfg.store).Committed k s ct

lemma Uncommitted.step {k : Bytes} {s : UInt64} {cfg : Config} (h : Uncommitted k s cfg) {e : Event}
    (hspare : SparesKey k s cfg e) : Uncommitted k s (cfg.step e) := by
  obtain ⟨hwf, hnone⟩ := h
  obtain ⟨halong, -⟩ := exec_along hwf e fun _ _ => trivial
  refine ⟨halong.wf, fun ct hcom => hnone ct ?_⟩
  by_cases hfirst : ∀ ct p rest, e.call = .commit s ct (p :: rest) →
      (view cfg.store).LockedBy p s
  · exact halong.moves.committed_of_spared hfirst hspare hcom
  · push Not at hfirst
    obtain ⟨ct', p, rest, hcall, hp⟩ := hfirst
    have hsame := commit_exec_unlocked hwf.locksDecode hcall hp
    rwa [Config.step, hsame] at hcom

lemma Uncommitted.steps {k : Bytes} {s : UInt64} {cfg : Config} (h : Uncommitted k s cfg)
    {es : List Event} (hspare : Guarded Config.step (SparesKey k s) cfg es) :
    Uncommitted k s (cfg.steps es) :=
  hspare.invariant (fun _ _ h hs => h.step hs) h

end AcidKv
