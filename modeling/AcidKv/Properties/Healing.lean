import AcidKv.Properties.SnapshotIsolation

/-!
# After a crash of the clients

A client that dies leaves its locks behind, on all of its keys or on those that its commit did not
get to.  Nobody is told; the locks are resolved by those who come across them.  Once the clock is
past the TTL of a lock, and past the three seconds that a read allows it, a read of its key is not
turned away but settles it the way its primary key says.

So one read of each locked key is all that it takes.  Afterwards there is no lock left, and every
transaction that was ever prewritten, acknowledged or not, is committed on all of its keys at one
timestamp or on none of them (`expired_locks_healed`).
-/

namespace AcidKv

open LockResolver Coordinator

/-! ## A read of a lock that has run out -/

section

variable {U : Set Bytes} {T : UInt64 → Prop} {st : Store} {k : Bytes} {r : UInt64}

/-- A lock that has run out at all readings of the clock is resolved. -/
lemma resolveLock_clears (h : WF U st) {l : Lock} (hl : (view st).lock k = some l)
    (hle : l.startTs ≤ r)
    (hlate : ∀ t, T t → expired t l.startTs (reportedLock l.primaryKey l.startTs).ttl) :
    (resolveLock k (reportedLock l.primaryKey l.startTs)).Sat T (fun _ => True)
      (fun out st' => out = .ok () ∧ WF U st' ∧ (view st').lock k = none) st := by
  have hr : (Call.get k r).Resolves (view st) k l (reportedLock l.primaryKey l.startTs) :=
    ⟨rfl, hle, rfl⟩
  have hpass : Passed U (.get k r) (view st) (view st) k := by
    rintro s ms p ttl ⟨⟩
  have hfrees : (resolveLock k (reportedLock l.primaryKey l.startTs)).Sat T (fun _ => True)
      (fun out st' => WF U st' ∧ (out = .ok () → (view st').lock k = none)) st :=
    (resolveLock_sat (T := T) h hr hpass hl).imp (fun _ _ => trivial)
      fun out st' hout => ⟨hout.1.wf, hout.2⟩
  have hok : (resolveLock k (reportedLock l.primaryKey l.startTs)).Sat T (fun _ => True)
      (fun out _ => out = .ok ()) st := by
    simp only [resolveLock, Prog.sat_bind]
    refine (checkTxnStatus_sat (T := T) h (hr.queries hl)).imp (fun _ _ => trivial) ?_
    rintro (e | status) st' ⟨-, hout⟩
    · exact hout.elim
    · cases status with
      | committed ct => exact ⟨trivial, rfl⟩
      | rolledBack => exact ⟨trivial, rfl⟩
      | locked ttl =>
          simp only [Prog.then_ok, Prog.sat_bind, Prog.sat_clock]
          intro t ht
          split_ifs with hexp
          · exact ⟨trivial, rfl⟩
          · exact absurd (hlate t ht) hexp
  exact (hfrees.and hok).mono fun out st' hout => ⟨hout.2, hout.1.1, hout.1.2 hout.2⟩

/-- The reader reports a lock that is in its way. -/
lemma readerGet_reports (h : WF U st) {I : Store → Prop} (k : Bytes) (r : UInt64) :
    (MvccReader.get k r).Sat T I (fun out st' => st' = st ∧ ReadOutcome U (view st) k r out ∧
      ((∃ p t, out = .error (.keyIsLocked p t)) ∨
        ∀ l, (view st).lock k = some l → r < l.startTs)) st := by
  by_cases hfree : ∀ l, (view st).lock k = some l → r < l.startTs
  · exact (readerGet_sat h k r).mono fun out st' hout => ⟨hout.1, hout.2, Or.inr hfree⟩
  · push Not at hfree
    obtain ⟨l, hl, hle⟩ := hfree
    have hle' : l.startTs ≤ r := UInt64.not_lt.mp hle
    obtain ⟨b, hb, hdec⟩ := view_lock_some hl
    simp only [MvccReader.get, Prog.sat_bind, Prog.sat_lookup, Prog.then_ok, hb, hdec, hle',
      if_true, Prog.sat_throw]
    exact ⟨trivial, ⟨l, hl, rfl, rfl, hle'⟩, Or.inl ⟨_, _, rfl⟩⟩

/-- A read is not turned away by a lock that has run out, and leaves none in its way. -/
lemma get_heals (h : WF U st)
    (hlate : ∀ l, (view st).lock k = some l → ∀ t, T t → expired t l.startTs 3000) :
    (Coordinator.get k r).Sat T (fun _ => True)
      (fun out st' => (∀ l, (view st').lock k = some l → r < l.startTs) ∧
        ∀ k', out ≠ .error (.keyLocked k')) st := by
  simp only [Coordinator.get, Prog.sat_bind, Prog.sat_attempt]
  refine (readerGet_reports h k r).mono ?_
  rintro (e | x) st' ⟨rfl, hout, hfree⟩
  · cases e with
    | corruptedState =>
        refine ⟨hfree.resolve_left ?_, by rintro k' ⟨⟩⟩
        rintro ⟨p, t, ⟨⟩⟩
    | keyIsLocked p t =>
        obtain ⟨l, hl, rfl, rfl, hle⟩ := hout
        simp only [Prog.then_ok, Prog.sat_bind, Prog.sat_attempt]
        refine (resolveLock_clears h hl hle (hlate l hl)).mono ?_
        rintro out st₂ ⟨rfl, hwf, hnone⟩
        simp only [Prog.sat_mapError]
        refine (readerGet_sat hwf k r).mono ?_
        rintro (e | x) st₃ ⟨rfl, hout⟩
        · refine ⟨by simp [hnone], ?_⟩
          rintro k' ⟨⟩
        · refine ⟨by simp [hnone], ?_⟩
          rintro k' ⟨⟩
  · refine ⟨hfree.resolve_left ?_, by rintro k' ⟨⟩⟩
    rintro ⟨p, t, ⟨⟩⟩

/-- A read places no lock. -/
lemma Moves.lock_of_get {v₀ v v' : View} (hmoves : Moves U T (.get k r) v₀ v v') {k' : Bytes}
    {l : Lock} (hl : v'.lock k' = some l) : v.lock k' = some l := by
  induction hmoves generalizing l with
  | refl => exact hl
  | tail _ hmove ih =>
      rcases hmove.lock_origin hl with ⟨l', hl', -, rfl | ⟨p, s, ttl, ⟨⟩⟩⟩ | hplaced
      · exact ih hl'
      · obtain ⟨ms, p, ttl, m, ⟨⟩, -⟩ := hplaced.args

end

/-! ## Reading every locked key -/

/-- Read the key at `r`, with these readings of the clock. -/
def readAt (r : UInt64) (x : Bytes × (ℕ → UInt64)) : Event := { call := .get x.1 r, clock := x.2 }

/-- Draw a timestamp and read the keys at it. -/
def healing (r : UInt64) (reads : List (Bytes × (ℕ → UInt64))) : List Action :=
  .draw r .read :: reads.map fun x => .serve (readAt r x)

/-- By these readings of the clock every lock has run out, by its own TTL and by that of a read. -/
def AllExpired (v : View) (clock : ℕ → UInt64) : Prop :=
  ∀ k l, v.lock k = some l → ∀ i, expired (clock i) l.startTs l.ttl ∧ expired (clock i) l.startTs 3000

/-- What a read leaves of the locks. -/
structure Healed (r : UInt64) (x : Bytes × (ℕ → UInt64)) (st : Store) (out : Option Answer)
    (st' : Store) : Prop where
  kept : ∀ k l, (view st').lock k = some l → (view st).lock k = some l
  free : ∀ l, (view st').lock x.1 = some l → r < l.startTs
  served : ∀ k, out ≠ some (.error (.keyLocked k))

lemma readAt_healed {U : Set Bytes} {st : Store} (h : WF U st) {r : UInt64}
    {x : Bytes × (ℕ → UInt64)} (hx : x.1 ∈ U) (hlate : AllExpired (view st) x.2) :
    Healed r x st ((readAt r x).exec st).1 ((readAt r x).exec st).2 := by
  obtain ⟨halong, -⟩ := exec_along h (readAt r x) (by simpa [readAt, Call.keys] using hx)
  have hsat : (readAt r x).call.handler.Sat (readAt r x).Reading (fun _ => True)
      (fun out st' => (∀ l, (view st').lock x.1 = some l → r < l.startTs) ∧
        ∀ k, out ≠ .error (.keyLocked k)) st := by
    refine sat_reply ((get_heals h ?_).mono ?_)
    · rintro l hl t ⟨i, rfl⟩
      exact (hlate x.1 l hl i).2
    · rintro (e | y) st' ⟨hfree, hserved⟩
      · exact ⟨hfree, fun k hk => hserved k (by cases hk; rfl)⟩
      · exact ⟨hfree, by rintro k ⟨⟩⟩
  obtain ⟨-, hfree, hserved⟩ := hsat.run trivial fun i => ⟨i, rfl⟩
  exact ⟨fun k l hl => halong.moves.lock_of_get hl, hfree,
    fun k hk => hserved k (Option.some.inj hk)⟩

/-- Reads of locks that have run out are within the protocol. -/
lemma protocol_readAt {t : Timeline} {r : UInt64} {x : Bytes × (ℕ → UInt64)}
    (hr : (r, .read) ∈ t.drawn) (hlate : AllExpired (view t.config.store) x.2) :
    Protocol t (.serve (readAt r x)) := by
  refine protocol_read rfl ⟨.read, hr⟩ (protected_of_inTime rfl (by simp [readAt])
    (by simp [readAt]) ?_)
  rintro k l lr lp t t' - - - hlp hs - ⟨i, rfl⟩ hlive
  exact absurd (hs ▸ (hlate _ lp hlp i).1) hlive

/-- Reading keys at `r` frees them, and frees no others. -/
lemma heal_steps {U : Set Bytes} {r : UInt64} {reads : List (Bytes × (ℕ → UInt64))} {t : Timeline}
    (h : WF U t.config.store) (hr : (r, .read) ∈ t.drawn)
    (hbelow : ∀ k l, (view t.config.store).lock k = some l → l.startTs ≤ r)
    (hU : ∀ x ∈ reads, x.1 ∈ U) (hlate : ∀ x ∈ reads, AllExpired (view t.config.store) x.2) :
    Guarded Timeline.step Protocol t (reads.map fun x => .serve (readAt r x)) ∧
      (∀ k l, (view (t.steps (reads.map fun x => .serve (readAt r x))).config.store).lock k = some l →
        (view t.config.store).lock k = some l ∧ k ∉ reads.map Prod.fst) ∧
      ∃ replies, (t.steps (reads.map fun x => .serve (readAt r x))).config.log
          = t.config.log ++ replies ∧
        ∀ en ∈ replies, ∀ k, en.reply ≠ some (.error (.keyLocked k)) := by
  induction reads generalizing t with
  | nil => exact ⟨trivial, fun k l hl => ⟨hl, List.not_mem_nil⟩, [], (List.append_nil _).symm, by simp⟩
  | cons x reads ih =>
      have hx := hlate x List.mem_cons_self
      have hhealed := readAt_healed (r := r) h (hU x List.mem_cons_self) hx
      obtain ⟨halong, -⟩ := exec_along h (readAt r x)
        (by simpa [readAt, Call.keys] using hU x List.mem_cons_self)
      obtain ⟨hguard, hlocks, replies, hlog, hserved⟩ := ih (t := t.step (.serve (readAt r x)))
        halong.wf hr (fun k l hl => hbelow k l (hhealed.kept k l hl))
        (fun y hy => hU y (List.mem_cons_of_mem x hy))
        fun y hy k l hl => hlate y (List.mem_cons_of_mem x hy) k l (hhealed.kept k l hl)
      refine ⟨⟨protocol_readAt hr hx, hguard⟩, ?_, ?_⟩
      · intro k l hl
        obtain ⟨hl', hk⟩ := hlocks k l hl
        refine ⟨hhealed.kept k l hl', ?_⟩
        rw [List.map_cons, List.mem_cons, not_or]
        refine ⟨?_, hk⟩
        rintro rfl
        exact absurd (hbelow _ l (hhealed.kept _ l hl')) (UInt64.not_le.mpr (hhealed.free l hl'))
      · refine ⟨⟨readAt r x, ((readAt r x).exec t.config.store).1⟩ :: replies, ?_, ?_⟩
        · rw [List.append_cons]
          exact hlog
        · intro en hen
          rcases List.mem_cons.mp hen with rfl | hen
          · exact hhealed.served
          · exact hserved en hen

/-- **Crash recovery.**  After any run of clients that keep to the protocol, wherever their requests
have stopped: once every lock has run out, reading the locked keys at a new timestamp, in any order
and at any time, leaves no lock, turns no reader away, and leaves every transaction committed on all
of its keys at one timestamp or on none. -/
theorem expired_locks_healed (as : List Action) (r : UInt64)
    (reads : List (Bytes × (ℕ → UInt64)))
    (hrun : Guarded Timeline.step Protocol Timeline.init as)
    (hkeys : PrefixFree (RunKeys (served (as ++ healing r reads))))
    (hr : ∀ d ∈ (Timeline.init.steps as).drawn, d.1 < r)
    (hall : ∀ k, (view (Timeline.init.steps as).config.store).lock k ≠ none → k ∈ reads.map Prod.fst)
    (hlate : ∀ x ∈ reads, AllExpired (view (Timeline.init.steps as).config.store) x.2) :
    (∀ k, (view (Timeline.init.steps (as ++ healing r reads)).config.store).lock k = none) ∧
      (∃ replies, (Timeline.init.steps (as ++ healing r reads)).config.log
          = (Timeline.init.steps as).config.log ++ replies ∧
        ∀ en ∈ replies, ∀ k, en.reply ≠ some (.error (.keyLocked k))) ∧
      ∀ c ∈ (Timeline.init.steps as).config.calls, ∀ s ms p ttl,
        c.prewriteArgs = some (s, ms, p, ttl) →
        (∃ ct, ∀ m ∈ ms, (view (Timeline.init.steps (as ++ healing r reads)).config.store).Committed
          m.key s ct) ∨
        ∀ m ∈ ms, ∀ ct, ¬ (view (Timeline.init.steps (as ++ healing r reads)).config.store).Committed
          m.key s ct := by
  have hsub : ∀ k ∈ RunKeys (served as), k ∈ RunKeys (served (as ++ healing r reads)) := by
    rintro k ⟨e, he, hk⟩
    rw [served_append]
    exact ⟨e, List.mem_append_left _ he, hk⟩
  have hkept := kept_steps hkeys hrun fun e he k hk => hsub k ⟨e, he, hk⟩
  have hreads : ∀ x ∈ reads, x.1 ∈ RunKeys (served (as ++ healing r reads)) := by
    intro x hx
    refine ⟨readAt r x, ?_, List.mem_cons_self⟩
    rw [served_append]
    refine List.mem_append_right _ (List.mem_filterMap.mpr ⟨.serve (readAt r x), ?_, rfl⟩)
    exact List.mem_cons_of_mem _ (List.mem_map_of_mem hx)
  obtain ⟨hguard, hlocks, replies, hlog, hserved⟩ :=
    heal_steps (t := (Timeline.init.steps as).step (.draw r .read)) hkept.wf
      (List.mem_append_right _ List.mem_cons_self)
      (fun k l hl => UInt64.le_of_lt (hr _ (hkept.stamped.lock k l hl))) hreads hlate
  have hrun' : Guarded Timeline.step Protocol Timeline.init (as ++ healing r reads) :=
    Timeline.guarded_steps.mpr ⟨hrun, protocol_draw hr (by rintro s ⟨⟩), hguard⟩
  have hall' := overview_steps hrun' hkeys
  rw [Timeline.steps_append] at hall' ⊢
  -- a lock that is left was there before and was not read
  have hfree : ∀ k, (view ((Timeline.init.steps as).steps (healing r reads)).config.store).lock k
      = none := by
    intro k
    cases hl : (view ((Timeline.init.steps as).steps (healing r reads)).config.store).lock k with
    | none => rfl
    | some l =>
        obtain ⟨hl', hk⟩ := hlocks k l hl
        have hsome : (view (Timeline.init.steps as).config.store).lock k = some l := hl'
        exact absurd (hall k (by simp [hsome])) hk
  refine ⟨hfree, ⟨replies, hlog, hserved⟩, ?_⟩
  intro c hc s ms p ttl hargs
  have hc' : c ∈ ((Timeline.init.steps as).steps (healing r reads)).config.calls := by
    obtain ⟨en, hen, rfl⟩ := List.mem_map.mp hc
    refine List.mem_map.mpr ⟨en, ?_, rfl⟩
    change en ∈ (((Timeline.init.steps as).step (.draw r .read)).steps _).config.log
    rw [hlog]
    exact List.mem_append_left _ hen
  by_cases hsome : ∃ m ∈ ms, ∃ ct,
      (view ((Timeline.init.steps as).steps (healing r reads)).config.store).Committed m.key s ct
  · obtain ⟨m, hm, ct, hcom⟩ := hsome
    obtain ⟨ct', hprimary⟩ := hall'.atomic.primary s p m.key ct ⟨c, hc', ms, ttl, hargs⟩ hcom
    refine Or.inl ⟨ct', fun m' hm' => ?_⟩
    rcases hall'.locked_or_committed hc' hargs hm' hprimary with ⟨l, hl, -⟩ | hcom'
    · rw [hfree] at hl
      cases hl
    · exact hcom'
  · exact Or.inr fun m hm ct hcom => hsome ⟨m, hm, ct, hcom⟩

/-- The commit that has stopped behind its primary key is rolled forward. -/
theorem expired_locks_healed_stopped :
    ∃ ct, (view (Timeline.init.steps (stoppedCommit ++ healing 65540 [([2], fun _ => 4000)])
        ).config.store).Committed [2] 65536 ct ∧
      (view (Timeline.init.steps (stoppedCommit ++ healing 65540 [([2], fun _ => 4000)])
        ).config.store).lock [2] = none := by
  have hlock : ∀ k l, (view (Timeline.init.steps stoppedCommit).config.store).lock k = some l →
      k = [2] ∧ l = (Lock.mk [1] 65536 3000 .put).stored := by
    intro k l hl
    have hstore : (Timeline.init.steps stoppedCommit).config.store =
        ((Keyspace.empty.apply (stageBatch 65536 [1] 3000 (.put [1] [10]))).apply
          (stageBatch 65536 [1] 3000 (.put [2] [20]))).apply
          (settleBatch [1] 65537 ⟨65536, .put⟩) := rfl
    rw [hstore, view_settleBatch, view_stageBatch, view_stageBatch, View.settle_lock,
      View.stage_lock, View.stage_lock] at hl
    split_ifs at hl with h₁ h₂ h₃
    · exact ⟨h₂, (Option.some.inj hl).symm⟩
    · exact absurd h₃ h₁
    · simp at hl
  have hall : ∀ k, (view (Timeline.init.steps stoppedCommit).config.store).lock k ≠ none →
      k ∈ [(([2] : Bytes), fun _ : ℕ => (4000 : UInt64))].map Prod.fst := by
    intro k hk
    obtain ⟨l, hl⟩ := Option.ne_none_iff_exists'.mp hk
    rw [(hlock k l hl).1]
    exact List.mem_cons_self
  have hlate : ∀ x ∈ [(([2] : Bytes), fun _ : ℕ => (4000 : UInt64))],
      AllExpired (view (Timeline.init.steps stoppedCommit).config.store) x.2 := by
    intro x hx k l hl i
    obtain ⟨-, rfl⟩ := hlock k l hl
    rw [List.mem_singleton.mp hx]
    exact ⟨(by decide : expired 4000 65536 3000), (by decide : expired 4000 65536 3000)⟩
  obtain ⟨hfree, -, hwhole⟩ := expired_locks_healed stoppedCommit 65540 [([2], fun _ => 4000)]
    protocol_stoppedCommit (prefixFree_runKeys (by decide)) (by decide) hall hlate
  rcases hwhole (.prewrite 65536 [.put [1] [10], .put [2] [20]] [1] 3000) List.mem_cons_self 65536 _
    _ _ rfl with ⟨ct, hcom⟩ | hnone
  · exact ⟨ct, hcom (.put [2] [20]) (List.mem_cons_of_mem _ List.mem_cons_self), hfree [2]⟩
  · exact absurd ⟨.put, OpType.noConfusion, rfl⟩ (hnone (.put [1] [10]) List.mem_cons_self 65537)

end AcidKv
