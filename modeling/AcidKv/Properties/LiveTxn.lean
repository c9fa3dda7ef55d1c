import AcidKv.Properties.Clients

/-!
# Live transactions and the requests of others

While the primary lock of a transaction is alive, nobody else should touch the transaction.
`check_txn_status` respects this.  `resolve_lock` does not: when it has learnt that the
transaction is alive it looks at the clock once more and judges the lock in the way by a TTL of
its own.  For a prewrite that is the TTL stored with that lock, which heartbeats do not refresh,
and for a read it is the literal 3000 of the lock that `get` makes up.

`InTime` says which locks a request has to find unexpired, and by which TTL, so that it leaves the
transaction alone.
-/

namespace AcidKv

open LockResolver

/-- Reads, status queries and the prewrites of other transactions than `s`. -/
def Call.ByOthers (s : UInt64) : Call → Prop
  | .get _ _ => True
  | .scan _ _ _ _ => True
  | .checkTxnStatus _ _ => True
  | .prewrite t _ _ _ => t ≠ s
  | .batchPrewrite t _ _ _ => t ≠ s
  | _ => False

/-- The locks of `s` that the request looks at are in time, whenever it reads the clock. -/
structure InTime (T : UInt64 → Prop) (v : View) (c : Call) (p : Bytes) (s : UInt64) : Prop where
  /-- A lock in the way, by the TTL that it is judged by. -/
  met : ∀ k l lr now, c.Resolves v k l lr → v.lock k = some l → l.startTs = s → T now →
    ¬ expired now s lr.ttl
  /-- A key other than the primary one whose status is asked for as if it were. -/
  queried : ∀ q l now, q ≠ p → c = .checkTxnStatus q s → v.lock q = some l → l.startTs = s →
    T now → ¬ expired now s l.ttl
  /-- The `u64` sum for the primary lock does not wrap around. -/
  unwrapped : ∀ l now, c.Queries v v p s → v.lock p = some l → T now → expired now s l.ttl →
    (s >>> 16).toNat + l.ttl.toNat < now.toNat

/-- The locks of `s` stand as they did, and there is no new record of `s`. -/
structure Untouched (s : UInt64) (v₀ v : View) : Prop where
  lock : ∀ k l, v₀.lock k = some l → l.startTs = s → v.lock k = some l
  write : ∀ k ts op, v.write k ts = some ⟨s, op⟩ → v₀.write k ts = some ⟨s, op⟩

section

variable {U : Set Bytes} {T : UInt64 → Prop} {c : Call} {v₀ v v' : View} {s : UInt64}

/-- Settling a lock of another transaction. -/
lemma Untouched.settle (h : Untouched s v₀ v) {k : Bytes} {l : Lock} {ts : UInt64} {op : OpType}
    (hl : v.lock k = some l) (hne : l.startTs ≠ s) :
    Untouched s v₀ (v.settle k ts ⟨l.startTs, op⟩) where
  lock := by
    intro k' l' hl' hs
    have hk : k' ≠ k := by
      rintro rfl
      rw [h.lock k' l' hl' hs, Option.some.injEq] at hl
      exact hne (hl ▸ hs)
    rw [View.settle_lock, if_neg hk]
    exact h.lock k' l' hl' hs
  write := by
    intro k' ts' op' hw
    rw [View.settle_write] at hw
    split_ifs at hw with hk
    · cases hw
      exact absurd rfl hne
    · exact h.write k' ts' op' hw

lemma Untouched.stage (h : Untouched s v₀ v) {t ttl : UInt64} {p : Bytes} {m : Mutation}
    (hne : t ≠ s) (hfree : ∀ l, v.lock m.key = some l → l.startTs = t) :
    Untouched s v₀ (v.stage t p ttl m) where
  lock := by
    intro k l hl hs
    have hk : k ≠ m.key := by
      rintro rfl
      exact hne ((hfree l (h.lock _ l hl hs)).symm.trans hs)
    rw [View.stage_lock, if_neg hk]
    exact h.lock k l hl hs
  write := h.write

lemma Call.ByOthers.prewrite_ne {t ttl : UInt64} {ms : List Mutation} {p : Bytes}
    (h : c.ByOthers s) (hargs : c.prewriteArgs = some (t, ms, p, ttl)) : t ≠ s := by
  cases c with
  | prewrite _ _ _ _ => cases hargs; exact h
  | batchPrewrite _ _ _ _ => cases hargs; exact h
  | _ => cases hargs

/-- A lock of `s` that stands during the request of another is as it was when that began. -/
lemma Moves.lock_of_other (hmoves : Moves U T c v₀ v₀ v) (hc : c.ByOthers s) {k : Bytes} {l : Lock}
    (hl : v.lock k = some l) (hs : l.startTs = s) : v₀.lock k = some l := by
  rcases hmoves.lock_origin hl with ⟨l', hl', -, rfl | ⟨p, t, ttl, rfl⟩⟩ | ⟨ms, p, ttl, hargs⟩
  · exact hl'
  · exact hc.elim
  · exact absurd hs (hc.prewrite_ne hargs)

/-- Transaction `s` is alive at `v`: its primary lock is `lp` on `p`, in time whenever the clock is
read, and no record has decided it. -/
structure Live (T : UInt64 → Prop) (v : View) (p : Bytes) (s : UInt64) (lp : Lock) : Prop where
  lock : v.lock p = some lp
  start : lp.startTs = s
  primary : ∀ k l, v.lock k = some l → l.startTs = s → l.primaryKey = p
  undecided : ∀ ct op, v.write p ct ≠ some ⟨s, op⟩
  inTime : ∀ now, T now → now.toNat ≤ (s >>> 16).toNat + lp.ttl.toNat

lemma Live.primary_unexpired {p : Bytes} {lp : Lock} {now : UInt64} (h : Live T v₀ p s lp)
    (htime : InTime T v₀ c p s) (hq : c.Queries v₀ v₀ p s) (hT : T now) :
    ¬ expired now s lp.ttl := by
  intro hexp
  have hlt := htime.unwrapped lp now hq h.lock hT hexp
  have hle := h.inTime now hT
  omega

/-- No status query finds a lock of a live transaction expired. -/
lemma Live.unexpired {p q : Bytes} {lp l : Lock} {now : UInt64} (h : Live T v₀ p s lp)
    (hc : c.ByOthers s) (htime : InTime T v₀ c p s) (hmoves : Moves U T c v₀ v₀ v)
    (hq : c.Queries v₀ v q s) (hl : v.lock q = some l) (hs : l.startTs = s) (hT : T now) :
    ¬ expired now s l.ttl := by
  have hl₀ := hmoves.lock_of_other hc hl hs
  by_cases hqp : q = p
  · subst hqp
    rw [h.lock, Option.some.injEq] at hl₀
    subst hl₀
    refine h.primary_unexpired htime ?_ hT
    rcases hq with hcall | ⟨k, l', lr, hr, hl', hp', hs'⟩
    · exact Or.inl hcall
    · exact Or.inr ⟨k, l', lr, hr, hmoves.lock_of_other hc hl' hs', hp', hs'⟩
  · -- only the client itself asks about a key that is not the primary one
    rcases hq with hcall | ⟨k, l', lr, hr, hl', hp', hs'⟩
    · exact htime.queried q l now hqp hcall hl₀ hs hT
    · have hpk := h.primary k l' (hmoves.lock_of_other hc hl' hs') hs'
      exact absurd (hp'.symm.trans hpk) hqp

/-- The step: no move of another request settles a lock of a live transaction. -/
lemma Untouched.move {p : Bytes} {lp : Lock} (hc : c.ByOthers s) (hlive : Live T v₀ p s lp)
    (htime : InTime T v₀ c p s) (hmoves : Moves U T c v₀ v₀ v) (h : Untouched s v₀ v)
    (hmove : Move U T c v₀ v v') : Untouched s v₀ v' := by
  have hnone : ∀ ct op, v.write p ct ≠ some ⟨s, op⟩ :=
    fun ct op hw => hlive.undecided ct op (h.write p ct op hw)
  have hprimary : ∀ {k l}, v.lock k = some l → l.startTs = s → l.primaryKey = p :=
    fun hl hls => hlive.primary _ _ (hmoves.lock_of_other hc hl hls) hls
  cases hmove with
  | stage hargs _ _ hfree => exact h.stage (hc.prewrite_ne hargs) hfree
  | commitKey hargs =>
      exfalso
      cases c with
      | commit _ _ _ => exact hc
      | batchCommit _ _ _ => exact hc
      | _ => cases hargs
  | @rollForward k l lr ts _ _ hl hp _ =>
      refine h.settle hl fun hls => ?_
      obtain ⟨op, -, hw⟩ := hp
      rw [hprimary hl hls, hls] at hw
      exact hnone ts op hw
  | @expire q l now hq hl hT hexp _ =>
      refine h.settle hl fun hls => ?_
      rw [hls] at hq hexp
      exact hlive.unexpired hc htime hmoves hq hl hls hT hexp
  | @rollBack k l lr _ hl hdead =>
      refine h.settle hl fun hls => ?_
      rw [hprimary hl hls, hls] at hdead
      rcases hdead.gone with ⟨ts, hw⟩ | hgone
      · exact hnone ts _ hw
      · exact hgone ⟨lp, h.lock p lp hlive.lock hlive.start, hlive.start⟩
  | @timeOut k l lr lp' t t' hr hl _ _ _ _ hT' hexp _ =>
      refine h.settle hl fun hls => ?_
      rw [hls] at hexp
      exact htime.met k l lr t' hr (hmoves.lock_of_other hc hl hls) hls hT' hexp
  | abandon hc' => subst hc'; exact hc.elim
  | forbid hc' => subst hc'; exact hc.elim
  | refresh hc' => subst hc'; exact hc.elim
  | collect hc' => subst hc'; exact hc.elim

lemma Untouched.moves {p : Bytes} {lp : Lock} (hc : c.ByOthers s) (hlive : Live T v₀ p s lp)
    (htime : InTime T v₀ c p s) (hmoves : Moves U T c v₀ v₀ v) : Untouched s v₀ v := by
  induction hmoves with
  | refl => exact ⟨fun _ _ hl _ => hl, fun _ _ _ hw => hw⟩
  | tail hprev hmove ih => exact ih.move hc hlive htime hprev hmove

end

/-- In every state reached by clients that give each transaction one primary key: while the
primary lock of `s` is alive and `s` undecided, a request of another that finds the locks of `s`
in time removes none of them and adds no Rollback record of `s`. -/
theorem live_transaction_untouched (es : List Event) (e : Event) (s : UInt64) (p : Bytes)
    (lp : Lock) (hone : OnePrimary (es.map Event.call)) (hcall : e.call.ByOthers s)
    (hlock : (view (Config.init.steps es).store).lock p = some lp) (hs : lp.startTs = s)
    (hp : lp.primaryKey = p)
    (hnone : ∀ ct op, (view (Config.init.steps es).store).write p ct ≠ some ⟨s, op⟩)
    (hlive : ∀ now, e.Reading now → now.toNat ≤ (s >>> 16).toNat + lp.ttl.toNat)
    (htime : InTime e.Reading (view (Config.init.steps es).store) e.call p s) :
    (∀ k l, (view (Config.init.steps es).store).lock k = some l → l.startTs = s →
      (view (e.exec (Config.init.steps es).store).2).lock k = some l) ∧
    ∀ k ts, (view (e.exec (Config.init.steps es).store).2).write k ts = some ⟨s, .rollback⟩ →
      (view (Config.init.steps es).store).write k ts = some ⟨s, .rollback⟩ := by
  obtain ⟨hwf, hfrom⟩ := locksFrom_steps es
  have hprimary : ∀ k l, (view (Config.init.steps es).store).lock k = some l → l.startTs = s →
      l.primaryKey = p := by
    intro k l hl hls
    rw [hfrom.primary_eq hone hl hlock (hls.trans hs.symm), hp]
  obtain ⟨halong, -⟩ := exec_along hwf e fun _ _ => trivial
  have hkept := Untouched.moves hcall ⟨hlock, hs, hprimary, hnone, hlive⟩ htime halong.moves
  exact ⟨hkept.lock, fun k ts hw => hkept.write k ts _ hw⟩

/-- A lock on a secondary key that is met within three seconds. -/
theorem live_transaction_untouched_soon :
    (view (Event.exec { call := .get [2] 70000, clock := fun _ => 2000 } (Config.init.steps
        [{ call := .prewrite 65536 [.put [1] [10], .put [2] [20]] [1] 60000 }]).store).2).lock [2]
      = some ⟨[1], 65536, 60000, .put⟩ := by
  refine (live_transaction_untouched
    [{ call := .prewrite 65536 [.put [1] [10], .put [2] [20]] [1] 60000 }]
    { call := .get [2] 70000, clock := fun _ => 2000 } 65536 [1] ⟨[1], 65536, 60000, .put⟩
    ?_ trivial (by rfl) rfl rfl ?_ ?_ ⟨?_, ?_, ?_⟩).1 [2] ⟨[1], 65536, 60000, .put⟩ (by rfl) rfl
  · exact onePrimary_single (.prewrite 65536 [.put [1] [10], .put [2] [20]] [1] 60000) (by decide)
  · intro ct op hw
    cases hw
  · rintro now ⟨i, rfl⟩
    show (2000 : UInt64).toNat ≤ ((65536 : UInt64) >>> 16).toNat + (60000 : UInt64).toNat
    decide
  · rintro k l lr now ⟨-, -, rfl⟩ - - ⟨i, rfl⟩
    show ¬ expired 2000 65536 3000
    decide
  · intro q l now _ hc
    cases hc
  · rintro l now - hl ⟨i, rfl⟩ hexp
    cases hl
    have hlive : ¬ expired 2000 65536 60000 := by decide
    exact absurd hexp hlive

/-- The transaction may live for a minute.  A read of its secondary key after five seconds rolls
that key back all the same. -/
theorem live_transaction_rolled_back :
    (view (Config.init.steps
        [{ call := .prewrite 65536 [.put [1] [10], .put [2] [20]] [1] 60000 }]).store).lock [1]
        = some ⟨[1], 65536, 60000, .put⟩ ∧
      (view (Event.exec { call := .get [2] 70000, clock := fun _ => 5000 } (Config.init.steps
        [{ call := .prewrite 65536 [.put [1] [10], .put [2] [20]] [1] 60000 }]).store).2).lock [2]
        = none ∧
      (view (Event.exec { call := .get [2] 70000, clock := fun _ => 5000 } (Config.init.steps
        [{ call := .prewrite 65536 [.put [1] [10], .put [2] [20]] [1] 60000 }]).store).2).write
        [2] 65536 = some ⟨65536, .rollback⟩ := by
  exact ⟨by rfl, by rfl, by rfl⟩

end AcidKv
