import AcidKv.Abstract.Moves

/-!
# What a move can do

The moves read backwards.  A record that was not there before comes from a lock on its key or
from the client's rollback (`Move.write_origin`), a lock from a prewrite (`Move.lock_origin`), a
value from a prewrite (`Move.data_origin`).  Most invariants need no more than this.
-/

namespace AcidKv

/-- A request may settle the lock `l` on `k`: it resolves it, or asks for the status of its
transaction at `k`. -/
def Call.Settles (c : Call) (v₀ v : View) (k : Bytes) (l : Lock) : Prop :=
  (∃ lr, c.Resolves v₀ k l lr) ∨ c.Queries v₀ v k l.startTs

/-- Where a record on `k` at `ts` that was not there at `v` comes from. -/
inductive Written (U : Set Bytes) (c : Call) (v₀ v v' : View) (k : Bytes) (ts : UInt64)
    (w : WriteRecord) : Prop where
  | commit {l : Lock} {ks : List Bytes} (hc : c.commitArgs = some (w.startTs, ts, ks))
      (hk : k ∈ ks) (hl : v.lock k = some l) (hs : l.startTs = w.startTs) (hop : w.op = l.op)
      (hgone : v'.lock k = none) (hfirst : FirstCommitted c v₀ v w.startTs ts ks k)
  | forward {l lr : Lock} (hr : c.Resolves v₀ k l lr) (hpass : Passed U c v₀ v k)
      (hl : v.lock k = some l) (hs : l.startTs = w.startTs) (hop : w.op = lr.op)
      (hp : v.Committed l.primaryKey w.startTs ts) (hseen : Seen v l.primaryKey ts)
      (hgone : v'.lock k = none)
  | back {l : Lock} (hl : v.lock k = some l) (hs : l.startTs = ts) (hw : w = ⟨ts, .rollback⟩)
      (hgone : v'.lock k = none)
      (hwhy : (∃ ks, c = .rollback ts ks) ∨ c.Settles v₀ v k l)
  | mark {ks : List Bytes} (hc : c = .rollback ts ks) (hk : k ∈ ks) (hw : w = ⟨ts, .rollback⟩)
      (hl : ¬ v'.LockedBy k ts)

/-- A lock that a prewrite places on `k`, with what the prewrite has checked. -/
structure Placed (U : Set Bytes) (c : Call) (v₀ v v' : View) (k : Bytes) (l : Lock) :
    Prop where
  args : ∃ ms p ttl m, c.prewriteArgs = some (l.startTs, ms, p, ttl) ∧ m ∈ ms ∧ m.key = k ∧
    l = (Lock.mk p l.startTs ttl m.opType).stored
  check : ∀ ts w, v₀.write k ts = some w → Reached U v k ts → ts < l.startTs
  free : ∀ l', v.lock k = some l' → l'.startTs = l.startTs
  data : l.op = .put → (v'.data k l.startTs).isSome

section

variable {U : Set Bytes} {T : UInt64 → Prop} {c : Call} {v₀ v v' : View}

/-- A settled key shows the new record and no lock; the rest is as it was. -/
lemma View.settle_origin {k k' : Bytes} {ts ts' : UInt64} {w w' : WriteRecord}
    (h : (v.settle k ts w).write k' ts' = some w') :
    v.write k' ts' = some w' ∨
      (k' = k ∧ ts' = ts ∧ w' = w ∧ (v.settle k ts w).lock k = none) := by
  rw [View.settle_write] at h
  split_ifs at h with hk
  · cases h
    exact Or.inr ⟨hk.1, hk.2, rfl, by simp⟩
  · exact Or.inl h

theorem Move.write_origin (h : Move U T c v₀ v v') {k : Bytes} {ts : UInt64} {w : WriteRecord}
    (hw : v'.write k ts = some w) :
    v.write k ts = some w ∨ Written U c v₀ v v' k ts w := by
  cases h with
  | stage => exact Or.inl hw
  | commitKey hc hk hl hs hfirst =>
      rcases View.settle_origin hw with hw | ⟨rfl, rfl, rfl, hgone⟩
      · exact Or.inl hw
      · exact Or.inr (.commit hc hk hl hs rfl hgone hfirst)
  | rollForward hr hpass hl hp hseen =>
      rcases View.settle_origin hw with hw | ⟨rfl, rfl, rfl, hgone⟩
      · exact Or.inl hw
      · exact Or.inr (.forward hr hpass hl rfl rfl hp hseen hgone)
  | expire hq hl _ _ _ =>
      rcases View.settle_origin hw with hw | ⟨rfl, rfl, rfl, hgone⟩
      · exact Or.inl hw
      · exact Or.inr (.back hl rfl rfl hgone (Or.inr (Or.inr hq)))
  | rollBack hr hl _ =>
      rcases View.settle_origin hw with hw | ⟨rfl, rfl, rfl, hgone⟩
      · exact Or.inl hw
      · exact Or.inr (.back hl rfl rfl hgone (Or.inr (Or.inl ⟨_, hr⟩)))
  | timeOut hr hl _ _ _ _ _ _ _ =>
      rcases View.settle_origin hw with hw | ⟨rfl, rfl, rfl, hgone⟩
      · exact Or.inl hw
      · exact Or.inr (.back hl rfl rfl hgone (Or.inr (Or.inl ⟨_, hr⟩)))
  | abandon hc hk hl =>
      rcases View.settle_origin hw with hw | ⟨rfl, rfl, rfl, hgone⟩
      · exact Or.inl hw
      · obtain ⟨l, hl, hs⟩ := hl
        exact Or.inr (.back hl hs rfl hgone (Or.inl ⟨_, hc⟩))
  | forbid hc hk hl =>
      rw [View.mark_write] at hw
      split_ifs at hw with hk'
      · obtain ⟨rfl, rfl⟩ := hk'
        cases hw
        exact Or.inr (.mark hc hk rfl hl)
      · exact Or.inl hw
  | refresh => exact Or.inl hw
  | collect _ _ hwrite _ _ => exact Or.inl (hwrite k ts w hw)

/-- A version stays in some form; only garbage collection takes it, and leaves a newer one. -/
theorem Move.version_survives (h : Move U T c v₀ v v') {k : Bytes} {ts : UInt64} {w : WriteRecord}
    (hw : v.write k ts = some w) : ∃ ts' w', ts ≤ ts' ∧ v'.write k ts' = some w' := by
  have hkeep : ∀ {v' : View}, (v'.write k ts).isSome →
      ∃ ts' w', ts ≤ ts' ∧ v'.write k ts' = some w' := by
    intro v' hsome
    obtain ⟨w', hw'⟩ := Option.isSome_iff_exists.mp hsome
    exact ⟨ts, w', UInt64.le_refl ts, hw'⟩
  cases h with
  | collect _ _ _ hkept _ =>
      rcases hkept k ts w hw with hw' | ⟨-, ts', w', hlt, -, hw'⟩
      · exact ⟨ts, w, UInt64.le_refl ts, hw'⟩
      · exact ⟨ts', w', UInt64.le_of_lt hlt, hw'⟩
  | stage => exact ⟨ts, w, UInt64.le_refl ts, hw⟩
  | refresh => exact ⟨ts, w, UInt64.le_refl ts, hw⟩
  | _ =>
      refine hkeep ?_
      simp only [View.settle_write, View.mark_write, hw]
      split_ifs <;> rfl

/-- A lock was there before, up to its TTL, or is newly placed. -/
theorem Move.lock_origin (h : Move U T c v₀ v v') {k : Bytes} {l : Lock}
    (hl : v'.lock k = some l) :
    (∃ l', v.lock k = some l' ∧ l = { l' with ttl := l.ttl } ∧
      (l = l' ∨ ∃ p s ttl, c = .heartbeat p s ttl)) ∨ Placed U c v₀ v v' k l := by
  cases h with
  | @stage s ttl ms p m hc hm hcheck hfree =>
      rw [View.stage_lock] at hl
      split_ifs at hl with hk
      · cases hl
        subst hk
        refine Or.inr ⟨⟨_, _, _, _, hc, hm, rfl, rfl⟩, hcheck, hfree, fun hop => ?_⟩
        cases m with
        | put key value => simp [View.stage, View.stageData, Mutation.key]
        | delete key => cases hop
      · exact Or.inl ⟨l, hl, rfl, Or.inl rfl⟩
  | forbid => exact Or.inl ⟨l, hl, rfl, Or.inl rfl⟩
  | refresh hc hl' hs =>
      rw [View.putLock_lock] at hl
      split_ifs at hl with hk
      · cases hl
        rw [hk]
        exact Or.inl ⟨_, hl', rfl, Or.inr ⟨_, _, _, hc⟩⟩
      · exact Or.inl ⟨l, hl, rfl, Or.inl rfl⟩
  | collect _ hlock _ _ _ =>
      rw [hlock] at hl
      exact Or.inl ⟨l, hl, rfl, Or.inl rfl⟩
  | _ =>
      rw [View.settle_lock] at hl
      split_ifs at hl with hk
      exact Or.inl ⟨l, hl, rfl, Or.inl rfl⟩

/-- A lock stays with its transaction, or a record of its transaction takes its place. -/
theorem Move.lock_kept_or_settled (h : Move U T c v₀ v v') {k : Bytes} {l : Lock}
    (hl : v.lock k = some l) :
    v'.LockedBy k l.startTs ∨ ∃ ts op, v'.write k ts = some ⟨l.startTs, op⟩ := by
  have hsettle : ∀ {k' : Bytes} {ts : UInt64} {l' : Lock} {op : OpType}, v.lock k' = some l' →
      (v.settle k' ts ⟨l'.startTs, op⟩).LockedBy k l.startTs ∨
        ∃ ts' op', (v.settle k' ts ⟨l'.startTs, op⟩).write k ts' = some ⟨l.startTs, op'⟩ := by
    intro k' ts l' op hl'
    by_cases hk : k = k'
    · subst hk
      obtain rfl : l = l' := Option.some.inj (hl.symm.trans hl')
      exact Or.inr ⟨ts, op, by simp⟩
    · exact Or.inl ⟨l, by rw [View.settle_lock, if_neg hk, hl], rfl⟩
  cases h with
  | @stage s ttl ms p m hc hm hcheck hfree =>
      by_cases hk : k = m.key
      · subst hk
        exact Or.inl ⟨_, by rw [View.stage_lock, if_pos rfl], (hfree l hl).symm⟩
      · exact Or.inl ⟨l, by rw [View.stage_lock, if_neg hk, hl], rfl⟩
  | commitKey hc hk hl' hs hfirst =>
      subst hs
      exact hsettle hl'
  | rollForward hr hpass hl' hp hseen => exact hsettle hl'
  | expire hq hl' _ _ _ => exact hsettle hl'
  | rollBack hr hl' _ => exact hsettle hl'
  | timeOut hr hl' _ _ _ _ _ _ _ => exact hsettle hl'
  | abandon hc hk hl' =>
      obtain ⟨l', hl', rfl⟩ := hl'
      exact hsettle hl'
  | forbid => exact Or.inl ⟨l, hl, rfl⟩
  | @refresh p s ttl l' hc hl' hs =>
      by_cases hk : k = p
      · subst hk
        obtain rfl : l = l' := Option.some.inj (hl.symm.trans hl')
        exact Or.inl ⟨{ l with ttl := ttl }, by rw [View.putLock_lock, if_pos rfl], rfl⟩
      · exact Or.inl ⟨l, by rw [View.putLock_lock, if_neg hk, hl], rfl⟩
  | collect _ hlock _ _ _ => exact Or.inl ⟨l, by rw [hlock, hl], rfl⟩

/-- A value was there before or is staged by a prewrite. -/
theorem Move.data_origin (h : Move U T c v₀ v v') {k x : Bytes} {s : UInt64}
    (hx : v'.data k s = some x) :
    v.data k s = some x ∨ ∃ ms p ttl, c.prewriteArgs = some (s, ms, p, ttl) ∧ .put k x ∈ ms := by
  cases h with
  | @stage s' ttl ms p m hc hm _ _ =>
      cases m with
      | put key value =>
          simp only [View.stage, View.putLock_data, View.stageData] at hx
          split_ifs at hx with hk
          · obtain ⟨rfl, rfl⟩ := hk
            cases hx
            exact Or.inr ⟨_, _, _, hc, hm⟩
          · exact Or.inl hx
      | delete key => exact Or.inl hx
  | collect _ _ _ _ hdata => exact Or.inl (hdata k s x hx)
  | _ => exact Or.inl hx

/-- Apart from garbage collection, only a transaction's own prewrite touches its values. -/
theorem Move.data_frame (h : Move U T c v₀ v v') (hgc : ∀ sp, c ≠ .gc sp) {s : UInt64}
    (hown : ∀ ms p ttl, c.prewriteArgs ≠ some (s, ms, p, ttl)) (k : Bytes) :
    v'.data k s = v.data k s := by
  cases h with
  | @stage s' ttl ms p m hc hm _ _ =>
      have hne : s ≠ s' := by
        rintro rfl
        exact hown ms p ttl hc
      cases m with
      | put key value => simp [View.stage, View.stageData, hne]
      | delete key => rfl
  | collect hc _ _ _ _ => exact absurd hc (hgc _)
  | _ => rfl

/-! ## The kinds of records -/

/-- Locks are a put's or a delete's. -/
def LockOps (v : View) : Prop := ∀ k l, v.lock k = some l → l.op ≠ .rollback

lemma view_lockOps (st : Store) : LockOps (view st) := fun _ _ hl => (view_lock_op hl).1

lemma LockOps.move (h : LockOps v) (hmove : Move U T c v₀ v v') : LockOps v' := by
  intro k l hl
  rcases hmove.lock_origin hl with ⟨l', hl', heq, -⟩ | hplaced
  · rw [heq]
    exact h k l' hl'
  · obtain ⟨ms, p, ttl, m, -, -, -, heq⟩ := hplaced.args
    rw [heq]
    exact m.opType_ne_rollback

lemma LockOps.moves (h : LockOps v) (hmoves : Moves U T c v₀ v v') : LockOps v' := by
  induction hmoves with
  | refl => exact h
  | tail _ hmove ih => exact ih.move hmove

/-- A new rollback record stands at its transaction's start, on a key which that transaction has
locked or which the client listed. -/
lemma Written.rollback {k : Bytes} {ts : UInt64} {w : WriteRecord} (h : Written U c v₀ v v' k ts w)
    (hops : LockOps v) (hop : w.op = .rollback) :
    w.startTs = ts ∧ (v.LockedBy k ts ∨ ∃ ks, c = .rollback ts ks ∧ k ∈ ks) := by
  cases h with
  | commit _ _ hl _ hop' _ _ => exact absurd (hop' ▸ hop) (hops k _ hl)
  | forward hr _ hl _ hop' _ _ _ =>
      rcases hr.op with heq | heq
      · rw [heq] at hop'
        exact absurd (hop' ▸ hop) (hops k _ hl)
      · rw [hop', heq] at hop
        cases hop
  | back hl hs hw _ _ => exact ⟨by rw [hw], Or.inl ⟨_, hl, hs⟩⟩
  | mark hc hk hw _ => exact ⟨by rw [hw], Or.inr ⟨_, hc, hk⟩⟩

/-- Rollback records stand at the start of their transaction. -/
def RollbacksAtStart (v : View) : Prop := ∀ k ts s, v.write k ts = some ⟨s, .rollback⟩ → ts = s

lemma RollbacksAtStart.move (h : RollbacksAtStart v) (hops : LockOps v)
    (hmove : Move U T c v₀ v v') : RollbacksAtStart v' := by
  intro k ts s hw
  rcases hmove.write_origin hw with hw | hnew
  · exact h k ts s hw
  · exact (hnew.rollback hops rfl).1.symm

/-- Why a request of others rolls back the lock `l` on `k`. -/
inductive Ended (U : Set Bytes) (T : UInt64 → Prop) (c : Call) (v₀ v : View) (k : Bytes)
    (l : Lock) : Prop where
  | expired {now : UInt64} (hq : c.Queries v₀ v k l.startTs) (hT : T now)
      (hexp : LockResolver.expired now l.startTs l.ttl)
  | dead {lr : Lock} (hr : c.Resolves v₀ k l lr) (hdead : Dead U v l.primaryKey l.startTs)
  | timedOut {lr lp : Lock} {t t' : UInt64} (hr : c.Resolves v₀ k l lr)
      (hlp : v.lock l.primaryKey = some lp) (hsame : lp.startTs = l.startTs) (hT : T t)
      (hlive : ¬ LockResolver.expired t l.startTs lp.ttl) (hT' : T t')
      (hexp : LockResolver.expired t' l.startTs lr.ttl)
      (hun : Undecided U v l.primaryKey l.startTs)

/-- Where no client rolls back, a new rollback record is the end of a lock. -/
theorem Move.rolledBack_origin (h : Move U T c v₀ v v') (hops : LockOps v)
    (hrb : ∀ s ks, c ≠ .rollback s ks) {k : Bytes} {s : UInt64} (hback : v'.RolledBack k s) :
    v.RolledBack k s ∨ ∃ l, v.lock k = some l ∧ l.startTs = s ∧ Ended U T c v₀ v k l ∧
      v' = v.settle k s ⟨s, .rollback⟩ := by
  obtain ⟨ts, hw⟩ := hback
  have hold : ∀ {k' : Bytes} {ts' : UInt64} {w : WriteRecord}, w.op ≠ .rollback →
      (v.settle k' ts' w).write k ts = some ⟨s, .rollback⟩ → v.RolledBack k s := by
    intro k' ts' w hop hw
    rcases View.settle_origin hw with hw | ⟨-, -, hw, -⟩
    · exact ⟨ts, hw⟩
    · exact absurd (congrArg WriteRecord.op hw).symm hop
  have hnew : ∀ {k' : Bytes} {l : Lock}, v.lock k' = some l → Ended U T c v₀ v k' l →
      (v.settle k' l.startTs ⟨l.startTs, .rollback⟩).write k ts = some ⟨s, .rollback⟩ →
      v.RolledBack k s ∨ ∃ l', v.lock k = some l' ∧ l'.startTs = s ∧ Ended U T c v₀ v k l' ∧
        v.settle k' l.startTs ⟨l.startTs, .rollback⟩ = v.settle k s ⟨s, .rollback⟩ := by
    intro k' l hl hended hw
    rcases View.settle_origin hw with hw | ⟨rfl, -, hw, -⟩
    · exact Or.inl ⟨ts, hw⟩
    · cases hw
      exact Or.inr ⟨l, hl, rfl, hended, rfl⟩
  cases h with
  | stage => exact Or.inl ⟨ts, hw⟩
  | commitKey hc hk hl hs hfirst => exact Or.inl (hold (hops _ _ hl) hw)
  | rollForward hr hpass hl hp hseen =>
      refine Or.inl (hold ?_ hw)
      rcases hr.op with heq | heq
      · exact heq ▸ hops _ _ hl
      · exact heq ▸ OpType.noConfusion
  | expire hq hl hT hexp hun => exact hnew hl (.expired hq hT hexp) hw
  | rollBack hr hl hdead => exact hnew hl (.dead hr hdead) hw
  | timeOut hr hl hlp hsame hT hlive hT' hexp hun =>
      exact hnew hl (.timedOut hr hlp hsame hT hlive hT' hexp hun) hw
  | abandon hc => exact absurd hc (hrb _ _)
  | forbid hc => exact absurd hc (hrb _ _)
  | refresh => exact Or.inl ⟨ts, hw⟩
  | collect _ _ hwrite _ _ => exact Or.inl ⟨ts, hwrite k ts _ hw⟩

/-! ## Put and Delete records -/

/-- A new Put or Delete record of `s` on `k` comes from a lock of `s` on `k`. -/
theorem Move.committed_origin (h : Move U T c v₀ v v') {k : Bytes} {s ct : UInt64}
    (hcom : v'.Committed k s ct) :
    v.Committed k s ct ∨ v.LockedBy k s ∧ v'.lock k = none ∧
      ((∃ ks, c.commitArgs = some (s, ct, ks) ∧ k ∈ ks ∧ FirstCommitted c v₀ v s ct ks k) ∨
        ∃ l lr, c.Resolves v₀ k l lr ∧ Passed U c v₀ v k ∧ v.lock k = some l ∧
          l.startTs = s ∧ v.Committed l.primaryKey s ct) := by
  obtain ⟨op, hop, hw⟩ := hcom
  rcases h.write_origin hw with hw | hnew
  · exact Or.inl ⟨op, hop, hw⟩
  · right
    cases hnew with
    | commit hc hk hl hs _ hgone hfirst =>
        exact ⟨⟨_, hl, hs⟩, hgone, Or.inl ⟨_, hc, hk, hfirst⟩⟩
    | forward hr hpass hl hs _ hp _ hgone =>
        exact ⟨⟨_, hl, hs⟩, hgone, Or.inr ⟨_, _, hr, hpass, hl, hs, hp⟩⟩
    | back _ _ hw _ _ => cases hw; exact absurd rfl hop
    | mark _ _ hw _ => cases hw; exact absurd rfl hop

/-! ## A transaction's own prewrite -/

section Own

variable {s ttl : UInt64} {ms : List Mutation} {p : Bytes}

/-- A prewrite asks for the status of other transactions only. -/
lemma Call.Queries.ne_start {q : Bytes} {t : UInt64} (hc : c.prewriteArgs = some (s, ms, p, ttl))
    (hq : c.Queries v₀ v q t) : t ≠ s := by
  rcases hq with rfl | ⟨k, l, lr, hr, -, -, rfl⟩
  · cases hc
  · exact hr.ne_start hc

/-- A prewrite settles locks of other transactions only. -/
lemma Call.Settles.ne_start {k : Bytes} {l : Lock} (hc : c.prewriteArgs = some (s, ms, p, ttl))
    (h : c.Settles v₀ v k l) : l.startTs ≠ s := by
  rcases h with ⟨lr, hr⟩ | hq
  · exact hr.ne_start hc
  · exact hq.ne_start hc

/-- Commits and heartbeats ask for no status. -/
lemma Call.Queries.not_commit {q : Bytes} {t : UInt64} (hq : c.Queries v₀ v q t) :
    c.commitArgs = none ∧ ∀ p s ttl, c ≠ .heartbeat p s ttl := by
  rcases hq with rfl | ⟨k, l, lr, hr, -⟩
  · exact ⟨rfl, by simp⟩
  · cases c with
    | get _ _ => exact ⟨rfl, by simp⟩
    | scan _ _ _ _ => exact ⟨rfl, by simp⟩
    | prewrite _ _ _ _ => exact ⟨rfl, by simp⟩
    | batchPrewrite _ _ _ _ => exact ⟨rfl, by simp⟩
    | _ => exact hr.elim

/-- A prewrite of `s` writes no record of `s`. -/
theorem Move.own_record (h : Move U T c v₀ v v') (hc : c.prewriteArgs = some (s, ms, p, ttl))
    {k : Bytes} {ts : UInt64} {op : OpType} (hw : v'.write k ts = some ⟨s, op⟩) :
    v.write k ts = some ⟨s, op⟩ := by
  rcases h.write_origin hw with hw | hnew
  · exact hw
  · exfalso
    cases hnew with
    | commit hc' _ _ _ _ _ _ =>
        rw [(Call.prewrite_only hc).1] at hc'
        cases hc'
    | forward hr _ _ hs _ _ _ _ => exact hr.ne_start hc hs
    | back _ hs hw _ hwhy =>
        cases hw
        rcases hwhy with ⟨ks, rfl⟩ | hsettles
        · cases hc
        · exact hsettles.ne_start hc hs
    | mark hc' _ _ _ =>
        subst hc'
        cases hc

theorem Moves.own_record (h : Moves U T c v₀ v v') (hc : c.prewriteArgs = some (s, ms, p, ttl))
    {k : Bytes} {ts : UInt64} {op : OpType} (hw : v'.write k ts = some ⟨s, op⟩) :
    v.write k ts = some ⟨s, op⟩ := by
  induction h with
  | refl => exact hw
  | tail _ hmove ih => exact ih (hmove.own_record hc hw)

/-- A lock that a prewrite of `s` with primary key `p` has placed on `k`. -/
def View.Prewritten (v : View) (k p : Bytes) (s : UInt64) : Prop :=
  ∃ l, v.lock k = some l ∧ l.primaryKey = Lock.storedKey p ∧ l.startTs = s

lemma View.prewritten_stage (v : View) (s : UInt64) (p : Bytes) (ttl : UInt64) (m : Mutation) :
    (v.stage s p ttl m).Prewritten m.key p s :=
  ⟨_, by rw [View.stage_lock, if_pos rfl], rfl, rfl⟩

lemma View.Prewritten.stage {k : Bytes} (h : v.Prewritten k p s) (ttl : UInt64) (m : Mutation) :
    (v.stage s p ttl m).Prewritten k p s := by
  by_cases hk : k = m.key
  · rw [hk]
    exact v.prewritten_stage s p ttl m
  · obtain ⟨l, hl, hp, hs⟩ := h
    exact ⟨l, by rw [View.stage_lock, if_neg hk, hl], hp, hs⟩

/-- A prewrite removes none of its own locks. -/
lemma Move.own_prewritten {k : Bytes} (h : Move U T c v₀ v v')
    (hc : c.prewriteArgs = some (s, ms, p, ttl)) (hl : v.Prewritten k p s) :
    v'.Prewritten k p s := by
  have hsettle : ∀ {k' : Bytes} {ts : UInt64} {w : WriteRecord} {l' : Lock},
      v.lock k' = some l' → l'.startTs ≠ s → (v.settle k' ts w).Prewritten k p s := by
    intro k' ts w l' hl' hne
    obtain ⟨l, hl, hp, hs⟩ := hl
    refine ⟨l, ?_, hp, hs⟩
    rw [View.settle_lock, if_neg, hl]
    rintro rfl
    rw [hl', Option.some.injEq] at hl
    exact hne (hl ▸ hs)
  cases h with
  | @stage s' ttl' ms' p' m hc' _ _ _ =>
      rw [hc] at hc'
      cases hc'
      exact hl.stage ttl m
  | commitKey hc' => rw [(Call.prewrite_only hc).1] at hc'; cases hc'
  | rollForward hr _ hl' _ _ => exact hsettle hl' (hr.ne_start hc)
  | expire hq hl' _ _ _ => exact hsettle hl' (hq.ne_start hc)
  | rollBack hr hl' _ => exact hsettle hl' (hr.ne_start hc)
  | timeOut hr hl' _ _ _ _ _ _ _ => exact hsettle hl' (hr.ne_start hc)
  | abandon hc' => exact absurd hc' ((Call.prewrite_only hc).2 _ _)
  | forbid hc' => exact absurd hc' ((Call.prewrite_only hc).2 _ _)
  | refresh hc' => rw [hc'] at hc; cases hc
  | collect hc' => rw [hc'] at hc; cases hc

lemma Moves.own_prewritten {k : Bytes} (h : Moves U T c v₀ v v')
    (hc : c.prewriteArgs = some (s, ms, p, ttl)) (hl : v.Prewritten k p s) :
    v'.Prewritten k p s := by
  induction h with
  | refl => exact hl
  | tail _ hmove ih => exact hmove.own_prewritten hc ih

end Own

/-! ## Over a whole request -/

/-- The locks that stand during a request were there when it began, or are the request's own. -/
theorem Moves.lock_origin (h : Moves U T c v₀ v v') {k : Bytes} {l : Lock}
    (hl : v'.lock k = some l) :
    (∃ l', v.lock k = some l' ∧ l = { l' with ttl := l.ttl } ∧
      (l = l' ∨ ∃ p s ttl, c = .heartbeat p s ttl)) ∨
      ∃ ms p ttl, c.prewriteArgs = some (l.startTs, ms, p, ttl) := by
  induction h generalizing l with
  | refl => exact Or.inl ⟨l, hl, rfl, Or.inl rfl⟩
  | tail _ hmove ih =>
      rcases hmove.lock_origin hl with ⟨l', hl', heq, hsame⟩ | hplaced
      · rcases ih hl' with ⟨l₂, hl₂, heq₂, hsame₂⟩ | ⟨ms, p, ttl, hc⟩
        · refine Or.inl ⟨l₂, hl₂, by rw [heq, heq₂], ?_⟩
          rcases hsame with rfl | hbeat
          · exact hsame₂
          · exact Or.inr hbeat
        · exact Or.inr ⟨ms, p, ttl, by rw [heq]; exact hc⟩
      · obtain ⟨ms, p, ttl, m, hc, -, -, -⟩ := hplaced.args
        exact Or.inr ⟨ms, p, ttl, hc⟩

/-- A lock of a transaction whose prewrite this is not was there when the request began. -/
theorem Moves.lock_before (h : Moves U T c v₀ v v') {k : Bytes} {l : Lock}
    (hl : v'.lock k = some l) (hown : ∀ ms p ttl, c.prewriteArgs ≠ some (l.startTs, ms, p, ttl)) :
    ∃ l', v.lock k = some l' ∧ l = { l' with ttl := l.ttl } := by
  rcases h.lock_origin hl with ⟨l', hl', heq, -⟩ | ⟨ms, p, ttl, hc⟩
  · exact ⟨l', hl', heq⟩
  · exact absurd hc (hown ms p ttl)

/-- Where the status of a transaction is asked for, its locks are as they were when the request
began. -/
theorem Moves.lock_of_queries (h : Moves U T c v₀ v v') {k q : Bytes} {l : Lock}
    (hl : v'.lock k = some l) (hq : c.Queries v₀ v' q l.startTs) : v.lock k = some l := by
  rcases h.lock_origin hl with ⟨l', hl', -, rfl | ⟨p, s, ttl, hbeat⟩⟩ | ⟨ms, p, ttl, hargs⟩
  · exact hl'
  · exact absurd hbeat (hq.not_commit.2 p s ttl)
  · exact absurd rfl (hq.ne_start hargs)

/-- A lock that a request may settle was there when the request began. -/
lemma Call.Settles.before {k : Bytes} {l : Lock} (h : c.Settles v₀ v k l)
    (hl : v.lock k = some l) (hmoves : Moves U T c v₀ v₀ v) :
    v₀.lock k = some l ∧ c.Settles v₀ v₀ k l := by
  rcases h with ⟨lr, hr⟩ | hq
  · exact ⟨hmoves.lock_of_queries hl (hr.queries hl), Or.inl ⟨lr, hr⟩⟩
  · refine ⟨hmoves.lock_of_queries hl hq, Or.inr ?_⟩
    rcases hq with hc | ⟨k', l', lr, hr, hl', hp, hs⟩
    · exact Or.inl hc
    · exact Or.inr ⟨k', l', lr, hr, hmoves.lock_of_queries hl' (hr.queries hl'), hp, hs⟩

/-- Where it is not a commit, a request takes the commit timestamps it writes from what was
committed when it began. -/
theorem Moves.commit_time_before (h : Moves U T c v₀ v₀ v) (hcommit : c.commitArgs = none)
    {k : Bytes} {s ct : UInt64} (hcom : v.Committed k s ct) : ∃ q, v₀.Committed q s ct := by
  induction h generalizing k with
  | refl => exact ⟨k, hcom⟩
  | tail _ hmove ih =>
      rcases hmove.committed_origin hcom with hcom | ⟨-, -, hnew⟩
      · exact ih hcom
      · rcases hnew with ⟨ks, hc, -⟩ | ⟨l, lr, -, -, -, -, hp⟩
        · rw [hcommit] at hc
          cases hc
        · exact ih hp

/-! ## Records in sight -/

/-- A request that begins at `v` may write a record on `k` at `ts`, to settle a lock there. -/
def MayWrite (c : Call) (v : View) (k : Bytes) (ts : UInt64) : Prop :=
  ∃ l, v.lock k = some l ∧ c.Settles v v k l ∧
    (ts = l.startTs ∨ ∃ q, v.Committed q l.startTs ts)

lemma Written.mayWrite {k : Bytes} {ts : UInt64} {w : WriteRecord}
    (h : Written U c v₀ v v' k ts w) (hmoves : Moves U T c v₀ v₀ v)
    (hcommit : c.commitArgs = none) (hrb : ∀ s ks, c ≠ .rollback s ks) : MayWrite c v₀ k ts := by
  cases h with
  | commit hc _ _ _ _ _ _ =>
      rw [hcommit] at hc
      cases hc
  | forward hr _ hl hs _ hp _ _ =>
      obtain ⟨hl₀, hsettles⟩ := Call.Settles.before (Or.inl ⟨_, hr⟩) hl hmoves
      exact ⟨_, hl₀, hsettles, Or.inr (hmoves.commit_time_before hcommit (hs ▸ hp))⟩
  | back hl hs _ _ hwhy =>
      rcases hwhy with ⟨ks, hc⟩ | hsettles
      · exact absurd hc (hrb ts ks)
      · obtain ⟨hl₀, hsettles⟩ := hsettles.before hl hmoves
        exact ⟨_, hl₀, hsettles, Or.inl hs.symm⟩
  | mark hc _ _ _ => exact absurd hc (hrb _ _)

/-- The versions that stand during a request were there when it began, or come from a lock that
it may settle. -/
theorem Moves.version_before (h : Moves U T c v₀ v₀ v) (hcommit : c.commitArgs = none)
    (hrb : ∀ s ks, c ≠ .rollback s ks) {k : Bytes} {ts : UInt64} {w : WriteRecord}
    (hw : v.write k ts = some w) : (v₀.write k ts).isSome ∨ MayWrite c v₀ k ts := by
  induction h generalizing w with
  | refl => exact Or.inl (by rw [hw]; rfl)
  | tail hprev hmove ih =>
      rcases hmove.write_origin hw with hw | hnew
      · exact ih hw
      · exact Or.inr (hnew.mayWrite hprev hcommit hrb)

/-- No other key's version, nor one that the request `c` may itself write, stands between the
newest possible version of `k` and the one at `ct`. -/
def Exposed (c : Call) (v : View) (k : Bytes) (ct : UInt64) : Prop :=
  ∀ k' ts, (v.write k' ts).isSome ∨ MayWrite c v k' ts →
    KeyEncoder.encode k u64Max ≤ KeyEncoder.encode k' ts →
    KeyEncoder.encode k' ts < KeyEncoder.encode k ct → k' = k

/-- Among prefix-free keys every version is exposed. -/
theorem exposed_of_prefixFree {st : Store} (h : WF U st) (hU : PrefixFree U) {k : Bytes}
    (hk : k ∈ U) (ct : UInt64) : Exposed c (view st) k ct := by
  intro k' ts hsome hle hlt
  refine hU.eq_of_between hk ?_ hle hlt
  rcases hsome with hw | ⟨l, hl, -⟩
  · obtain ⟨w, hw⟩ := Option.isSome_iff_exists.mp hw
    exact h.write_mem hw
  · exact h.lock_mem hl

/-- What is exposed when a request begins is reached by all of its scans. -/
theorem Exposed.reached {k : Bytes} {ct : UInt64} (h : Exposed c v₀ k ct)
    (hcommit : c.commitArgs = none) (hrb : ∀ s ks, c ≠ .rollback s ks)
    (hmoves : Moves U T c v₀ v₀ v) : Reached U v k ct := by
  refine Or.inr fun k' ts w hw hle hlt => ?_
  exact h k' ts (hmoves.version_before hcommit hrb hw) hle hlt

end

end AcidKv
