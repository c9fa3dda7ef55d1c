import AcidKv.Abstract.Fates

/-!
# Point reads over prefix-free keys

Where no user key is a proper prefix of another one, a walk over the versions of a key meets no
other key, and `get` is what `PointRead` says of the view, for a clock that stands still.  It leaves
the store as it is, or settles the lock on its key, or settles the primary lock before that
(`Leaves`); and where the locks are steady, reads that are done one after the other settle each lock
as a read from the first store would (`Progress.leaves`).
-/

namespace AcidKv

open LockResolver Coordinator

/-- What a read of `k` that settles a lock leaves behind. -/
inductive Leaves (r now : UInt64) (k : Bytes) (v : View) : View → Prop where
  | own {l : Lock} {f : Fate} {ts : UInt64} {w : WriteRecord} (hl : v.lock k = some l)
      (hle : l.startTs ≤ r) (hf : HasFate v now l.primaryKey l.startTs f)
      (hrecord : f.record l.startTs = some (ts, w)) : Leaves r now k v (v.settle k ts w)
  | both {l lp : Lock} (hl : v.lock k = some l) (hle : l.startTs ≤ r)
      (hun : Unrecorded v l.primaryKey l.startTs) (hlp : v.lock l.primaryKey = some lp)
      (hs : lp.startTs = l.startTs) (hexp : expired now l.startTs lp.ttl)
      (hp : l.primaryKey ≠ k) :
      Leaves r now k v ((v.settle l.primaryKey l.startTs ⟨l.startTs, .rollback⟩).settle k l.startTs
        ⟨l.startTs, .rollback⟩)

/-- A read at its turn. -/
theorem Progress.leaves {V D : Set Bytes} {r now : UInt64} {k : Bytes} {v u u' : View}
    (hsteady : Steady r now V v) (h : Progress r now D v u) (hD : D ⊆ {j | j ∈ V ∧ j < k})
    (hk : k ∈ V) (hleaves : Leaves r now k u u') : Progress r now (insert k D) v u' := by
  have hmem : k ∈ insert k D := Set.mem_insert k D
  have hgrown := h.mono (Set.subset_insert k D)
  cases hleaves with
  | @own l f ts w hl hle hf hrecord =>
      obtain ⟨f₀, hf₀⟩ := exists_fate v now l.primaryKey l.startTs
      obtain rfl := (h.fate hsteady hD hk hl hle hf₀).unique hf
      exact hgrown.settle hl (.own hmem hle hf₀ hrecord)
  | @both l lp hl hle hun hlp hs hexp hp =>
      obtain ⟨hl₀, -⟩ := h.untouched hl
      obtain ⟨hlp₀, hwrite⟩ := h.untouched hlp
      have hun₀ : Unrecorded v l.primaryKey l.startTs := by
        intro ts w hw
        rw [← hwrite] at hw
        exact hun ts w hw
      have hprimary : SettledBy r now (insert k D) v l.primaryKey lp l.startTs
          ⟨l.startTs, .rollback⟩ := by
        rw [← hs] at hun₀ hexp ⊢
        exact .primary hmem hl₀ hle rfl hs.symm hun₀ hexp
      have hl' : (u.settle l.primaryKey l.startTs ⟨l.startTs, .rollback⟩).lock k = some l := by
        rw [View.settle_lock, if_neg (Ne.symm hp), hl]
      exact (hgrown.settle hlp hprimary).settle hl'
        (.own hmem hle (.expired hun₀ hlp₀ hs (Or.inl hexp)) rfl)

/-- What resolving the lock `l` on `k` comes to. -/
inductive Resolution (U : Set Bytes) (r now : UInt64) (k : Bytes) (l : Lock) (st : Store) :
    Except LockResolverError Unit × Store → Prop where
  | stuck (hf : HasFate (view st) now l.primaryKey l.startTs .stuck) :
      Resolution U r now k l st (.error .lockActiveNotExpired, st)
  | settled {f : Fate} {ts : UInt64} {w : WriteRecord} {st' : Store}
      (hf : HasFate (view st) now l.primaryKey l.startTs f)
      (hrecord : f.record l.startTs = some (ts, w)) (hwf : WF U st')
      (hlock : (view st').lock k = none)
      (hwrite : ∀ t, (view st').write k t = ((view st).settle k ts w).write k t)
      (hdata : ∀ t, (view st').data k t = (view st).data k t)
      (hleaves : Leaves r now k (view st) (view st')) :
      Resolution U r now k l st (.ok (), st')

section

variable {U : Set Bytes} {st : Store} {now r : UInt64} {k : Bytes} {l : Lock}

/-- The lock is all that changes. -/
lemma Resolution.own (h : WF U st) (hl : (view st).lock k = some l)
    (hle : l.startTs ≤ r) {f : Fate} {ts : UInt64} {w : WriteRecord}
    (hf : HasFate (view st) now l.primaryKey l.startTs f)
    (hrecord : f.record l.startTs = some (ts, w)) :
    Resolution U r now k l st (.ok (), st.apply (settleBatch k ts w)) := by
  have hview := view_settleBatch st k ts w
  refine .settled hf hrecord (h.settleBatch (h.lock_mem hl) ts w) ?_ ?_ ?_ ?_
  · simp [hview]
  · exact fun t => by rw [hview]
  · exact fun t => by rw [hview]; rfl
  · rw [hview]
    exact .own hl hle hf hrecord

/-- The primary lock has expired, and goes first. -/
lemma Resolution.afterPrimary (h : WF U st) (hl : (view st).lock k = some l)
    (hle : l.startTs ≤ r) (hun : Unrecorded (view st) l.primaryKey l.startTs) {lp : Lock}
    (hlp : (view st).lock l.primaryKey = some lp) (hs : lp.startTs = l.startTs)
    (hexp : expired now l.startTs lp.ttl) :
    Resolution U r now k l st (.ok (),
      (st.apply (settleBatch l.primaryKey l.startTs ⟨l.startTs, .rollback⟩)).apply
        (settleBatch k l.startTs ⟨l.startTs, .rollback⟩)) := by
  have hback : HasFate (view st) now l.primaryKey l.startTs .back :=
    .expired hun hlp hs (Or.inl hexp)
  have hwf := (h.settleBatch (h.lock_mem hlp) l.startTs ⟨l.startTs, .rollback⟩).settleBatch
    (h.lock_mem hl) l.startTs ⟨l.startTs, .rollback⟩
  have hview : view ((st.apply (settleBatch l.primaryKey l.startTs ⟨l.startTs, .rollback⟩)).apply
      (settleBatch k l.startTs ⟨l.startTs, .rollback⟩))
      = ((view st).settle l.primaryKey l.startTs ⟨l.startTs, .rollback⟩).settle k l.startTs
        ⟨l.startTs, .rollback⟩ := by
    rw [view_settleBatch, view_settleBatch]
  refine .settled hback rfl hwf ?_ ?_ ?_ ?_
  · rw [hview]
    simp
  · intro t
    rw [hview]
    by_cases ht : t = l.startTs
    · simp [ht]
    · simp [ht]
  · exact fun t => by rw [hview]; rfl
  · rw [hview]
    by_cases hp : l.primaryKey = k
    · rw [hp, View.settle_settle]
      exact .own hl hle hback rfl
    · exact .both hl hle hun hlp hs hexp hp

/-- A read that meets no lock is the reader's. -/
lemma get_of_unlocked {clock : ℕ → UInt64} {out : Except MvccError (Option Bytes)}
    (hout : (MvccReader.get k r).run clock st = (out, st))
    (hne : ∀ p t, out ≠ .error (.keyIsLocked p t)) :
    (Coordinator.get k r).run clock st = (out.mapError .mvcc, st) := by
  have hfirst : ((MvccReader.get k r).attempt : Handler TxnError _).run clock st
      = (.ok out, st) := by
    rw [Prog.run_attempt, hout]
  rw [Coordinator.get]
  obtain ⟨n, hn⟩ := Prog.run_bind hfirst
  rw [hn]
  cases out with
  | ok x => rfl
  | error e =>
      cases e with
      | corruptedState => rfl
      | keyIsLocked p t => exact absurd rfl (hne p t)

end

section

variable {U : Set Bytes} {st : Store} {now r : UInt64} {k : Bytes} (hU : PrefixFree U)
  (h : WF U st)

include hU h

lemma hit_iff_latest {hi ts : UInt64} {P : WriteRecord → Prop} {w : WriteRecord} :
    Hit (view st) k hi P ts w ↔ Latest (view st) k hi P ts w :=
  ⟨fun hhit => hhit.toLatest,
    fun hlatest => ⟨hlatest, hU.seenFrom h (h.write_mem hlatest.write) hi ts⟩⟩

lemma unrecorded_of_undecided {p : Bytes} {s : UInt64}
    (hd : ∀ c w, ¬ Decides (view st) p s c w) : Unrecorded (view st) p s := by
  intro ts w hw hs
  obtain ⟨c, w', -, hlast⟩ := @exists_latest (view st) p u64Max (fun w => w.startTs = s) ts w
    (le_u64Max ts) hw hs
  exact hd c w' ((hit_iff_latest hU h).mpr hlast)

lemma readerGet_yields {clock : ℕ → UInt64} (hfree : Unlocked (view st) k r) :
    ∃ out, (MvccReader.get k r).run clock st = (out, st) ∧ Yields (view st) k r out := by
  by_cases hs : ∃ c w, Sees (view st) k r c w
  · obtain ⟨c, w, hs⟩ := hs
    exact ⟨_, readerGet_of_sees h hfree hs, .found hs.toLatest⟩
  · have hnone : ∀ c w, ¬ Sees (view st) k r c w := fun c w hs' => hs ⟨c, w, hs'⟩
    refine ⟨_, readerGet_of_unseen h hfree hnone, .nothing fun c w hlatest => ?_⟩
    exact hnone c w ((hit_iff_latest hU h).mpr hlatest)

/-- Resolving a lock puts the record in its place that the fate of its transaction calls for. -/
theorem resolveLock_resolution {l : Lock}
    (hl : (view st).lock k = some l) (hle : l.startTs ≤ r) :
    Resolution U r now k l st
      ((resolveLock k (reportedLock l.primaryKey l.startTs)).run (fun _ => now) st) := by
  have hrun : resolveLock k (reportedLock l.primaryKey l.startTs)
      = LockResolver.checkTxnStatus l.primaryKey l.startTs >>= _ := rfl
  have hverdict := checkTxnStatus_verdict h (fun _ => now) l.primaryKey l.startTs
  generalize hstatus : (LockResolver.checkTxnStatus l.primaryKey l.startTs).run (fun _ => now) st
    = res at hverdict
  cases hverdict with
  | @decided c w hd =>
      obtain ⟨s, op⟩ := w
      obtain rfl : s = l.startTs := hd.holds
      rw [hrun, Prog.run_bind_ok hstatus]
      by_cases hop : op = .rollback
      · subst hop
        exact .own h hl hle (.rolledBack hd.toLatest) rfl
      · rw [WriteRecord.status, if_neg hop]
        exact .own h hl hle (.committed hop hd.toLatest) rfl
  | gone hd hgone =>
      rw [hrun, Prog.run_bind_ok hstatus]
      refine .own h hl hle (.gone (unrecorded_of_undecided hU h hd) ?_) rfl
      rintro ⟨l', hl', hs⟩
      exact hgone l' hl' hs
  | @locked lp hd hlp hs hlive =>
      have hun := unrecorded_of_undecided hU h hd
      rw [hrun, Prog.run_bind_ok hstatus]
      simp only [Prog.run_clock_bind]
      split_ifs with hexp
      · exact .own h hl hle (.expired hun hlp hs (Or.inr hexp)) rfl
      · exact .stuck (.alive hun hlp hs hlive hexp)
  | @expired lp hd hlp hs hexp =>
      rw [hrun, Prog.run_bind_ok hstatus]
      exact .afterPrimary h hl hle (unrecorded_of_undecided hU h hd) hlp hs hexp

/-- What `get` returns, and what it leaves. -/
theorem get_pointRead :
    PointRead (view st) now r k ((Coordinator.get k r).run (fun _ => now) st).1 ∧
      WF U ((Coordinator.get k r).run (fun _ => now) st).2 ∧
      (view ((Coordinator.get k r).run (fun _ => now) st).2 = view st ∨
        Leaves r now k (view st) (view ((Coordinator.get k r).run (fun _ => now) st).2)) := by
  by_cases hlock : ∃ l, (view st).lock k = some l ∧ l.startTs ≤ r
  · obtain ⟨l, hl, hle⟩ := hlock
    have hres := @resolveLock_resolution _ _ now r k hU h l hl hle
    have hfirst : ((MvccReader.get k r).attempt : Handler TxnError _).run (fun _ => now) st
        = (.ok (.error (.keyIsLocked l.primaryKey l.startTs)), st) := by
      rw [Prog.run_attempt, readerGet_of_locked hl hle]
    rw [Coordinator.get, Prog.run_bind_ok hfirst]
    generalize hrun : (resolveLock k (reportedLock l.primaryKey l.startTs)).run (fun _ => now) st
      = res at hres
    have hsecond : ((resolveLock k (reportedLock l.primaryKey l.startTs)).attempt :
        Handler TxnError _).run (fun _ => now) st = (.ok res.1, res.2) := by
      rw [Prog.run_attempt, hrun]
    simp only
    rw [Prog.run_bind_ok hsecond]
    cases hres with
    | stuck hf => exact ⟨.blocked hl hle hf, h, Or.inl rfl⟩
    | @settled f ts w st' hf hrecord hwf hnone hwrite hdata hleaves =>
        have hfree : Unlocked (view st') k r := by
          intro l' hl'
          rw [hnone] at hl'
          cases hl'
        obtain ⟨out, hout, hy⟩ := @readerGet_yields U st' r k hU hwf (fun _ => now) hfree
        simp only [Prog.run_mapError, hout]
        refine ⟨.cleared hl hle hf hrecord ?_, hwf, Or.inr hleaves⟩
        exact hy.congr (fun t => (hwrite t).symm) fun t => (hdata t).symm
  · have hfree : Unlocked (view st) k r :=
      fun l hl => UInt64.not_le.mp fun hle => hlock ⟨l, hl, hle⟩
    obtain ⟨out, hout, hy⟩ := @readerGet_yields U st r k hU h (fun _ => now) hfree
    rw [get_of_unlocked hout hy.not_locked]
    exact ⟨.free hfree hy, h, Or.inl rfl⟩

end

end AcidKv
