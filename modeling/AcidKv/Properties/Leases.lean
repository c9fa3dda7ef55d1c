import AcidKv.Abstract.Versions
import AcidKv.Node.Calls
import AcidKv.Txn.Hlc
import Mathlib.Order.Bounds.Basic

/-!
# The lease of a lock

A lock is live until its TTL after the physical part of its start timestamp.  Both numbers are a
client's, and nobody looks at them before they are added: where the sum does not fit a `u64` it
wraps, and the lock counts as expired long before (`exact_iff`).

A heartbeat puts its TTL in the place of the one that is stored, whichever is longer.  So of several
heartbeats the one that arrives last decides (`lock_heartbeats`).
-/

namespace AcidKv

open KeyEncoder LockResolver

/-! ## Expiry -/

namespace LockResolver

/-- The time is past the end of the lease, in integers without a bound. -/
def Outlived (nowPhys startTs ttl : UInt64) : Prop :=
  nowPhys.toNat > (startTs >>> 16).toNat + ttl.toNat

/-- The end of the lease is a `u64`. -/
def EndFits (startTs ttl : UInt64) : Prop := (startTs >>> 16).toNat + ttl.toNat < 2 ^ 64

variable {startTs ttl : UInt64}

lemma expired_iff (h : EndFits startTs ttl) (nowPhys : UInt64) :
    expired nowPhys startTs ttl ↔ Outlived nowPhys startTs ttl := by
  rw [expired, Outlived, gt_iff_lt, UInt64.lt_iff_toNat_lt, UInt64.toNat_add, Nat.mod_eq_of_lt h]

/-- Where the end does not fit, the last `u64` is past the wrapped end and not past the real one. -/
lemma exact_iff : (∀ nowPhys, expired nowPhys startTs ttl ↔ Outlived nowPhys startTs ttl) ↔
    EndFits startTs ttl := by
  refine ⟨fun h => ?_, expired_iff⟩
  by_contra hover
  have hphys : (startTs >>> 16).toNat = startTs.toNat / 2 ^ 16 :=
    Timestamp.toNat_decode_physical startTs
  have hstart := startTs.toNat_lt
  have httl := ttl.toNat_lt
  have hmax := h u64Max
  rw [EndFits] at hover
  rw [expired, Outlived, gt_iff_lt, UInt64.lt_iff_toNat_lt, UInt64.toNat_add] at hmax
  have hu64 : u64Max.toNat = 2 ^ 64 - 1 := by decide
  omega

end LockResolver

section

variable {st : Store} {p k : Bytes} {l : Lock} {lr : Lock}

/-- No record on `p` decides the transaction, so a status request looks at the lock. -/
def NoVerdict (st : Store) (p : Bytes) (startTs : UInt64) : Prop :=
  statusLoop p startTs (st.range .write (encode p u64Max)) = .ok none

lemma checkTxnStatus_of_lock (hl : (view st).lock p = some l) (hopen : NoVerdict st p l.startTs)
    (clock : ℕ → UInt64) :
    (LockResolver.checkTxnStatus p l.startTs).run clock st =
      if expired (clock 0) l.startTs l.ttl then
        (.ok .rolledBack, st.apply (settleBatch p l.startTs ⟨l.startTs, .rollback⟩))
      else (.ok (.locked l.ttl), st) := by
  rw [NoVerdict] at hopen
  rw [← checkPrimaryLock_of_locked hl]
  simp only [LockResolver.checkTxnStatus, Prog.run_walk_bind, hopen]
  rfl

lemma status_rolledBack_iff (hl : (view st).lock p = some l) (hopen : NoVerdict st p l.startTs)
    {clock : ℕ → UInt64} :
    ((LockResolver.checkTxnStatus p l.startTs).run clock st).1 = .ok .rolledBack ↔
      expired (clock 0) l.startTs l.ttl := by
  rw [checkTxnStatus_of_lock hl hopen]
  split_ifs with hexp <;> simp [hexp]

lemma status_locked_iff (hl : (view st).lock p = some l) (hopen : NoVerdict st p l.startTs)
    {clock : ℕ → UInt64} :
    ((LockResolver.checkTxnStatus p l.startTs).run clock st).1 = .ok (.locked l.ttl) ↔
      ¬ expired (clock 0) l.startTs l.ttl := by
  rw [checkTxnStatus_of_lock hl hopen]
  split_ifs with hexp <;> simp [hexp]

/-- Where the status is `Locked`, `resolve_lock` reads the clock once more. -/
lemma resolveLock_ok_iff (hl : (view st).lock p = some l) (hopen : NoVerdict st p l.startTs)
    (hp : lr.primaryKey = p) (hs : lr.startTs = l.startTs) {clock : ℕ → UInt64}
    (hlive : ¬ expired (clock 0) l.startTs l.ttl) :
    ((resolveLock k lr).run clock st).1 = .ok () ↔ expired (clock 1) lr.startTs lr.ttl := by
  obtain ⟨b, hb, hdec⟩ := view_lock_some hl
  rw [NoVerdict] at hopen
  subst hp
  simp only [resolveLock, LockResolver.checkTxnStatus, checkPrimaryLock, bind, Prog.bind,
    Prog.walk, Prog.lookup, Prog.clock, Prog.ofExcept, Prog.run, hs, hopen, hb, hdec, hlive,
    if_true, if_false]
  change ((if expired (clock 1) l.startTs lr.ttl then _ else _ : Handler _ _).run _ _).1 = _ ↔ _
  split_ifs with hexp
  · exact iff_of_true rfl hexp
  · exact iff_of_false (fun h => by cases h) hexp

end

/-- **The expiry tests are exact if the end of the lease fits.**  For an open transaction with lock
`l` on its primary key: a status request takes the lock for expired at exactly the times past the
end of its lease if that end is a `u64`, and not otherwise; the same holds for the test in
`resolve_lock`, which is on the TTL of the lock to be resolved.  A longer lease whose end fits does
not run out earlier. -/
theorem expiry_exact_iff {st : Store} {p : Bytes} {l : Lock} (hl : (view st).lock p = some l)
    (hopen : NoVerdict st p l.startTs) {lr : Lock} (hp : lr.primaryKey = p)
    (hs : lr.startTs = l.startTs) (k : Bytes) :
    ((∀ clock : ℕ → UInt64,
        ((LockResolver.checkTxnStatus p l.startTs).run clock st).1 = .ok .rolledBack ↔
          Outlived (clock 0) l.startTs l.ttl) ↔ EndFits l.startTs l.ttl) ∧
      ((∀ clock : ℕ → UInt64,
        ((LockResolver.checkTxnStatus p l.startTs).run clock st).1 = .ok (.locked l.ttl) →
          (((resolveLock k lr).run clock st).1 = .ok () ↔
            Outlived (clock 1) lr.startTs lr.ttl)) ↔ EndFits lr.startTs lr.ttl) ∧
      ∀ ttl', l.ttl ≤ ttl' → EndFits l.startTs ttl' →
        ∀ nowPhys, expired nowPhys l.startTs ttl' → expired nowPhys l.startTs l.ttl := by
  refine ⟨?_, ?_, fun ttl' hle hfits nowPhys => ?_⟩
  · rw [← exact_iff]
    simp only [status_rolledBack_iff hl hopen]
    exact ⟨fun h nowPhys => h fun _ => nowPhys, fun h clock => h (clock 0)⟩
  · rw [← exact_iff]
    simp only [status_locked_iff hl hopen]
    constructor
    · intro h nowPhys
      -- at time 0 no lease has run out
      have hzero : ¬ expired 0 l.startTs l.ttl := UInt64.not_lt_zero
      let clock : ℕ → UInt64 := fun i => if i = 0 then 0 else nowPhys
      exact (@resolveLock_ok_iff _ _ k _ _ hl hopen hp hs clock hzero).symm.trans (h clock hzero)
    · intro h clock hlive
      rw [resolveLock_ok_iff hl hopen hp hs hlive]
      exact h (clock 1)
  · rw [UInt64.le_iff_toNat_le] at hle
    have hfits' : EndFits l.startTs l.ttl := by
      rw [EndFits] at hfits ⊢
      omega
    rw [expired_iff hfits, expired_iff hfits', Outlived, Outlived]
    omega

/-- The store of a node after one prewrite. -/
def leased (ttl : UInt64) : Store :=
  (Config.init.steps [{ call := .prewrite 65536 [.put [1] [10], .put [2] [20]] [1] ttl }]).store

/-- A lease of three seconds. -/
theorem expiry_exact_three_seconds :
    (view (leased 3000)).lock [2] = some ⟨[1], 65536, 3000, .put⟩ ∧
      ∀ clock : ℕ → UInt64,
        ((LockResolver.checkTxnStatus [1] 65536).run clock (leased 3000)).1 = .ok .rolledBack ↔
          Outlived (clock 0) 65536 3000 :=
  ⟨by decide +kernel, (@expiry_exact_iff (leased 3000) [1] ⟨[1], 65536, 3000, .put⟩
    (by decide +kernel) (by unfold NoVerdict; decide +kernel) ⟨[1], 65536, 3000, .put⟩ rfl rfl
    [2]).1.mpr (by unfold EndFits; decide)⟩

/-- With the longest TTL the lock is rolled back in its first millisecond, while with one of three
seconds it is live. -/
theorem expiry_wraps :
    (Event.exec { call := .checkTxnStatus [1] 65536, clock := fun _ => 1 } (leased u64Max)).1 =
        some (.ok (.status .rolledBack)) ∧
      ¬ Outlived 1 65536 u64Max ∧
      (Event.exec { call := .checkTxnStatus [1] 65536, clock := fun _ => 1 } (leased 3000)).1 =
        some (.ok (.status (.locked 3000))) :=
  ⟨by decide +kernel, by unfold Outlived; decide, by decide +kernel⟩

/-! ## Heartbeats -/

section

variable {st : Store} {p : Bytes} {l : Lock}

/-- The lock with another TTL. -/
def Lock.withTtl (l : Lock) (ttl : UInt64) : Lock := { l with ttl := ttl }

/-- A heartbeat sets the TTL, and leaves the rest of the store as it is. -/
lemma heartbeat_spec (hl : (view st).lock p = some l) (ttl : UInt64) :
    (view (Event.exec { call := .heartbeat p l.startTs ttl } st).2).lock p =
        some (l.withTtl ttl) ∧
      ∀ q k, (q, k) ≠ (Part.lock, p) →
        (Event.exec { call := .heartbeat p l.startTs ttl } st).2.get q k = st.get q k := by
  obtain ⟨b, hb, hdec⟩ := view_lock_some hl
  obtain ⟨hop, hlen⟩ := Lock.of_fromBytes hdec
  have hexec : (Event.exec { call := .heartbeat p l.startTs ttl } st).2 =
      st.apply [.insert .lock p (l.withTtl ttl).toBytes] := by
    simp only [Event.exec, Call.handler, Coordinator.heartbeat, bind, Prog.bind, Prog.lookup,
      Prog.run, hb, hdec, if_true]
    rfl
  have hback : Lock.fromBytes (l.withTtl ttl).toBytes = .ok (l.withTtl ttl) := by
    rw [@Lock.fromBytes_toBytes (l.withTtl ttl) hop, @Lock.stored_eq (l.withTtl ttl) hlen]
  rw [hexec, Keyspace.apply_cons, Keyspace.apply_nil]
  refine ⟨view_lock_of_get (by rw [Keyspace.get_insert, if_pos ⟨rfl, rfl⟩]) hback, ?_⟩
  intro q k hne
  rw [Keyspace.get_insert, if_neg]
  rintro ⟨rfl, rfl⟩
  exact hne rfl

/-- Heartbeats of one transaction, in the order in which they arrive. -/
def heartbeats (p : Bytes) (startTs : UInt64) (ttls : List UInt64) : List Event :=
  ttls.map fun ttl => { call := .heartbeat p startTs ttl }

/-- The last one decides. -/
lemma lock_heartbeats {c : Config} (hl : (view c.store).lock p = some l) (ttls : List UInt64) :
    (view (c.steps (heartbeats p l.startTs ttls)).store).lock p =
        some (l.withTtl (ttls.getLastD l.ttl)) ∧
      ∀ q k, (q, k) ≠ (Part.lock, p) →
        (c.steps (heartbeats p l.startTs ttls)).store.get q k = c.store.get q k := by
  induction ttls generalizing c l with
  | nil => exact ⟨hl, fun _ _ _ => rfl⟩
  | cons ttl ttls ih =>
      obtain ⟨hlock, hrest⟩ := heartbeat_spec hl ttl
      obtain ⟨hlock', hrest'⟩ :=
        @ih (l.withTtl ttl) (c.step { call := .heartbeat p l.startTs ttl }) hlock
      rw [List.getLastD_cons]
      exact ⟨hlock', fun q k hne => (hrest' q k hne).trans (hrest q k hne)⟩

/-- Each of them can be the last. -/
lemma exists_perm_getLastD {ttls : List UInt64} {ttl : UInt64} (h : ttl ∈ ttls) (ttl₀ : UInt64) :
    ∃ order : List UInt64, order.Perm ttls ∧ order.getLastD ttl₀ = ttl :=
  ⟨ttls.erase ttl ++ [ttl],
    (List.perm_append_singleton ttl _).trans (List.perm_cons_erase h).symm, by simp⟩

/-- If all are as long as the longest, the last one is. -/
lemma isGreatest_getLastD {ttls order : List UInt64} {ttl₀ : UInt64} (hperm : order.Perm ttls)
    (h : ∀ t ∈ ttls, ∀ t' ∈ ttl₀ :: ttls, t' ≤ t) :
    IsGreatest {t | t ∈ ttl₀ :: ttls} (order.getLastD ttl₀) := by
  cases order with
  | nil =>
      obtain rfl := hperm.nil_eq
      refine ⟨List.mem_cons_self, fun t' ht' => ?_⟩
      rw [List.mem_singleton.mp ht']
      exact UInt64.le_rfl
  | cons t rest =>
      have hlast : rest.getLastD t ∈ t :: rest := List.getLastD_mem_cons
      have hmem := hperm.mem_iff.mp hlast
      rw [List.getLastD_cons]
      exact ⟨List.mem_cons_of_mem ttl₀ hmem, fun t' ht' => h _ hmem t' ht'⟩

end

/-- **Heartbeats extend a lease in any order only where they agree.**  After heartbeats in any order
the lock has the TTL of the last one, and nothing else has changed.  So the stored TTL is the
greatest of all, whatever the order, exactly if each of them is at least as long as all others and
the first. -/
theorem heartbeats_extend_iff {c : Config} {p : Bytes} {l : Lock}
    (hl : (view c.store).lock p = some l) (ttls : List UInt64) :
    (∀ order, order.Perm ttls →
      (view (c.steps (heartbeats p l.startTs order)).store).lock p =
          some (l.withTtl (order.getLastD l.ttl)) ∧
        ∀ q k, (q, k) ≠ (Part.lock, p) →
          (c.steps (heartbeats p l.startTs order)).store.get q k = c.store.get q k) ∧
      ((∃ ttl, IsGreatest {t | t ∈ l.ttl :: ttls} ttl ∧
          ∀ order, order.Perm ttls →
            (view (c.steps (heartbeats p l.startTs order)).store).lock p = some (l.withTtl ttl)) ↔
        ∀ t ∈ ttls, ∀ t' ∈ l.ttl :: ttls, t' ≤ t) := by
  refine ⟨fun order _ => lock_heartbeats hl order, ?_, fun h => ?_⟩
  · rintro ⟨ttl, ⟨-, hupper⟩, hall⟩ t ht t' ht'
    obtain ⟨order, hperm, hlast⟩ := exists_perm_getLastD ht l.ttl
    have hstored := (hall order hperm).symm.trans (lock_heartbeats hl order).1
    rw [hlast] at hstored
    have heq : ttl = t := congrArg Lock.ttl (Option.some.inj hstored)
    rw [← heq]
    exact hupper ht'
  · have hgreatest := isGreatest_getLastD (List.Perm.refl ttls) h
    refine ⟨ttls.getLastD l.ttl, hgreatest, fun order hperm => ?_⟩
    have hgreatest' := isGreatest_getLastD hperm h
    have heq : order.getLastD l.ttl = ttls.getLastD l.ttl :=
      UInt64.le_antisymm (hgreatest.2 hgreatest'.1) (hgreatest'.2 hgreatest.1)
    rw [(lock_heartbeats hl order).1, heq]

/-- A heartbeat and its duplicate. -/
theorem heartbeats_extend_duplicated :
    (view (Config.init.steps
        [{ call := .prewrite 65536 [.put [1] [10]] [1] 3000 }]).store).lock [1] =
      some ⟨[1], 65536, 3000, .put⟩ ∧
      ∃ ttl, IsGreatest {t | t ∈ [3000, 9000, 9000]} ttl ∧
        ∀ order : List UInt64, order.Perm [9000, 9000] →
          (view ((Config.init.steps [{ call := .prewrite 65536 [.put [1] [10]] [1] 3000 }]).steps
            (heartbeats [1] 65536 order)).store).lock [1] = some ⟨[1], 65536, ttl, .put⟩ := by
  have hlock : (view (Config.init.steps
      [{ call := .prewrite 65536 [.put [1] [10]] [1] 3000 }]).store).lock [1] =
      some ⟨[1], 65536, 3000, .put⟩ := by decide +kernel
  exact ⟨hlock, (heartbeats_extend_iff hlock [9000, 9000]).2.mpr (by simp)⟩

/-- A heartbeat of three seconds that arrives after one of nine takes six of them back, and a status
request in between rolls the transaction back. -/
theorem heartbeats_shorten :
    (view (Config.init.steps (({ call := .prewrite 65536 [.put [1] [10]] [1] 3000 } : Event) ::
        heartbeats [1] 65536 [9000, 3000])).store).lock [1] = some ⟨[1], 65536, 3000, .put⟩ ∧
      (view (Config.init.steps (({ call := .prewrite 65536 [.put [1] [10]] [1] 3000 } : Event) ::
        heartbeats [1] 65536 [3000, 9000])).store).lock [1] = some ⟨[1], 65536, 9000, .put⟩ ∧
      (Event.exec { call := .checkTxnStatus [1] 65536, clock := fun _ => 5000 }
        (Config.init.steps (({ call := .prewrite 65536 [.put [1] [10]] [1] 3000 } : Event) ::
          heartbeats [1] 65536 [9000, 3000])).store).1 = some (.ok (.status .rolledBack)) :=
  ⟨by decide +kernel, by decide +kernel, by decide +kernel⟩

end AcidKv
