import AcidKv.Abstract.Scans

/-!
# What the lock resolver keeps

Between the batches of its own a handler may settle locks that it finds in the way: it rolls one
back, or commits it with the timestamp of a record that its transaction has.  An invariant of the
store that is kept by both (`Settling`) is kept by everything up to the stage of a prewrite, and by
reads.
-/

namespace AcidKv

open KeyEncoder LockResolver Coordinator

/-- The transaction `s` has a commit record at `c`, on whatever key. -/
def Recorded (st : Store) (s c : UInt64) : Prop :=
  ∃ e b p w, st.get .write e = some b ∧ decode e = .ok (p, c) ∧
    WriteRecord.fromBytes b = some w ∧ w.startTs = s ∧ w.op ≠ .rollback

/-- `I` is kept when a lock of the store is settled; `S` says which key, start timestamp and op such
a lock has. -/
structure Settling (S : Bytes → UInt64 → OpType → Prop) (I : Store → Prop) : Prop where
  locked : ∀ {st k b l}, I st → st.get .lock k = some b → Lock.fromBytes b = .ok l →
    S k l.startTs l.op
  rolledBack : ∀ {st k s op}, I st → S k s op → I (st.apply (settleBatch k s ⟨s, .rollback⟩))
  committed : ∀ {st k s op c}, I st → S k s op → Recorded st s c →
    I (st.apply (settleBatch k c ⟨s, op⟩))

/-- A handler that keeps `I`. -/
abbrev Keeps {ε α : Type} (I : Store → Prop) (x : Handler ε α) (st : Store) : Prop :=
  x.Sat (fun _ => True) I (fun _ st' => I st') st

/-- The record that decides a status. -/
lemma statusLoop_committed {p : Bytes} {s c : UInt64} {items : List (Bytes × Bytes)}
    (h : statusLoop p s items = .ok (some (.committed c))) :
    ∃ x ∈ items, ∃ w, decode x.1 = .ok (p, c) ∧ WriteRecord.fromBytes x.2 = some w ∧
      w.startTs = s ∧ w.op ≠ .rollback := by
  fun_induction statusLoop p s items with
  | case3 e b rest c' w hw hs hop hdec | case4 e b rest c' w hw hs hop hdec =>
      simp only [Except.ok.injEq, Option.some.injEq, TxnStatus.committed.injEq] at h
      rw [h] at hdec
      exact ⟨(e, b), List.mem_cons_self, w, hdec, hw, hs, by simp [hop]⟩
  | case6 _ _ _ _ _ _ _ _ ih | case7 _ _ _ _ _ _ ih =>
      obtain ⟨x, hx, hfound⟩ := ih h
      exact ⟨x, List.mem_cons_of_mem _ hx, hfound⟩
  | _ => cases h

section

variable {S : Bytes → UInt64 → OpType → Prop} {I : Store → Prop} {st : Store}

lemma keeps_checkPrimaryLock (h : Settling S I) (hst : I st) (p : Bytes) (s : UInt64) :
    (checkPrimaryLock p s).Sat (fun _ => True) I
      (fun out st' => I st' ∧ ∀ c, out ≠ .ok (.committed c)) st := by
  simp only [checkPrimaryLock, Prog.sat_bind, Prog.sat_lookup, Prog.then_ok]
  cases hg : st.get .lock p with
  | none => exact ⟨hst, by simp⟩
  | some b =>
      cases hl : Lock.fromBytes b with
      | error e => simp only [hl]; exact ⟨hst, by simp⟩
      | ok l =>
          simp only [hl]
          split_ifs with hs
          · simp only [Prog.sat_bind, Prog.sat_clock, Prog.then_ok]
            intro t _
            split_ifs
            · have hlocked := h.locked hst hg hl
              rw [hs] at hlocked
              have h' := h.rolledBack hst hlocked
              exact ⟨h', h', by simp⟩
            · exact ⟨hst, by simp⟩
          · exact ⟨hst, by simp⟩

lemma keeps_checkTxnStatus (h : Settling S I) (hst : I st) (p : Bytes) (s : UInt64) :
    (LockResolver.checkTxnStatus p s).Sat (fun _ => True) I
      (fun out st' => I st' ∧ ∀ c, out = .ok (.committed c) → Recorded st' s c) st := by
  simp only [LockResolver.checkTxnStatus, Prog.sat_bind, Prog.sat_walk, Prog.then_ok,
    Prog.sat_ofExcept]
  cases hloop : statusLoop p s (st.range .write (encode p u64Max)) with
  | error e => exact ⟨hst, by simp⟩
  | ok found =>
      cases found with
      | some status =>
          refine ⟨hst, fun c hc => ?_⟩
          obtain rfl : status = .committed c := Except.ok.inj hc
          obtain ⟨x, hx, w, hdec, hw, hs, hop⟩ := statusLoop_committed hloop
          exact ⟨x.1, x.2, p, w, (Keyspace.mem_range.mp hx).1, hdec, hw, hs, hop⟩
      | none =>
          refine (keeps_checkPrimaryLock h hst p s).mono fun out st' h' => ?_
          exact ⟨h'.1, fun c hc => absurd hc (h'.2 c)⟩

lemma keeps_resolveLock (h : Settling S I) (hst : I st) {key : Bytes} {lock : Lock}
    (hlock : S key lock.startTs lock.op) : Keeps I (resolveLock key lock) st := by
  simp only [Keeps, resolveLock, Prog.sat_bind]
  refine (keeps_checkTxnStatus h hst lock.primaryKey lock.startTs).mono ?_
  rintro (e | status) st' ⟨h', hrec⟩
  · exact h'
  · cases status with
    | committed c =>
        have hdone := h.committed h' hlock (hrec c rfl)
        exact ⟨hdone, hdone⟩
    | rolledBack =>
        have hdone := h.rolledBack h' hlock
        exact ⟨hdone, hdone⟩
    | locked ttl =>
        simp only [Prog.then_ok, Prog.sat_bind, Prog.sat_clock]
        intro t _
        split_ifs
        · have hdone := h.rolledBack h' hlock
          exact ⟨hdone, hdone⟩
        · exact h'

lemma keeps_clearLockThen (h : Settling S I) (hst : I st) (key : Bytes) (s : UInt64)
    {afterwards : Handler TxnError Unit} (hafter : ∀ st', I st' → Keeps I afterwards st') :
    Keeps I (clearLockThen key s afterwards) st := by
  simp only [Keeps, clearLockThen, Prog.sat_bind, Prog.sat_lookup, Prog.then_ok]
  cases hg : st.get .lock key with
  | none => exact hst
  | some b =>
      cases hl : Lock.fromBytes b with
      | error e => simp only [hl]; exact hst
      | ok l =>
          simp only [hl]
          split_ifs
          · exact hst
          · simp only [Prog.sat_bind, Prog.sat_attempt]
            refine (keeps_resolveLock h hst (h.locked hst hg hl)).mono ?_
            rintro (e | u) st' h'
            · exact h'
            · exact hafter st' h'

lemma keeps_recheckLock (hst : I st) (key : Bytes) (s : UInt64) :
    Keeps I (recheckLock key s) st := by
  simp only [Keeps, recheckLock, Prog.sat_bind, Prog.sat_lookup, Prog.then_ok]
  cases st.get .lock key with
  | none => exact hst
  | some b =>
      cases hl : Lock.fromBytes b with
      | error e => simp only [hl]; exact hst
      | ok l =>
          simp only [hl]
          split_ifs <;> exact hst

/-- Steps 1 and 2 of either prewrite, and what follows. -/
lemma keeps_checked {α : Type} {J : Store → Prop} (hJ : ∀ st, I st → J st) (hst : I st)
    {key : Bytes} {s : UInt64} {clear : Handler TxnError Unit} {next : Handler TxnError α}
    {Q : Except TxnError α → Store → Prop} (hclear : Keeps I clear st)
    (herror : ∀ e st', I st' → Q (.error e) st')
    (hnext : ∀ st', I st' → next.Sat (fun _ => True) J Q st') :
    (checkConflict key s >>= fun _ => clear >>= fun _ => next).Sat (fun _ => True) J Q st := by
  simp only [checkConflict, Prog.sat_bind, Prog.sat_walk, Prog.then_ok, Prog.sat_ofExcept]
  cases conflictLoop key s (st.range .write (encode key u64Max)) with
  | error e => exact herror e st hst
  | ok u =>
      simp only [Prog.then_ok, Prog.sat_bind]
      refine hclear.imp hJ ?_
      rintro (e | u) st' h'
      · exact herror e st' h'
      · exact hnext st' h'

/-- A read, which settles the lock in its way as that of a put. -/
lemma keeps_get {U : Set Bytes} (h : Settling S I) (hwf : ∀ {st}, I st → WF U st)
    (hput : ∀ {k s op}, S k s op → S k s .put) (hst : I st) (key : Bytes) (r : UInt64) :
    Keeps I (Coordinator.get key r) st := by
  simp only [Keeps, Coordinator.get, Prog.sat_bind, Prog.sat_attempt]
  refine (readerGet_sat (hwf hst) key r).mono ?_
  rintro (e | x) st₁ ⟨rfl, hout⟩
  · cases e with
    | keyIsLocked p ts =>
        obtain ⟨l, hl, -, rfl, -⟩ := hout
        obtain ⟨b, hg, hdec⟩ := view_lock_some hl
        simp only [Prog.then_ok, Prog.sat_bind, Prog.sat_attempt]
        refine (keeps_resolveLock h hst (hput (h.locked hst hg hdec))).mono ?_
        rintro (e | u) st₂ h₂
        · exact h₂
        · simp only [Prog.sat_mapError]
          refine (readerGet_sat (hwf h₂) key r).mono ?_
          rintro out st₃ ⟨rfl, -⟩
          exact h₂
    | corruptedState => exact hst
  · exact hst

end

end AcidKv
