import AcidKv.Abstract.Moves

/-!
# Lock resolution and reads as moves

Every handler, from any well-formed store and cut off after any of its batches, has made a
sequence of `Move`s.  `Along` is the batch invariant that says so.  The lemmas follow the call
structure of the code; this module goes from the lock resolver up to `get` and `scan`.
-/

namespace AcidKv

open Coordinator LockResolver KeyEncoder

/-- A well-formed store reached by moves from the view `v₁`. -/
structure Along (U : Set Bytes) (T : UInt64 → Prop) (c : Call) (v₀ v₁ : View) (st : Store) :
    Prop where
  wf : WF U st
  moves : Moves U T c v₀ v₁ (view st)

section

variable {U : Set Bytes} {T : UInt64 → Prop} {c : Call} {v₀ v₁ v₂ : View} {st st' : Store}

lemma Along.refl (h : WF U st) : Along U T c v₀ (view st) st := ⟨h, .refl⟩

lemma Along.trans (h : Along U T c v₀ v₁ st) (h' : Along U T c v₀ (view st) st') :
    Along U T c v₀ v₁ st' := ⟨h'.wf, h.moves.trans h'.moves⟩

/-- A handler that makes moves from where it starts also makes them from further back. -/
lemma Along.sat {ε α : Type} {x : Handler ε α} {Q : Except ε α → Store → Prop}
    (h : Along U T c v₀ v₁ st)
    (hx : x.Sat T (Along U T c v₀ (view st))
      (fun out st' => Along U T c v₀ (view st) st' ∧ Q out st') st) :
    x.Sat T (Along U T c v₀ v₁) (fun out st' => Along U T c v₀ v₁ st' ∧ Q out st') st :=
  hx.imp (fun _ h' => h.trans h') (fun _ _ hq => ⟨h.trans hq.1, hq.2⟩)

lemma Along.settle (h : WF U st) {k : Bytes} {ts : UInt64} {w : WriteRecord} (hk : k ∈ U)
    (hmove : Move U T c v₀ (view st) ((view st).settle k ts w)) :
    Along U T c v₀ (view st) (st.apply (settleBatch k ts w)) := by
  refine ⟨h.settleBatch hk ts w, ?_⟩
  rw [view_settleBatch]
  exact .single hmove

/-! ## Lock resolution -/

/-- What an outcome of `check_txn_status` says about the store it leaves. -/
def StatusOutcome (U : Set Bytes) (T : UInt64 → Prop) (p : Bytes) (s : UInt64) (st : Store) :
    Except LockResolverError TxnStatus → Store → Prop
  | .error _, _ => False
  | .ok (.committed ct), st' => st' = st ∧ (view st).Committed p s ct ∧ Seen (view st) p ct
  | .ok .rolledBack, st' => Dead U (view st') p s ∧
      (st' = st ∨ view st' = (view st).settle p s ⟨s, .rollback⟩)
  | .ok (.locked ttl), st' => st' = st ∧ Undecided U (view st) p s ∧
      ∃ l t, (view st).lock p = some l ∧ l.startTs = s ∧ l.ttl = ttl ∧ T t ∧ ¬ expired t s ttl

/-- An undecided transaction without a lock on its primary key is dead. -/
lemma Undecided.dead {p : Bytes} {s : UInt64} (h : Undecided U v₁ p s)
    (hl : ¬ v₁.LockedBy p s) : Dead U v₁ p s where
  gone := Or.inr hl
  overruled := by
    rintro ct ⟨op, -, hw⟩ hreach
    exact absurd hreach (h ct op hw)

/-- Rolling back the primary of an undecided transaction makes it dead. -/
lemma Undecided.dead_settle {p : Bytes} {s : UInt64} (h : Undecided U v₁ p s) :
    Dead U (v₁.settle p s ⟨s, .rollback⟩) p s where
  gone := Or.inl ⟨s, by simp⟩
  overruled := by
    rintro ct ⟨op, hop, hw⟩ hreach
    exfalso
    simp only [View.settle_write, true_and] at hw
    split_ifs at hw with hct
    · simp only [Option.some.injEq, WriteRecord.mk.injEq, true_and] at hw
      exact hop hw.symm
    · refine h ct op hw (Reached.anti (fun k ts hsome => ?_) hreach)
      simp only [View.settle_write]
      split_ifs
      · rfl
      · exact hsome

lemma checkPrimaryLock_sat (h : WF U st) {p : Bytes} {s : UInt64}
    (hq : c.Queries v₀ (view st) p s) (hun : Undecided U (view st) p s) :
    (checkPrimaryLock p s).Sat T (Along U T c v₀ (view st))
      (fun out st' => Along U T c v₀ (view st) st' ∧ StatusOutcome U T p s st out st') st := by
  simp only [checkPrimaryLock, Prog.sat_bind, Prog.sat_lookup, Prog.then_ok]
  cases hg : st.get .lock p with
  | none =>
      refine ⟨.refl h, hun.dead ?_, Or.inl rfl⟩
      rintro ⟨l, hl, -⟩
      rw [view_lock_none hg] at hl
      cases hl
  | some b =>
      obtain ⟨hpU, l, hl⟩ := h.lock p b hg
      have hview := view_lock_of_get hg hl
      simp only [hl]
      by_cases hs : l.startTs = s
      · subst hs
        simp only [if_true, Prog.sat_bind, Prog.sat_clock, Prog.then_ok]
        intro now hnow
        by_cases hexp : expired now l.startTs l.ttl
        · have hmove : Move U T c v₀ (view st) _ := .expire hq hview hnow hexp hun
          have halong := Along.settle h hpU hmove
          simp only [hexp, if_true, Prog.sat_bind, Prog.sat_write, Prog.then_ok, Prog.sat_pure]
          refine ⟨halong, halong, ?_, Or.inr (view_settleBatch ..)⟩
          rw [view_settleBatch]
          exact hun.dead_settle
        · simp only [hexp, if_false, Prog.sat_pure]
          exact ⟨.refl h, rfl, hun, l, now, hview, rfl, rfl, hnow, hexp⟩
      · simp only [hs, if_false, Prog.sat_pure]
        refine ⟨.refl h, hun.dead ?_, Or.inl rfl⟩
        rintro ⟨l', hl', hs'⟩
        rw [hview, Option.some.injEq] at hl'
        exact hs (hl' ▸ hs')

theorem checkTxnStatus_sat (h : WF U st) {p : Bytes} {s : UInt64}
    (hq : c.Queries v₀ (view st) p s) :
    (LockResolver.checkTxnStatus p s).Sat T (Along U T c v₀ (view st))
      (fun out st' => Along U T c v₀ (view st) st' ∧ StatusOutcome U T p s st out st') st := by
  have hfound := statusLoop_view h p s
  simp only [LockResolver.checkTxnStatus, Prog.sat_bind, Prog.sat_walk, Prog.then_ok,
    Prog.sat_ofExcept]
  generalize statusLoop p s (st.range .write (encode p u64Max)) = found at hfound ⊢
  cases found with
  | error e => exact hfound.elim
  | ok found =>
      cases found with
      | none => exact checkPrimaryLock_sat h hq hfound
      | some status =>
          cases status with
          | committed ct =>
              obtain ⟨hseen, op, hw, hop⟩ := hfound
              exact ⟨.refl h, rfl, ⟨op, hop, hw⟩, hseen⟩
          | rolledBack =>
              obtain ⟨ts, hw, habove⟩ := hfound
              refine ⟨.refl h, ⟨Or.inl ⟨ts, hw⟩, ?_⟩, Or.inl rfl⟩
              rintro ct ⟨op, hop, hct⟩ -
              exact ⟨ts, habove ct op hct hop, hw⟩
          | locked ttl => exact hfound.elim

/-- Rolling a lock back after its transaction was found dead, which may just have been by an
expired primary lock that is the same one. -/
lemma Along.rollBack (h : Along U T c v₀ (view st) st') {k : Bytes} {l lr : Lock} (hk : k ∈ U)
    (hr : c.Resolves v₀ k l lr) (hl : (view st).lock k = some l)
    (hdead : Dead U (view st') l.primaryKey l.startTs)
    (hst : st' = st ∨
      view st' = (view st).settle l.primaryKey l.startTs ⟨l.startTs, .rollback⟩) :
    Along U T c v₀ (view st) (st'.apply (settleBatch k l.startTs ⟨l.startTs, .rollback⟩)) := by
  cases hlk : (view st').lock k with
  | some l' =>
      have hsame : l' = l := by
        rcases hst with rfl | hst
        · rw [hl, Option.some.injEq] at hlk
          exact hlk.symm
        · rw [hst, View.settle_lock] at hlk
          split_ifs at hlk
          rw [hl, Option.some.injEq] at hlk
          exact hlk.symm
      subst hsame
      exact h.trans (Along.settle h.wf hk (.rollBack hr hlk hdead))
  | none =>
      -- the lock was the expired primary's own, and the second batch repeats the first
      rcases hst with rfl | hst
      · rw [hl] at hlk
        cases hlk
      · have hkp : k = l.primaryKey := by
          rw [hst, View.settle_lock] at hlk
          by_contra hne
          simp [hne, hl] at hlk
        refine ⟨h.wf.settleBatch hk _ _, ?_⟩
        rw [view_settleBatch, hst, hkp, View.settle_settle, ← hst]
        exact h.moves

/-- Resolving a lock frees its key, or fails and changes nothing but an expired primary. -/
theorem resolveLock_sat (h : WF U st) {k : Bytes} {l lr : Lock} (hr : c.Resolves v₀ k l lr)
    (hpass : Passed U c v₀ (view st) k) (hl : (view st).lock k = some l) :
    (resolveLock k lr).Sat T (Along U T c v₀ (view st))
      (fun out st' => Along U T c v₀ (view st) st' ∧ (out = .ok () → (view st').lock k = none))
      st := by
  have hkU := h.lock_mem hl
  have hfree : ∀ (st' : Store) ts w, (view (st'.apply (settleBatch k ts w))).lock k = none := by
    intro st' ts w
    rw [view_settleBatch]
    simp
  obtain ⟨hp, hs⟩ := hr.same
  have hq := hr.queries hl
  simp only [resolveLock, Prog.sat_bind, hp, hs]
  refine (checkTxnStatus_sat h hq).mono ?_
  rintro (e | status) st' ⟨halong, hout⟩
  · exact hout.elim
  cases status with
  | committed ct =>
      obtain ⟨rfl, hcom, hseen⟩ := hout
      have hmove : Move U T c v₀ (view st') _ := .rollForward hr hpass hl hcom hseen
      have halong' := Along.settle h hkU hmove
      simp only [Prog.then_ok, Prog.sat_write]
      exact ⟨halong', halong', fun _ => hfree ..⟩
  | rolledBack =>
      obtain ⟨hdead, hst⟩ := hout
      simp only [Prog.then_ok, Prog.sat_write]
      have halong' := halong.rollBack hkU hr hl hdead hst
      exact ⟨halong', halong', fun _ => hfree ..⟩
  | locked ttl =>
      obtain ⟨rfl, hun, lp, t, hlp, hsp, rfl, hT, hlive⟩ := hout
      simp only [Prog.then_ok, Prog.sat_bind, Prog.sat_clock]
      intro now hnow
      by_cases hexp : expired now l.startTs lr.ttl
      · have halong' := Along.settle h hkU (.timeOut hr hl hlp hsp hT hlive hnow hexp hun)
        simp only [hexp, if_true, Prog.sat_write]
        exact ⟨halong', halong', fun _ => hfree ..⟩
      · simp only [hexp, if_false, Prog.sat_throw]
        exact ⟨halong, fun hok => by cases hok⟩

/-! ## Reads -/

/-- What an outcome of `get` says about the store it leaves. -/
def GetOutcome (U : Set Bytes) (v : View) (k : Bytes) (r : UInt64) :
    Except TxnError (Option Bytes) → Prop
  | .ok x => ReadOutcome U v k r (.ok x)
  | .error (.mvcc .corruptedState) => ReadOutcome U v k r (.error .corruptedState)
  | .error (.keyLocked k') => k' = k
  | .error _ => False

/-- A request that may resolve any lock in the way of a read of `k` at `r`. -/
def Call.Reads (c : Call) (v₀ : View) (k : Bytes) (r : UInt64) : Prop :=
  c.prewriteArgs = none ∧
    ∀ l : Lock, l.startTs ≤ r → c.Resolves v₀ k l (reportedLock l.primaryKey l.startTs)

theorem get_sat (h : WF U st) {k : Bytes} {r : UInt64} (hc : c.Reads v₀ k r) :
    (Coordinator.get k r).Sat T (Along U T c v₀ (view st))
      (fun out st' => Along U T c v₀ (view st) st' ∧ GetOutcome U (view st') k r out) st := by
  simp only [Coordinator.get, Prog.sat_bind, Prog.sat_attempt]
  refine (readerGet_sat h k r).mono ?_
  rintro (e | x) st' ⟨rfl, hout⟩
  · cases e with
    | corruptedState => exact ⟨.refl h, hout⟩
    | keyIsLocked p t =>
        obtain ⟨l, hl, rfl, rfl, hle⟩ := hout
        simp only [Prog.then_ok, Prog.sat_bind, Prog.sat_attempt]
        have hpass : ∀ v, Passed U c v₀ v k := by
          intro v s ms p ttl hargs
          rw [hc.1] at hargs
          cases hargs
        refine (resolveLock_sat h (hc.2 l hle) (hpass _) hl).mono ?_
        rintro (e | u) st₂ ⟨halong, hfree⟩
        · exact ⟨halong, rfl⟩
        · simp only [Prog.sat_mapError]
          refine (readerGet_sat halong.wf k r).mono ?_
          rintro (e | x) st₃ ⟨rfl, hout'⟩
          · refine ⟨halong, ?_⟩
            cases e with
            | corruptedState => exact hout'
            | keyIsLocked p t =>
                obtain ⟨l', hl', -⟩ := hout'
                rw [hfree rfl] at hl'
                cases hl'
          · exact ⟨halong, hout'⟩
  · exact ⟨.refl h, hout⟩

/-- A scan that fails does so at some key of its range. -/
def ScanOutcome (U : Set Bytes) (v : View) (r : UInt64) :
    Except TxnError (List (Bytes × Bytes)) → Prop
  | .ok _ => True
  | .error e => ∃ k, GetOutcome U v k r (.error e)

lemma scanLoop_sat {a b : Bytes} {n : UInt32} {r : UInt64}
    (hc : ∀ k ts w, InRange a b k → v₀.write k ts = some w → c.Reads v₀ k r)
    {items : List (Bytes × Bytes)} (hitems : ∀ x ∈ items, ∃ k ts w, x.1 = encode k ts ∧
      v₀.write k ts = some w) (last : Option Bytes) (results : List (Bytes × Bytes))
    (h : Along U T c v₀ v₁ st) :
    (scanLoop a b n r last results items).Sat T (Along U T c v₀ v₁)
      (fun out st' => Along U T c v₀ v₁ st' ∧ ScanOutcome U (view st') r out) st := by
  induction items generalizing last results st with
  | nil => exact ⟨h, trivial⟩
  | cons x items ih =>
      obtain ⟨e, bytes⟩ := x
      obtain ⟨k, ts, w, he, hw⟩ := hitems (e, bytes) List.mem_cons_self
      have hrest := fun y hy => hitems y (List.mem_cons_of_mem (e, bytes) hy)
      simp only at he
      subst he
      simp only [scanLoop, decode_encode]
      split_ifs with ha hb hlast
      · exact ih hrest last results h
      · exact ⟨h, trivial⟩
      · exact ih hrest last results h
      · have hrange : InRange a b k := by
          refine ⟨or_iff_not_imp_left.mpr fun hne => ?_, or_iff_not_imp_left.mpr fun hne => ?_⟩
          · exact List.not_lt.mp fun hlt => ha ⟨hne, hlt⟩
          · exact List.not_le.mp fun hle => hb ⟨hne, hle⟩
        rw [Prog.sat_bind]
        refine (h.sat (get_sat h.wf (hc k ts w hrange hw))).mono ?_
        rintro (e | value) st' ⟨halong, hout⟩
        · exact ⟨halong, k, hout⟩
        cases value with
        | none => exact ih hrest (some k) results halong
        | some value =>
            simp only [Prog.then_ok]
            split_ifs
            · exact ⟨halong, trivial⟩
            · exact ih hrest (some k) _ halong

theorem scan_sat (h : WF U st) {a b : Bytes} {n : UInt32} {r : UInt64}
    (hc : ∀ k ts w, InRange a b k → (view st).write k ts = some w → c.Reads (view st) k r) :
    (Coordinator.scan a b n r).Sat T (Along U T c (view st) (view st))
      (fun out st' => Along U T c (view st) (view st) st' ∧ ScanOutcome U (view st') r out)
      st := by
  simp only [Coordinator.scan, Prog.sat_bind, Prog.sat_walk, Prog.then_ok]
  refine scanLoop_sat hc ?_ none [] (.refl h)
  rintro ⟨e, bytes⟩ hx
  obtain ⟨hget, -⟩ := Keyspace.mem_range.mp hx
  obtain ⟨k, -, ts, w, he, hw⟩ := h.write e bytes hget
  subst he
  exact ⟨k, ts, w, rfl, view_write_of_get hget hw⟩

/-- What a scan has read on its way still holds at its end, if the moves that follow keep it. -/
lemma scanLoop_found {a b : Bytes} {n : UInt32} {r : UInt64} {P : View → Bytes × Bytes → Prop}
    (hc : ∀ k ts w, InRange a b k → v₀.write k ts = some w → c.Reads v₀ k r)
    (hread : ∀ v k x, Moves U T c v₀ v₁ v → ReadOutcome U v k r (.ok (some x)) → P v (k, x))
    (hkeep : ∀ v v' y, Moves U T c v₀ v₁ v → Move U T c v₀ v v' → P v y → P v' y)
    {items : List (Bytes × Bytes)} (hitems : ∀ x ∈ items, ∃ k ts w, x.1 = encode k ts ∧
      v₀.write k ts = some w) (last : Option Bytes) {results : List (Bytes × Bytes)}
    (h : Along U T c v₀ v₁ st) (hresults : ∀ y ∈ results, P (view st) y) :
    (scanLoop a b n r last results items).Sat T (Along U T c v₀ v₁)
      (fun out st' => ∀ kvs, out = .ok kvs → ∀ y ∈ kvs, P (view st') y) st := by
  have hkept : ∀ {v v' y}, Moves U T c v₀ v₁ v → Moves U T c v₀ v v' → P v y → P v' y := by
    intro v v' y hmoves hmore hy
    induction hmore with
    | refl => exact hy
    | tail hprev hmove ih => exact hkeep _ _ y (hmoves.trans hprev) hmove ih
  induction items generalizing last results st with
  | nil =>
      rintro kvs ⟨⟩
      exact hresults
  | cons x items ih =>
      obtain ⟨e, bytes⟩ := x
      obtain ⟨k, ts, w, he, hw⟩ := hitems (e, bytes) List.mem_cons_self
      have hrest := fun y hy => hitems y (List.mem_cons_of_mem (e, bytes) hy)
      simp only at he
      subst he
      simp only [scanLoop, decode_encode]
      split_ifs with ha hb hlast
      · exact ih hrest last h hresults
      · rintro kvs ⟨⟩
        exact hresults
      · exact ih hrest last h hresults
      · have hrange : InRange a b k := inRange_iff.mpr ⟨ha, hb⟩
        rw [Prog.sat_bind]
        refine (get_sat h.wf (hc k ts w hrange hw)).imp (fun _ h' => h.trans h') ?_
        rintro (e | value) st' ⟨halong, hout⟩
        · rintro kvs ⟨⟩
        have hall := h.trans halong
        have hresults' : ∀ y ∈ results, P (view st') y :=
          fun y hy => hkept h.moves halong.moves (hresults y hy)
        cases value with
        | none => exact ih hrest (some k) hall hresults'
        | some value =>
            have hmore : ∀ y ∈ results ++ [(k, value)], P (view st') y := by
              intro y hy
              rcases List.mem_append.mp hy with hy | hy
              · exact hresults' y hy
              · rw [List.mem_singleton.mp hy]
                exact hread _ k value hall.moves hout
            simp only [Prog.then_ok]
            split_ifs
            · rintro kvs ⟨⟩
              exact hmore
            · exact ih hrest (some k) hall hmore

theorem scan_found (h : WF U st) {a b : Bytes} {n : UInt32} {r : UInt64}
    {P : View → Bytes × Bytes → Prop}
    (hread : ∀ v k x, Moves U T (.scan a b n r) (view st) (view st) v →
      ReadOutcome U v k r (.ok (some x)) → P v (k, x))
    (hkeep : ∀ v v' y, Moves U T (.scan a b n r) (view st) (view st) v →
      Move U T (.scan a b n r) (view st) v v' → P v y → P v' y) :
    (Coordinator.scan a b n r).Sat T (Along U T (.scan a b n r) (view st) (view st))
      (fun out st' => ∀ kvs, out = .ok kvs → ∀ y ∈ kvs, P (view st') y) st := by
  simp only [Coordinator.scan, Prog.sat_bind, Prog.sat_walk, Prog.then_ok]
  refine scanLoop_found (fun k ts w hk hw => ?_) hread hkeep ?_ none (.refl h)
    fun y hy => absurd hy List.not_mem_nil
  · exact ⟨rfl, fun l hl => ⟨hk, ⟨ts, w, hw⟩, hl, rfl⟩⟩
  · rintro ⟨e, bytes⟩ hx
    obtain ⟨hget, -⟩ := Keyspace.mem_range.mp hx
    obtain ⟨k, -, ts, w, he, hw⟩ := h.write e bytes hget
    subst he
    exact ⟨k, ts, w, rfl, view_write_of_get hget hw⟩

end

end AcidKv
