import AcidKv.Abstract.Effects
import AcidKv.Refine.Reads

/-!
# Writing requests as moves

Prewrites, commits, the client's rollback and the heartbeat.  A request that puts several keys
into one batch makes the same moves as one with a batch for each.
-/

namespace AcidKv

open Coordinator LockResolver KeyEncoder

section

variable {U : Set Bytes} {T : UInt64 → Prop} {c : Call} {v₀ v₁ v₂ : View} {st st' : Store}

/-! ## Prewrite -/

/-- `k` has passed the conflict check of a prewrite of `s`, and is free for its lock. -/
structure Ready (U : Set Bytes) (v₀ v : View) (s : UInt64) (k : Bytes) : Prop where
  check : ∀ ts w, v₀.write k ts = some w → Reached U v k ts → ts < s
  free : ∀ l, v.lock k = some l → l.startTs = s

section Prewrite

variable {s ttl : UInt64} {ms : List Mutation} {p : Bytes}

lemma Call.ne_gc_of_prewriteArgs (hc : c.prewriteArgs = some (s, ms, p, ttl)) (sp : UInt64) :
    c ≠ .gc sp := by
  rintro rfl
  cases hc

/-- A prewrite resolves any lock of another transaction on a key it mutates. -/
lemma Call.resolves_of_prewriteArgs (hc : c.prewriteArgs = some (s, ms, p, ttl)) {m : Mutation}
    (hm : m ∈ ms) {l : Lock} (hl : l.startTs ≠ s) : c.Resolves v₀ m.key l l := by
  cases c with
  | prewrite _ _ _ _ => cases hc; exact ⟨⟨m, hm, rfl⟩, hl, rfl⟩
  | batchPrewrite _ _ _ _ => cases hc; exact ⟨⟨m, hm, rfl⟩, hl, rfl⟩
  | _ => cases hc

/-- The only locks a prewrite places are its own. -/
lemma Move.free {v v' : View} {k : Bytes} (h : Move U T c v₀ v v')
    (hc : c.prewriteArgs = some (s, ms, p, ttl)) (hfree : ∀ l, v.lock k = some l → l.startTs = s) :
    ∀ l, v'.lock k = some l → l.startTs = s := by
  intro l hl
  cases h with
  | stage hc' _ _ _ =>
      rw [hc] at hc'
      simp only [Option.some.injEq, Prod.mk.injEq] at hc'
      rw [View.stage_lock] at hl
      split_ifs at hl with hk
      · simp only [Option.some.injEq] at hl
        rw [← hl, hc'.1]
        rfl
      · exact hfree l hl
  | forbid _ _ _ => exact hfree l hl
  | refresh hc' _ _ => rw [hc'] at hc; cases hc
  | collect hc' hlock _ _ _ => rw [hc'] at hc; cases hc
  | _ =>
      rw [View.settle_lock] at hl
      split_ifs at hl
      exact hfree l hl

lemma Ready.moves {v v' : View} {k : Bytes} (hr : Ready U v₀ v s k)
    (hc : c.prewriteArgs = some (s, ms, p, ttl)) (h : Moves U T c v₀ v v') :
    Ready U v₀ v' s k where
  check ts w hw hreach := hr.check ts w hw
    (hreach.anti fun _ _ => h.write_isSome (Call.ne_gc_of_prewriteArgs hc))
  free := by
    induction h with
    | refl => exact hr.free
    | tail _ hmove ih => exact hmove.free hc ih

lemma checkConflict_sat {I : Store → Prop} (h : WF U st) (k : Bytes) (s : UInt64) :
    (checkConflict k s).Sat T I (fun out st' => st' = st ∧ (out = .ok () →
      ∀ ts w, (view st).write k ts = some w → Reached U (view st) k ts → ts < s)) st := by
  simp only [checkConflict, Prog.sat_bind, Prog.sat_walk, Prog.then_ok, Prog.sat_ofExcept]
  refine ⟨trivial, fun hok ts w hw hreach => ?_⟩
  obtain ⟨b, hm, -⟩ := mem_walk_of_write hw (le_u64Max ts)
  exact conflictLoop_found (walk_of_wf h _) hok hm (reaches_walk h hw hreach u64Max)

/-- Clearing a key of other transactions' locks, followed by something that changes nothing and
succeeds on a key without a lock. -/
lemma clearLockThen_sat (h : WF U st) (hc : c.prewriteArgs = some (s, ms, p, ttl)) {m : Mutation}
    (hm : m ∈ ms) (hpass : Passed U c v₀ (view st) m.key) {afterwards : Handler TxnError Unit}
    (hafter : ∀ st', WF U st' → (view st').lock m.key = none →
      afterwards.Sat T (Along U T c v₀ (view st)) (fun _ st₂ => st₂ = st') st') :
    (clearLockThen m.key s afterwards).Sat T (Along U T c v₀ (view st))
      (fun out st' => Along U T c v₀ (view st) st' ∧
        (out = .ok () → ∀ l, (view st').lock m.key = some l → l.startTs = s)) st := by
  simp only [clearLockThen, Prog.sat_bind, Prog.sat_lookup, Prog.then_ok]
  cases hg : st.get .lock m.key with
  | none =>
      refine ⟨.refl h, fun _ l hl => ?_⟩
      rw [view_lock_none hg] at hl
      cases hl
  | some b =>
      obtain ⟨-, l, hl⟩ := h.lock m.key b hg
      have hview := view_lock_of_get hg hl
      simp only [hl]
      by_cases hs : l.startTs = s
      · simp only [hs, if_true, Prog.sat_pure]
        refine ⟨.refl h, fun _ l' hl' => ?_⟩
        rw [hview, Option.some.injEq] at hl'
        rw [← hl', hs]
      · simp only [hs, if_false, Prog.sat_bind, Prog.sat_attempt]
        refine (resolveLock_sat h (Call.resolves_of_prewriteArgs hc hm hs) hpass hview).mono ?_
        rintro (e | u) st' ⟨halong, hfree⟩
        · exact ⟨halong, fun hok => by cases hok⟩
        · refine (hafter st' halong.wf (hfree rfl)).mono ?_
          rintro out st₂ rfl
          refine ⟨halong, fun _ l' hl' => ?_⟩
          rw [hfree rfl] at hl'
          cases hl'

/-- The second look that `prewrite` takes never finds anything. -/
lemma recheckLock_sat {I : Store → Prop} {k : Bytes} (h : WF U st)
    (hk : (view st).lock k = none) :
    (recheckLock k s).Sat T I (fun _ st' => st' = st) st := by
  simp only [recheckLock, Prog.sat_bind, Prog.sat_lookup, Prog.then_ok]
  cases hg : st.get .lock k with
  | none => exact rfl
  | some b =>
      obtain ⟨-, l, hl⟩ := h.lock k b hg
      rw [view_lock_of_get hg hl] at hk
      cases hk

/-- Steps 1 and 2 of a prewrite: if they succeed the key is ready for what comes next. -/
lemma ready_sat {α : Type} (h : Along U T c v₀ v₀ st) (hc : c.prewriteArgs = some (s, ms, p, ttl))
    {m : Mutation} {clear : Handler TxnError Unit} {next : Handler TxnError α}
    {Q : Except TxnError α → Store → Prop}
    (hclear : Passed U c v₀ (view st) m.key → clear.Sat T (Along U T c v₀ (view st))
      (fun out st' => Along U T c v₀ (view st) st' ∧
        (out = .ok () → ∀ l, (view st').lock m.key = some l → l.startTs = s)) st)
    (hnext : ∀ st', Along U T c v₀ v₀ st' → Moves U T c v₀ (view st) (view st') →
      Ready U v₀ (view st') s m.key → next.Sat T (Along U T c v₀ v₀) Q st')
    (herror : ∀ e st', Along U T c v₀ v₀ st' → Q (.error e) st') :
    (checkConflict m.key s >>= fun _ => clear >>= fun _ => next).Sat T (Along U T c v₀ v₀) Q
      st := by
  have hgc := Call.ne_gc_of_prewriteArgs hc
  rw [Prog.sat_bind]
  refine (checkConflict_sat h.wf m.key s).mono ?_
  rintro (e | u) st' ⟨rfl, hcheck⟩
  · exact herror e st' h
  -- the check was made on no fewer records than there were at the start
  have hpassed : ∀ ts w, v₀.write m.key ts = some w → Reached U (view st') m.key ts → ts < s := by
    intro ts w hw hreach
    have hsome : (v₀.write m.key ts).isSome := by rw [hw]; rfl
    obtain ⟨w', hw'⟩ := Option.isSome_iff_exists.mp (h.moves.write_isSome hgc hsome)
    exact hcheck rfl ts w' hw' hreach
  have hpass : Passed U c v₀ (view st') m.key := by
    intro s' ms' p' ttl' hc'
    rw [hc] at hc'
    cases hc'
    exact hpassed
  rw [Prog.then_ok, Prog.sat_bind]
  refine ((hclear hpass).imp (fun _ h' => h.trans h') fun _ _ hq => hq).mono ?_
  rintro (e | u) st₂ ⟨halong, hfree⟩
  · exact herror e st₂ (h.trans halong)
  refine hnext st₂ (h.trans halong) halong.moves ⟨fun ts w hw hreach => ?_, hfree rfl⟩
  exact hpassed ts w hw (hreach.anti fun _ _ => halong.moves.write_isSome hgc)

lemma Along.stageOne (h : WF U st) (hc : c.prewriteArgs = some (s, ms, p, ttl))
    {m : Mutation} (hm : m ∈ ms) (hU : m.key ∈ U) (hr : Ready U v₀ (view st) s m.key) :
    Along U T c v₀ (view st) (st.apply (stageBatch s p ttl m)) := by
  refine ⟨h.stageBatch s p ttl hU, ?_⟩
  rw [view_stageBatch]
  exact .single (.stage hc hm hr.check hr.free)

theorem prewrite_sat (h : Along U T c v₀ v₀ st) (hc : c.prewriteArgs = some (s, ms, p, ttl))
    (hU : ∀ m ∈ ms, m.key ∈ U) {rest : List Mutation} (hrest : ∀ m ∈ rest, m ∈ ms) :
    (Coordinator.prewrite s rest p ttl).Sat T (Along U T c v₀ v₀)
      (fun out st' => Along U T c v₀ v₀ st' ∧ (out = .ok () →
        Moves U T c v₀ (view st) (view st') ∧ ∀ m ∈ rest, Ready U v₀ (view st') s m.key)) st := by
  induction rest generalizing st with
  | nil => exact ⟨h, fun _ => ⟨.refl, by simp⟩⟩
  | cons m rest ih =>
      have hm := hrest m List.mem_cons_self
      refine ready_sat h hc
        (fun hpass => clearLockThen_sat h.wf hc hm hpass fun st' hwf => recheckLock_sat hwf) ?_
        fun e st' halong => ⟨halong, fun hok => by cases hok⟩
      intro st' halong hmoves hready
      have hone : Along U T c v₀ (view st') _ := .stageOne halong.wf hc hm (hU m hm) hready
      have hstaged := halong.trans hone
      simp only [Prog.sat_bind, Prog.sat_write, Prog.then_ok]
      refine ⟨hstaged, (ih hstaged fun m' hm' => hrest m' (List.mem_cons_of_mem m hm')).mono ?_⟩
      rintro out st₂ ⟨halong₂, hok⟩
      refine ⟨halong₂, fun hout => ?_⟩
      obtain ⟨hmoves₂, hready₂⟩ := hok hout
      refine ⟨(hmoves.trans hone.moves).trans hmoves₂, ?_⟩
      rw [List.forall_mem_cons]
      exact ⟨hready.moves hc (hone.moves.trans hmoves₂), hready₂⟩

/-- The loop of `batch_prewrite` collects the staging batches of keys that are all ready at its
end. -/
lemma stageLoop_sat (h : Along U T c v₀ v₀ st) (hc : c.prewriteArgs = some (s, ms, p, ttl))
    {rest : List Mutation} (hrest : ∀ m ∈ rest, m ∈ ms) (batch : Batch) :
    (stageLoop s p ttl batch rest).Sat T (Along U T c v₀ v₀)
      (fun out st' => Along U T c v₀ v₀ st' ∧ ∀ b, out = .ok b →
        Moves U T c v₀ (view st) (view st') ∧ b = batch ++ rest.flatMap (stageBatch s p ttl) ∧
        ∀ m ∈ rest, Ready U v₀ (view st') s m.key) st := by
  induction rest generalizing st batch with
  | nil =>
      refine ⟨h, ?_⟩
      rintro b ⟨⟩
      exact ⟨.refl, by simp⟩
  | cons m rest ih =>
      have hm := hrest m List.mem_cons_self
      refine ready_sat h hc (fun hpass => clearLockThen_sat h.wf hc hm hpass fun st' _ _ => rfl) ?_
        fun e st' halong => ⟨halong, fun b hok => by cases hok⟩
      intro st' halong hmoves hready
      refine (ih halong (fun m' hm' => hrest m' (List.mem_cons_of_mem m hm')) _).mono ?_
      rintro out st₂ ⟨halong₂, hok⟩
      refine ⟨halong₂, fun b hb => ?_⟩
      obtain ⟨hmoves₂, rfl, hready₂⟩ := hok b hb
      refine ⟨hmoves.trans hmoves₂, by simp, ?_⟩
      rw [List.forall_mem_cons]
      exact ⟨hready.moves hc hmoves₂, hready₂⟩

/-- Staging ready keys one after the other, all in one batch. -/
lemma Along.stageAll (h : WF U st) (hc : c.prewriteArgs = some (s, ms, p, ttl))
    (hU : ∀ m ∈ ms, m.key ∈ U) {rest : List Mutation} (hrest : ∀ m ∈ rest, m ∈ ms)
    (hready : ∀ m ∈ rest, Ready U v₀ (view st) s m.key) :
    Along U T c v₀ (view st) (st.apply (rest.flatMap (stageBatch s p ttl))) := by
  induction rest generalizing st with
  | nil => exact .refl h
  | cons m rest ih =>
      have hm := hrest m List.mem_cons_self
      have hone : Along U T c v₀ (view st) _ :=
        .stageOne h hc hm (hU m hm) (hready m List.mem_cons_self)
      rw [List.flatMap_cons, Keyspace.apply_append]
      refine hone.trans (ih hone.wf (fun m' hm' => hrest m' (List.mem_cons_of_mem m hm')) ?_)
      exact fun m' hm' => (hready m' (List.mem_cons_of_mem m hm')).moves hc hone.moves

theorem batchPrewrite_sat (h : Along U T c v₀ v₀ st)
    (hc : c.prewriteArgs = some (s, ms, p, ttl)) (hU : ∀ m ∈ ms, m.key ∈ U) :
    (Coordinator.batchPrewrite s ms p ttl).Sat T (Along U T c v₀ v₀)
      (fun out st' => Along U T c v₀ v₀ st' ∧
        (out = .ok () → ∀ m ∈ ms, Ready U v₀ (view st') s m.key)) st := by
  cases ms with
  | nil => exact ⟨h, fun _ => by simp⟩
  | cons m rest =>
      simp only [Coordinator.batchPrewrite, Prog.sat_bind]
      refine (stageLoop_sat h hc (fun _ hm => hm) []).mono ?_
      rintro (e | b) st' ⟨halong, hok⟩
      · exact ⟨halong, fun hok => by cases hok⟩
      obtain ⟨-, rfl, hready⟩ := hok b rfl
      have hall : Along U T c v₀ (view st') _ :=
        .stageAll halong.wf hc hU (fun _ hm => hm) hready
      simp only [Prog.then_ok, Prog.sat_write, List.nil_append]
      exact ⟨halong.trans hall, halong.trans hall,
        fun _ m hm => (hready m hm).moves hc hall.moves⟩

/-! ### The locks of a prewrite -/

/-- After a prewrite that succeeds all of its keys are locked. -/
theorem prewrite_places (h : Along U T c v₀ v₀ st) (hc : c.prewriteArgs = some (s, ms, p, ttl))
    (hU : ∀ m ∈ ms, m.key ∈ U) {rest : List Mutation} (hrest : ∀ m ∈ rest, m ∈ ms) :
    (Coordinator.prewrite s rest p ttl).Sat T (Along U T c v₀ v₀)
      (fun out st' => out = .ok () → ∀ m ∈ rest, (view st').Prewritten m.key p s) st := by
  induction rest generalizing st with
  | nil => exact fun _ => by simp
  | cons m rest ih =>
      have hm := hrest m List.mem_cons_self
      have hrest' : ∀ m ∈ rest, m ∈ ms := fun m' hm' => hrest m' (List.mem_cons_of_mem m hm')
      refine ready_sat h hc
        (fun hpass => clearLockThen_sat h.wf hc hm hpass fun st' hwf => recheckLock_sat hwf) ?_
        fun e st' halong hok => by cases hok
      intro st' halong hmoves hready
      have hone : Along U T c v₀ (view st') _ := .stageOne halong.wf hc hm (hU m hm) hready
      have hstaged := halong.trans hone
      simp only [Prog.sat_bind, Prog.sat_write, Prog.then_ok]
      refine ⟨hstaged, ((prewrite_sat hstaged hc hU hrest').and (ih hstaged hrest')).mono ?_⟩
      rintro out st₂ ⟨⟨-, hmoves₂⟩, hlocks⟩ hok
      rw [List.forall_mem_cons]
      refine ⟨(hmoves₂ hok).1.own_prewritten hc ?_, hlocks hok⟩
      rw [view_stageBatch]
      exact View.prewritten_stage _ s p ttl m

lemma prewritten_stageAll (st : Store) (s : UInt64) (p : Bytes) (ttl : UInt64)
    (rest : List Mutation) :
    (∀ k, (view st).Prewritten k p s →
        (view (st.apply (rest.flatMap (stageBatch s p ttl)))).Prewritten k p s) ∧
      ∀ m ∈ rest, (view (st.apply (rest.flatMap (stageBatch s p ttl)))).Prewritten m.key p s := by
  induction rest generalizing st with
  | nil => exact ⟨fun k hk => hk, by simp⟩
  | cons m rest ih =>
      obtain ⟨hstay, hlocks⟩ := ih (st.apply (stageBatch s p ttl m))
      rw [List.flatMap_cons, Keyspace.apply_append, List.forall_mem_cons]
      rw [view_stageBatch] at hstay
      exact ⟨fun k hk => hstay k (hk.stage ttl m), hstay _ (View.prewritten_stage _ s p ttl m),
        hlocks⟩

theorem batchPrewrite_places (h : Along U T c v₀ v₀ st)
    (hc : c.prewriteArgs = some (s, ms, p, ttl)) (hU : ∀ m ∈ ms, m.key ∈ U) :
    (Coordinator.batchPrewrite s ms p ttl).Sat T (Along U T c v₀ v₀)
      (fun out st' => out = .ok () → ∀ m ∈ ms, (view st').Prewritten m.key p s) st := by
  cases ms with
  | nil => exact fun _ => by simp
  | cons m rest =>
      simp only [Coordinator.batchPrewrite, Prog.sat_bind]
      refine (stageLoop_sat h hc (fun _ hm => hm) []).mono ?_
      rintro (e | b) st' ⟨halong, hok⟩
      · exact fun hok => by cases hok
      obtain ⟨-, rfl, hready⟩ := hok b rfl
      have hall : Along U T c v₀ (view st') _ :=
        .stageAll halong.wf hc hU (fun _ hm => hm) hready
      simp only [Prog.then_ok, Prog.sat_write, List.nil_append]
      exact ⟨halong.trans hall, fun _ => (prewritten_stageAll st' s p ttl (m :: rest)).2⟩

end Prewrite

/-! ## Commit -/

section Commit

variable {s ct : UInt64} {ks : List Bytes}

/-- Settling a key that is already settled in this way changes nothing. -/
lemma View.settle_eq_self {v : View} {k : Bytes} {ts : UInt64} {w : WriteRecord}
    (hl : v.lock k = none) (hw : v.write k ts = some w) : v.settle k ts w = v := by
  ext1
  · funext k'
    by_cases h : k' = k
    · simp [h, hl]
    · simp [h]
  · funext k' ts'
    by_cases h : k' = k ∧ ts' = ts
    · simp [h, hw]
    · simp [h]
  · rfl

/-- Committing one key leaves what is committed at the same timestamp committed. -/
lemma View.Committed.settle {v : View} {p k : Bytes} {op : OpType} (h : v.Committed p s ct)
    (hop : op ≠ .rollback) : (v.settle k ct ⟨s, op⟩).Committed p s ct := by
  obtain ⟨op', hop', hw⟩ := h
  by_cases hpk : p = k
  · exact ⟨op, hop, by simp [hpk]⟩
  · exact ⟨op', hop', by simp [hpk, hw]⟩

lemma commitSecondaries_sat {p : Bytes} {secondaries rest : List Bytes}
    (hc : c = .commit s ct (p :: secondaries)) (hrest : ∀ k ∈ rest, k ∈ secondaries)
    (h : Along U T c v₀ v₁ st) (hp : (view st).Committed p s ct) :
    (commitSecondaries s ct rest).Sat T (Along U T c v₀ v₁)
      (fun _ st' => Along U T c v₀ v₁ st') st := by
  induction rest generalizing st with
  | nil => exact h
  | cons k rest ih =>
      have hrest' := fun k' hk' => hrest k' (List.mem_cons_of_mem k hk')
      simp only [commitSecondaries, Prog.sat_bind, Prog.sat_lookup, Prog.then_ok]
      cases hg : st.get .lock k with
      | none => exact ih hrest' h hp
      | some b =>
          obtain ⟨hkU, l, hl⟩ := h.wf.lock k b hg
          have hview := view_lock_of_get hg hl
          simp only [hl]
          by_cases hs : l.startTs = s
          · have hmove : Move U T c v₀ (view st) ((view st).settle k ct ⟨s, l.op⟩) := by
              refine .commitKey (by rw [hc]; rfl) ?_ hview hs ?_
              · exact List.mem_cons_of_mem p (hrest k List.mem_cons_self)
              · rintro p' rest' ⟨⟩
                exact Or.inr (Or.inl hp)
            have halong := h.trans (Along.settle h.wf hkU hmove)
            simp only [hs, if_true, Prog.sat_bind, Prog.sat_write, Prog.then_ok]
            refine ⟨halong, ih hrest' halong ?_⟩
            rw [view_settleBatch]
            exact hp.settle (view_lock_op hview).1
          · simp only [hs, if_false]
            exact ih hrest' h hp

theorem commit_sat (h : WF U st) (hc : c = .commit s ct ks) :
    (Coordinator.commit s ct ks).Sat T (Along U T c v₀ (view st))
      (fun _ st' => Along U T c v₀ (view st) st') st := by
  cases ks with
  | nil => exact .refl h
  | cons p secondaries =>
      simp only [Coordinator.commit, Prog.sat_bind, Prog.sat_lookup, Prog.then_ok]
      cases hg : st.get .lock p with
      | none => exact .refl h
      | some b =>
          obtain ⟨hpU, l, hl⟩ := h.lock p b hg
          have hview := view_lock_of_get hg hl
          simp only [hl]
          by_cases hs : l.startTs = s
          · have hmove : Move U T c v₀ (view st) ((view st).settle p ct ⟨s, l.op⟩) := by
              refine .commitKey (by rw [hc]; rfl) List.mem_cons_self hview hs ?_
              rintro p' rest' ⟨⟩
              exact Or.inl rfl
            have halong := Along.settle h hpU hmove
            simp only [hs, if_true, Prog.sat_bind, Prog.sat_write, Prog.then_ok]
            refine ⟨halong, commitSecondaries_sat hc (fun _ hk => hk) halong ?_⟩
            rw [view_settleBatch]
            exact ⟨l.op, (view_lock_op hview).1, by simp⟩
          · simp only [hs, if_false]
            exact .refl h

/-- What `batch_commit` stages for one key. -/
def commitItems (v : View) (s ct : UInt64) (k : Bytes) : Batch :=
  match v.lock k with
  | some l => if l.startTs = s then settleBatch k ct ⟨s, l.op⟩ else []
  | none => []

lemma commitItems_of_lock {v : View} {k : Bytes} {l : Lock} (hl : v.lock k = some l)
    (hs : l.startTs = s) : commitItems v s ct k = settleBatch k ct ⟨s, l.op⟩ := by
  simp [commitItems, hl, hs]

lemma commitItems_of_unlocked {v : View} {k : Bytes} (h : ¬ v.LockedBy k s) :
    commitItems v s ct k = [] := by
  unfold commitItems
  split
  · next l hl => exact if_neg fun hs => h ⟨l, hl, hs⟩
  · rfl

lemma commitLoop_sat {I : Store → Prop} (h : LocksDecode st) (batch : Batch) :
    (commitLoop s ct batch ks).Sat T I
      (fun out st' => st' = st ∧ out = .ok (batch ++ ks.flatMap (commitItems (view st) s ct)))
      st := by
  induction ks generalizing batch with
  | nil => exact ⟨rfl, by simp⟩
  | cons k ks ih =>
      simp only [commitLoop, Prog.sat_bind, Prog.sat_lookup, Prog.then_ok, List.flatMap_cons]
      cases hg : st.get .lock k with
      | none => simpa [commitItems, view_lock_none hg] using ih batch
      | some b =>
          obtain ⟨l, hl⟩ := h k b hg
          simp only [hl, commitItems, view_lock_of_get hg hl]
          by_cases hs : l.startTs = s
          · simpa [hs] using ih (batch ++ settleBatch k ct ⟨s, l.op⟩)
          · simpa [hs] using ih batch

/-- Halfway through the batch of `batch_commit`: a key is as before, or already committed. -/
def Partway (v₀ v : View) (s ct : UInt64) : Prop :=
  ∀ k l, v₀.lock k = some l → l.startTs = s →
    l.op ≠ .rollback ∧ (v.lock k = some l ∨ v.lock k = none ∧ v.write k ct = some ⟨s, l.op⟩)

lemma Partway.settle {v : View} {k : Bytes} {l : Lock} (h : Partway v₀ v s ct)
    (hl : v₀.lock k = some l) : Partway v₀ (v.settle k ct ⟨s, l.op⟩) s ct := by
  intro k' l' hl' hs'
  by_cases hk : k' = k
  · subst hk
    rw [hl, Option.some.injEq] at hl'
    subst hl'
    exact ⟨(h k' l hl hs').1, Or.inr (by simp)⟩
  · simpa [hk] using h k' l' hl' hs'

/-- One key's part of the batch is a move, or nothing if the key comes up a second time. -/
lemma Along.commitOne (h : WF U st) (hpart : Partway v₀ (view st) s ct) {k : Bytes}
    (hkU : ∀ l, v₀.lock k = some l → k ∈ U) (hc : c.commitArgs = some (s, ct, ks)) (hk : k ∈ ks)
    (hfirst : ∀ p rest, ks = p :: rest → k = p ∨ (view st).Committed p s ct ∨
      c = .batchCommit s ct ks ∧ ¬ v₀.LockedBy p s) :
    Along U T c v₀ (view st) (st.apply (commitItems v₀ s ct k)) ∧
      Partway v₀ (view (st.apply (commitItems v₀ s ct k))) s ct ∧
      (v₀.LockedBy k s → (view (st.apply (commitItems v₀ s ct k))).Committed k s ct) ∧
      ∀ p, (view st).Committed p s ct →
        (view (st.apply (commitItems v₀ s ct k))).Committed p s ct := by
  by_cases hlocked : v₀.LockedBy k s
  · obtain ⟨l, hl, hs⟩ := hlocked
    obtain ⟨hop, hnow⟩ := hpart k l hl hs
    rw [commitItems_of_lock hl hs]
    refine ⟨?_, ?_, fun _ => ?_, fun p hp => ?_⟩
    · rcases hnow with hnow | ⟨hnow, hw⟩
      · exact Along.settle h (hkU l hl) (.commitKey hc hk hnow hs hfirst)
      · refine ⟨h.settleBatch (hkU l hl) ct _, ?_⟩
        rw [view_settleBatch, View.settle_eq_self hnow hw]
    · rw [view_settleBatch]
      exact hpart.settle hl
    · rw [view_settleBatch]
      exact ⟨l.op, hop, by simp⟩
    · rw [view_settleBatch]
      exact hp.settle hop
  · rw [commitItems_of_unlocked hlocked]
    exact ⟨.refl h, hpart, fun hl => absurd hl hlocked, fun _ hp => hp⟩

/-- The keys after the first one, once that is dealt with. -/
lemma Along.commitRest {p : Bytes} {secondaries rest : List Bytes} (h : WF U st)
    (hpart : Partway v₀ (view st) s ct) (hkU : ∀ k l, v₀.lock k = some l → k ∈ U)
    (hc : c = .batchCommit s ct (p :: secondaries)) (hrest : ∀ k ∈ rest, k ∈ secondaries)
    (hp : v₀.LockedBy p s → (view st).Committed p s ct) :
    Along U T c v₀ (view st) (st.apply (rest.flatMap (commitItems v₀ s ct))) := by
  induction rest generalizing st with
  | nil => exact .refl h
  | cons k rest ih =>
      have hfirst : ∀ p' rest', p :: secondaries = p' :: rest' → k = p' ∨
          (view st).Committed p' s ct ∨
          c = .batchCommit s ct (p :: secondaries) ∧ ¬ v₀.LockedBy p' s := by
        rintro p' rest' ⟨⟩
        by_cases hl : v₀.LockedBy p s
        · exact Or.inr (Or.inl (hp hl))
        · exact Or.inr (Or.inr ⟨hc, hl⟩)
      obtain ⟨halong, hpart', -, hkeep⟩ := Along.commitOne (T := T) h hpart (hkU k)
        (by rw [hc]; rfl) (List.mem_cons_of_mem p (hrest k List.mem_cons_self)) hfirst
      rw [List.flatMap_cons, Keyspace.apply_append]
      exact halong.trans (ih halong.wf hpart'
        (fun k' hk' => hrest k' (List.mem_cons_of_mem k hk')) fun hl => hkeep p (hp hl))

theorem batchCommit_sat (h : WF U st) (hc : c = .batchCommit s ct ks) :
    (Coordinator.batchCommit s ct ks).Sat T (Along U T c (view st) (view st))
      (fun _ st' => Along U T c (view st) (view st) st') st := by
  cases ks with
  | nil => exact .refl h
  | cons p secondaries =>
      have hpart : Partway (view st) (view st) s ct :=
        fun k l hl _ => ⟨(view_lock_op hl).1, Or.inl hl⟩
      have hkU : ∀ k l, (view st).lock k = some l → k ∈ U := fun k l hl => h.lock_mem hl
      have hargs : c.commitArgs = some (s, ct, p :: secondaries) := by rw [hc]; rfl
      obtain ⟨hone, hpart', hcom, -⟩ := Along.commitOne (T := T) h hpart (hkU p) hargs
        List.mem_cons_self (by rintro p' rest' ⟨⟩; exact Or.inl rfl)
      have hrest := Along.commitRest (T := T) hone.wf hpart' hkU hc (fun _ hk => hk) hcom
      simp only [Coordinator.batchCommit, Prog.sat_bind]
      refine (commitLoop_sat h.locksDecode []).mono ?_
      rintro out st' ⟨rfl, rfl⟩
      simp only [Prog.then_ok, Prog.sat_write, List.nil_append, List.flatMap_cons,
        Keyspace.apply_append]
      exact ⟨hone.trans hrest, hone.trans hrest⟩

end Commit

/-! ## Rollback and heartbeat -/

section Rollback

variable {s : UInt64} {ks : List Bytes}

/-- After a rollback of `s`, the key carries its mark and no lock of `s`. -/
def Barred (v : View) (k : Bytes) (s : UInt64) : Prop :=
  v.write k s = some ⟨s, .rollback⟩ ∧ ¬ v.LockedBy k s

lemma Barred.move {v v' : View} {k : Bytes} (h : Move U T c v₀ v v') (hc : c = .rollback s ks)
    (hb : Barred v k s) : Barred v' k s := by
  subst hc
  obtain ⟨hw, hl⟩ := hb
  cases h with
  | abandon hc hk _ =>
      cases hc
      refine ⟨by simp [hw], ?_⟩
      rintro ⟨l, hl', hs⟩
      rw [View.settle_lock] at hl'
      split_ifs at hl'
      exact hl ⟨l, hl', hs⟩
  | forbid hc hk _ =>
      cases hc
      exact ⟨by simp [hw], hl⟩
  | expire hq _ _ _ _ => exact (hq.elim (fun h => by cases h) fun ⟨_, _, _, h, _⟩ => h).elim
  | stage hc _ _ _ => cases hc
  | commitKey hc _ _ _ _ => cases hc
  | refresh hc _ _ => cases hc
  | collect hc _ _ _ _ => cases hc
  | rollForward hr _ _ => exact hr.elim
  | rollBack hr _ _ => exact hr.elim
  | timeOut hr _ _ _ _ _ _ _ _ => exact hr.elim

lemma Barred.moves {v v' : View} {k : Bytes} (hb : Barred v k s) (hc : c = .rollback s ks)
    (h : Moves U T c v₀ v v') : Barred v' k s := by
  induction h with
  | refl => exact hb
  | tail _ hmove ih => exact ih.move hmove hc

lemma barred_settle (st : Store) (k : Bytes) :
    Barred (view (st.apply (settleBatch k s ⟨s, .rollback⟩))) k s := by
  rw [view_settleBatch]
  refine ⟨by simp, ?_⟩
  rintro ⟨l, hl, -⟩
  simp at hl

lemma Along.mark (h : WF U st) (hc : c = .rollback s ks) {k : Bytes} (hk : k ∈ ks) (hkU : k ∈ U)
    (hl : ¬ (view st).LockedBy k s) : Along U T c v₀ (view st)
      (st.apply [.insert .write (encode k s) (WriteRecord.mk s .rollback).toBytes]) := by
  refine ⟨h.insertWrite hkU s _, ?_⟩
  rw [view_mark]
  exact .single (.forbid hc hk hl)

lemma barred_mark {k : Bytes} (hl : ¬ (view st).LockedBy k s) : Barred (view (st.apply
    [.insert .write (encode k s) (WriteRecord.mk s .rollback).toBytes])) k s := by
  rw [view_mark]
  exact ⟨by simp, hl⟩

theorem rollback_sat (h : Along U T c v₀ v₁ st) (hc : c = .rollback s ks) (hU : ∀ k ∈ ks, k ∈ U)
    {rest : List Bytes} (hrest : ∀ k ∈ rest, k ∈ ks) :
    (Coordinator.rollback s rest).Sat T (Along U T c v₀ v₁)
      (fun out st' => Along U T c v₀ v₁ st' ∧ Moves U T c v₀ (view st) (view st') ∧
        out = .ok () ∧ ∀ k ∈ rest, Barred (view st') k s) st := by
  induction rest generalizing st with
  | nil => exact ⟨h, .refl, rfl, by simp⟩
  | cons k rest ih =>
      have hk := hrest k List.mem_cons_self
      have hrest' := fun k' hk' => hrest k' (List.mem_cons_of_mem k hk')
      -- whichever batch is written, the rest of the keys follows
      have hnext : ∀ st', Along U T c v₀ (view st) st' → Barred (view st') k s →
          (Coordinator.rollback s rest).Sat T (Along U T c v₀ v₁)
            (fun out st₂ => Along U T c v₀ v₁ st₂ ∧ Moves U T c v₀ (view st) (view st₂) ∧
              out = .ok () ∧ ∀ k' ∈ k :: rest, Barred (view st₂) k' s) st' := by
        intro st' halong hbarred
        refine (ih (h.trans halong) hrest').mono ?_
        rintro out st₂ ⟨halong₂, hmoves, hout, hbarred₂⟩
        refine ⟨halong₂, halong.moves.trans hmoves, hout, ?_⟩
        rw [List.forall_mem_cons]
        exact ⟨hbarred.moves hc hmoves, hbarred₂⟩
      have hforbid : ∀ hno : ¬ (view st).LockedBy k s, Along U T c v₀ (view st)
          (st.apply [.insert .write (encode k s) (WriteRecord.mk s .rollback).toBytes]) :=
        fun hno => .mark h.wf hc hk (hU k hk) hno
      simp only [Coordinator.rollback, Prog.sat_bind, Prog.sat_lookup, Prog.then_ok]
      cases hg : st.get .lock k with
      | none =>
          have hno : ¬ (view st).LockedBy k s := by
            rintro ⟨l, hl, -⟩
            rw [view_lock_none hg] at hl
            cases hl
          simp only [Prog.sat_bind, Prog.sat_write, Prog.then_ok]
          exact ⟨h.trans (hforbid hno), hnext _ (hforbid hno) (barred_mark hno)⟩
      | some b =>
          obtain ⟨-, l, hl⟩ := h.wf.lock k b hg
          have hview := view_lock_of_get hg hl
          simp only [hl]
          by_cases hs : l.startTs = s
          · have halong : Along U T c v₀ (view st) _ :=
              .settle h.wf (hU k hk) (.abandon hc hk ⟨l, hview, hs⟩)
            simp only [hs, if_true, Prog.sat_bind, Prog.sat_write, Prog.then_ok,
              apply_remove_insert]
            exact ⟨h.trans halong, hnext _ halong (barred_settle st k)⟩
          · have hno : ¬ (view st).LockedBy k s := by
              rintro ⟨l', hl', hs'⟩
              rw [hview, Option.some.injEq] at hl'
              exact hs (hl' ▸ hs')
            simp only [hs, if_false, Prog.sat_bind, Prog.sat_write, Prog.then_ok]
            exact ⟨h.trans (hforbid hno), hnext _ (hforbid hno) (barred_mark hno)⟩

theorem heartbeat_sat (h : WF U st) {p : Bytes} {ttl : UInt64} (hc : c = .heartbeat p s ttl) :
    (Coordinator.heartbeat p s ttl).Sat T (Along U T c v₀ (view st))
      (fun _ st' => Along U T c v₀ (view st) st') st := by
  simp only [Coordinator.heartbeat, Prog.sat_bind, Prog.sat_lookup, Prog.then_ok]
  cases hg : st.get .lock p with
  | none => exact .refl h
  | some b =>
      obtain ⟨hpU, l, hl⟩ := h.lock p b hg
      have hview := view_lock_of_get hg hl
      obtain ⟨hop, hstored⟩ := view_lock_op hview
      simp only [hl]
      by_cases hs : l.startTs = s
      · have hop' : ({ l with ttl := ttl } : Lock).op ≠ .rollback := hop
        have hstored' : ({ l with ttl := ttl } : Lock).stored = { l with ttl := ttl } := by
          rw [Lock.stored, Lock.mk.injEq]
          exact ⟨congrArg Lock.primaryKey hstored, rfl, rfl, rfl⟩
        have halong : Along U T c v₀ (view st)
            (st.apply [.insert .lock p ({ l with ttl := ttl } : Lock).toBytes]) := by
          refine ⟨h.insertLock hpU hop', ?_⟩
          rw [view_putLock st p hop', hstored']
          exact .single (.refresh hc hview hs)
        simp only [hs, if_true, Prog.sat_bind, Prog.sat_write, Prog.then_ok, Prog.sat_pure]
        rw [← hs]
        exact ⟨halong, halong⟩
      · simp only [hs, if_false]
        exact .refl h

end Rollback

end

end AcidKv
