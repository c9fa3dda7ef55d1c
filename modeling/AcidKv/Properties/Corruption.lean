import AcidKv.Properties.Clients

/-!
# Reads and corrupted state

A read reports corrupted state when it comes to a Put record without a value.  Values are staged
together with Put locks and stay, so this takes a Put record that does not come from a put.  There
is one way to get it: `get` does not hand the lock it met to `resolve_lock`, but one of its own
making that always says Put, and rolls a deleted key forward as if it had been put.

`OpsPreserved` leaves out the reads that meet a Delete lock of a committed transaction.  Without
them every Put and Delete record has the op that its transaction prewrote, and every Put record
has its value.
-/

namespace AcidKv

/-- Each transaction names one primary key, and one op for each key it mutates. -/
structure Consistent (calls : List Call) : Prop where
  primary : OnePrimary calls
  op : ∀ c ∈ calls, ∀ c' ∈ calls, ∀ s p p' m m', c.Prewrites s p m → c'.Prewrites s p' m' →
    m.key = m'.key → m.opType = m'.opType

/-- A single prewrite is consistent if its mutations are. -/
lemma consistent_single {calls : List Call} (c : Call)
    (honly : ∀ c' ∈ calls, c'.prewriteArgs.isSome → c' = c)
    (hops : ∀ s ms p ttl, c.prewriteArgs = some (s, ms, p, ttl) →
      ∀ m ∈ ms, ∀ m' ∈ ms, m.key = m'.key → m.opType = m'.opType) : Consistent calls := by
  refine ⟨onePrimary_single c honly, ?_⟩
  rintro c₁ h₁ c₂ h₂ s p p' m m' ⟨ms, ttl, hargs, hm⟩ ⟨ms', ttl', hargs', hm'⟩ hk
  have heq₁ := honly c₁ h₁ (by rw [hargs]; rfl)
  have heq₂ := honly c₂ h₂ (by rw [hargs']; rfl)
  rw [heq₁] at hargs
  rw [heq₂, hargs] at hargs'
  cases hargs'
  exact hops s ms p ttl hargs m hm m' hm' hk

/-- The request meets no lock whose transaction it will find committed and whose op it will not
pass on. -/
def OpsPreserved (v : View) (c : Call) : Prop :=
  ∀ k l lr, c.Resolves v k l lr → v.lock k = some l → lr.op ≠ l.op →
    ∀ ct, v.Committed l.primaryKey l.startTs ct → ¬ Seen v l.primaryKey ct

/-- Put and Delete records have the op of a mutation of their transaction on their key. -/
def RecordsFrom (calls : List Call) (v : View) : Prop :=
  ∀ k ct s op, op ≠ .rollback → v.write k ct = some ⟨s, op⟩ →
    ∃ c ∈ calls, ∃ p m, c.Prewrites s p m ∧ m.key = k ∧ m.opType = op

/-- Put locks and Put records have their values. -/
structure Staged (v : View) : Prop where
  lock : ∀ k l, v.lock k = some l → l.op = .put → (v.data k l.startTs).isSome
  write : ∀ k ct s, v.write k ct = some ⟨s, .put⟩ → (v.data k s).isSome

section

variable {U : Set Bytes} {T : UInt64 → Prop} {c : Call} {v₀ v v' : View} {calls : List Call}

/-- A request that meets locks and changes the op of one is a read. -/
lemma Call.Resolves.read_of_op_ne {k : Bytes} {l lr : Lock} (h : c.Resolves v₀ k l lr)
    (hop : lr.op ≠ l.op) : c.prewriteArgs = none := by
  cases c with
  | prewrite _ _ _ _ => obtain ⟨-, -, rfl⟩ := h; exact absurd rfl hop
  | batchPrewrite _ _ _ _ => obtain ⟨-, -, rfl⟩ := h; exact absurd rfl hop
  | _ => rfl

/-- A lock is rolled forward with its own op. -/
lemma rolled_op_eq (hgc : ∀ sp, c ≠ .gc sp) (hops : OpsPreserved v₀ c) (hone : OnePrimary calls)
    (hlocks : LocksFrom calls v₀) (hmoves : Moves U T c v₀ v₀ v) {k : Bytes} {l lr : Lock}
    {ct : UInt64} (hr : c.Resolves v₀ k l lr) (hl : v.lock k = some l)
    (hcom : v.Committed l.primaryKey l.startTs ct) (hseen : Seen v l.primaryKey ct) :
    lr.op = l.op := by
  by_contra hne
  have hq := hr.queries hl
  have hl₀ := hmoves.lock_of_queries hl hq
  have hcom₀ : v₀.Committed l.primaryKey l.startTs ct :=
    hmoves.primary_committed_before hq.not_commit.1 (by simp [hr.read_of_op_ne hne])
      (fun k' l' hl' hs => hlocks.primary_eq hone hl' hl₀ hs) hcom
  exact hops k l lr hr hl₀ hne ct hcom₀ (hseen.anti fun _ _ hw => hmoves.write_isSome hgc hw)

lemma RecordsFrom.move (h : RecordsFrom calls v) (hlocks : LocksFrom calls v)
    (hforward : ∀ k l lr ct, c.Resolves v₀ k l lr → v.lock k = some l →
      v.Committed l.primaryKey l.startTs ct → Seen v l.primaryKey ct → lr.op = l.op)
    (hmove : Move U T c v₀ v v') : RecordsFrom calls v' := by
  have hfrom : ∀ {k l s op}, v.lock k = some l → l.startTs = s → op = l.op →
      ∃ c ∈ calls, ∃ p m, c.Prewrites s p m ∧ m.key = k ∧ m.opType = op := by
    intro k l s op hl hs hop
    obtain ⟨c', hc', p, m, hpre, hk, hm, -⟩ := hlocks k l hl
    exact ⟨c', hc', p, m, hs ▸ hpre, hk, hm.trans hop.symm⟩
  intro k ct s op hop hw
  rcases hmove.write_origin hw with hw | hnew
  · exact h k ct s op hop hw
  · cases hnew with
    | commit _ _ hl hs hop' _ _ => exact hfrom hl hs hop'
    | forward hr _ hl hs hop' hp hseen _ =>
        exact hfrom hl hs (hop'.trans (hforward k _ _ ct hr hl (hs ▸ hp) hseen))
    | back _ _ hw' _ _ => cases hw'; exact absurd rfl hop
    | mark _ _ hw' _ => cases hw'; exact absurd rfl hop

/-- Without garbage collection a value once staged stays in some form. -/
lemma Move.data_isSome (h : Move U T c v₀ v v') (hgc : ∀ sp, c ≠ .gc sp) {k : Bytes} {s : UInt64}
    (hx : (v.data k s).isSome) : (v'.data k s).isSome := by
  cases h with
  | @stage s' ttl ms p m _ _ _ _ =>
      cases m with
      | put key value =>
          simp only [View.stage, View.putLock_data, View.stageData]
          split_ifs
          · rfl
          · exact hx
      | delete key => exact hx
  | collect hc _ _ _ _ => exact absurd hc (hgc _)
  | _ => exact hx

lemma Staged.move (hgc : ∀ sp, c ≠ .gc sp) (h : Staged v)
    (hforward : ∀ k l lr ct, c.Resolves v₀ k l lr → v.lock k = some l →
      v.Committed l.primaryKey l.startTs ct → Seen v l.primaryKey ct → lr.op = l.op)
    (hmove : Move U T c v₀ v v') : Staged v' where
  lock := by
    intro k l hl hop
    rcases hmove.lock_origin hl with ⟨l', hl', heq, -⟩ | hplaced
    · rw [heq] at hop ⊢
      exact hmove.data_isSome hgc (h.lock k l' hl' hop)
    · exact hplaced.data hop
  write := by
    intro k ct s hw
    have hlock : ∀ {l : Lock}, v.lock k = some l → l.startTs = s → l.op = .put →
        (v'.data k s).isSome := by
      rintro l hl rfl hop
      exact hmove.data_isSome hgc (h.lock k l hl hop)
    rcases hmove.write_origin hw with hw | hnew
    · exact hmove.data_isSome hgc (h.write k ct s hw)
    · cases hnew with
      | commit _ _ hl hs hop _ _ => exact hlock hl hs hop.symm
      | forward hr _ hl hs hop hp hseen _ =>
          have hop' := hforward k _ _ ct hr hl (hs ▸ hp) hseen
          exact hlock hl hs (hop'.symm.trans hop.symm)
      | back _ _ hw' _ _ => cases hw'
      | mark _ _ hw' _ => cases hw'

end

/-! ## Over whole runs -/

theorem staged_steps {es : List Event}
    (h : Guarded Config.step (fun cfg e => (∀ sp, e.call ≠ .gc sp) ∧
      Consistent (cfg.calls ++ [e.call]) ∧ OpsPreserved (view cfg.store) e.call) Config.init es) :
    WF Set.univ (Config.init.steps es).store ∧ Consistent (Config.init.steps es).calls ∧
      LocksFrom (Config.init.steps es).calls (view (Config.init.steps es).store) ∧
      RecordsFrom (Config.init.steps es).calls (view (Config.init.steps es).store) ∧
      Staged (view (Config.init.steps es).store) := by
  refine @run_invariant Set.univ _ (fun calls v => Consistent calls ∧ LocksFrom calls v ∧
      RecordsFrom calls v ∧ Staged v)
    (fun _ _ _ _ _ => trivial) ?_ ?_ _ _ h ⟨wf_empty _, ?_, locksFrom_init _, ?_, ?_, ?_⟩
  · intro cfg e hok hinv
    obtain ⟨-, hlocks, hrecords, hstaged⟩ := hinv
    refine ⟨hok.2.1, hlocks.append e.call, ?_, hstaged⟩
    intro k ct s op hop hw
    obtain ⟨c, hc, hfrom⟩ := hrecords k ct s op hop hw
    exact ⟨c, List.mem_append_left _ hc, hfrom⟩
  · intro cfg e v v' hok _ h₀ hprev hinv hmove
    obtain ⟨hgc, hcons, hops⟩ := hok
    obtain ⟨-, hlocks, hrecords, hstaged⟩ := hinv
    have hmem : e.call ∈ cfg.calls ++ [e.call] := List.mem_append_right _ List.mem_cons_self
    have hforward : ∀ k l lr ct, e.call.Resolves (view cfg.store) k l lr → v.lock k = some l →
        v.Committed l.primaryKey l.startTs ct → Seen v l.primaryKey ct → lr.op = l.op :=
      fun k l lr ct hr hl hcom hseen =>
        rolled_op_eq hgc hops hcons.primary (h₀.2.1.append e.call) hprev hr hl hcom hseen
    exact ⟨hcons, hlocks.move hmem hmove, hrecords.move hlocks hforward hmove,
      hstaged.move hgc hforward hmove⟩
  · exact ⟨fun c hc => absurd hc List.not_mem_nil, fun c hc => absurd hc List.not_mem_nil⟩
  · intro k ct s op _ hw
    simp [Config.init] at hw
  · intro k l hl
    simp [Config.init] at hl
  · intro k ct s hw
    simp [Config.init] at hw

/-- A read of a store whose Put records have their values reports no corruption. -/
lemma read_not_corrupted {U : Set Bytes} {st : Store} {e : Event} (h : WF U st)
    (hU : ∀ k ∈ e.call.keys, k ∈ U) (hstaged : Staged (view (e.exec st).2))
    (hread : (∃ k r, e.call = .get k r) ∨ ∃ a b n r, e.call = .scan a b n r) :
    (e.exec st).1 ≠ some (.error (.mvcc .corruptedState)) := by
  have hread : ∀ k r, ¬ GetOutcome U (view (e.exec st).2) k r
      (.error (.mvcc .corruptedState)) := by
    rintro k r ⟨c, s, -, hw, hnone⟩
    have hsome := hstaged.write k c s hw
    rw [hnone] at hsome
    cases hsome
  intro hreply
  have hout := (exec_along h e hU).2 _ hreply
  rcases ‹_ ∨ _› with ⟨k, r, hcall⟩ | ⟨a, b, n, r, hcall⟩
  · rw [hcall] at hout
    obtain ⟨res, hres, hget⟩ := hout
    cases res with
    | ok x => cases hres
    | error err => cases hres; exact hread k r hget
  · rw [hcall] at hout
    obtain ⟨res, hres, hscan⟩ := hout
    cases res with
    | ok x => cases hres
    | error err =>
        cases hres
        obtain ⟨k, hget⟩ := hscan
        exact hread k r hget

/-- Where no read meets a Delete lock of a committed transaction: a Put or Delete record has the
op that its transaction prewrote on the key, a Put record has its value, and no `get` or `scan`
returns `CorruptedState`. -/
theorem reads_never_corrupted (es : List Event) (e : Event)
    (hrun : Guarded Config.step (fun cfg e => (∀ sp, e.call ≠ .gc sp) ∧
      Consistent (cfg.calls ++ [e.call]) ∧ OpsPreserved (view cfg.store) e.call)
      Config.init (es ++ [e])) :
    (∀ k ct s op, op ≠ .rollback →
      (view (Config.init.steps (es ++ [e])).store).write k ct = some ⟨s, op⟩ →
      (∃ c ∈ (es ++ [e]).map Event.call, c.Mutates s k) ∧
      ∀ c ∈ (es ++ [e]).map Event.call, ∀ p m, c.Prewrites s p m → m.key = k → m.opType = op) ∧
    (∀ k ct s, (view (Config.init.steps (es ++ [e])).store).write k ct = some ⟨s, .put⟩ →
      ((view (Config.init.steps (es ++ [e])).store).data k s).isSome) ∧
    (((∃ k r, e.call = .get k r) ∨ ∃ a b n r, e.call = .scan a b n r) →
      (e.exec (Config.init.steps es).store).1 ≠ some (.error (.mvcc .corruptedState))) := by
  obtain ⟨-, hcons, -, hrecords, hstaged⟩ := staged_steps hrun
  obtain ⟨hwf, -⟩ := staged_steps (Config.guarded_steps.mp hrun).1
  rw [Config.calls_steps, Config.calls_init, List.nil_append] at hcons hrecords
  refine ⟨?_, hstaged.write, read_not_corrupted hwf (fun _ _ => trivial) ?_⟩
  · intro k ct s op hop hw
    obtain ⟨c, hc, p, m, hpre, hk, hm⟩ := hrecords k ct s op hop hw
    refine ⟨⟨c, hc, p, m, hpre, hk⟩, ?_⟩
    intro c' hc' p' m' hpre' hk'
    rw [← hm]
    exact hcons.op c' hc' c hc s p' p m' m hpre' hpre (hk'.trans hk.symm)
  · rw [Config.steps_append] at hstaged
    exact hstaged

/-- A put and a delete, committed to the end before the deleted key is read. -/
theorem reads_never_corrupted_delete :
    (Event.exec { call := .get [2] 70000 } (Config.init.steps
        [{ call := .prewrite 65536 [.put [1] [10], .delete [2]] [1] 3000 },
          { call := .commit 65536 65537 [[1], [2]] }]).store).1
      ≠ some (.error (.mvcc .corruptedState)) := by
  have hcons : ∀ calls : List Call,
      (∀ c ∈ calls, c.prewriteArgs.isSome →
        c = .prewrite 65536 [.put [1] [10], .delete [2]] [1] 3000) → Consistent calls := by
    intro calls honly
    refine consistent_single _ honly ?_
    intro s ms p ttl hargs
    cases hargs
    decide
  refine (reads_never_corrupted
    [{ call := .prewrite 65536 [.put [1] [10], .delete [2]] [1] 3000 },
      { call := .commit 65536 65537 [[1], [2]] }] { call := .get [2] 70000 }
    ⟨⟨by simp, hcons _ (by decide), ?_⟩, ⟨by simp, hcons _ (by decide), ?_⟩,
      ⟨by simp, hcons _ (by decide), ?_⟩, trivial⟩).2.2 (Or.inl ⟨[2], 70000, rfl⟩)
  · intro k l lr _ hl
    simp [Config.init] at hl
  · intro k l lr hr
    exact hr.elim
  · intro k l lr hr hl
    obtain ⟨rfl, -⟩ := hr
    cases hl

/-- The commit stops behind its primary, the other key was deleted: a read of it rolls it forward
as a put, and comes to a Put record without a value. -/
theorem read_of_deleted_key_corrupted :
    (Event.exec { call := .get [2] 70000 } (Config.init.steps
        [{ call := .prewrite 65536 [.put [1] [10], .delete [2]] [1] 3000 },
          { call := .commit 65536 65537 [[1], [2]], stop := some 1 }]).store).1
        = some (.error (.mvcc .corruptedState)) ∧
      (view (Config.init.steps
        [{ call := .prewrite 65536 [.put [1] [10], .delete [2]] [1] 3000 },
          { call := .commit 65536 65537 [[1], [2]], stop := some 1 },
          { call := .get [2] 70000 }]).store).write [2] 65537 = some ⟨65536, .put⟩ ∧
      (view (Config.init.steps
        [{ call := .prewrite 65536 [.put [1] [10], .delete [2]] [1] 3000 },
          { call := .commit 65536 65537 [[1], [2]], stop := some 1 },
          { call := .get [2] 70000 }]).store).data [2] 65536 = none := by
  exact ⟨by rfl, by rfl, by rfl⟩

end AcidKv
