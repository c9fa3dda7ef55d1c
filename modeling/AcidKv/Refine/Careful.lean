import AcidKv.Node.Rules
import AcidKv.Properties.Clients

/-!
# When a handler touches a lock

A handler reads a lock entry in one step and acts on what it read in a later one; `batch.remove` and
`batch.insert` do not look again.  `Careful` is what the code does ensure, whatever the reads
return: a batch that touches the lock entry of a key acts for a transaction whose lock the handler
has read there, or for the handler's own prewrite that has read the entry as empty, or goes over an
entry that the handler has emptied itself.

The lemmas follow the call structure of the code.  A prewrite in a single batch has to remember for
each of its keys that it has seen it clear, through all that it does to the others (`Cleared`).
-/

namespace AcidKv

open Coordinator LockResolver KeyEncoder StorageEngine

/-- All that a handler knows of the lock entry of `k`. -/
abbrev known (h : Trace) (k : Bytes) : List (Option Bytes) := (views h .lock k).all

/-- The handler has emptied the entry itself, and not looked at it since. -/
def Emptied (h : Trace) (k : Bytes) : Prop := views h .lock k = ⟨some none, []⟩

/-- What entitles a handler to touch the lock entry of `k` for transaction `u`. -/
inductive Entitled (c : Call) (h : Trace) (k : Bytes) (u : UInt64) : Prop where
  | shown {x : Option Bytes} (hx : x ∈ known h k) (hs : Shows u x)
  | free (hm : c.Mutates u k) (hx : none ∈ known h k)
  | emptied (he : Emptied h k)

/-- A batch that touches lock entries only where the handler is entitled to. -/
def Careful (c : Call) (h : Trace) (b : Batch) : Prop :=
  ∀ k, (batchLeaves b .lock k).isSome → ∃ u, ActsFor b u ∧ Entitled c h k u

/-! ## What a handler remembers -/

/-- Everything known at `h` is known at `h'`. -/
def Sub (h h' : Trace) : Prop := ∀ k, ∀ x ∈ known h k, x ∈ known h' k

/-- Everything known at `h` is known at `h'`, except for entries that have just been emptied. -/
def Retains (h h' : Trace) : Prop := ∀ k, (∀ x ∈ known h k, x ∈ known h' k) ∨ Emptied h' k

/-- The entry of `k` has been seen empty, or with a lock of `s`. -/
def Cleared (s : UInt64) (h : Trace) (k : Bytes) : Prop := ∃ x ∈ known h k, x = none ∨ Shows s x

lemma Emptied.mem {h : Trace} {k : Bytes} (he : Emptied h k) : none ∈ known h k := by
  have hviews : views h .lock k = ⟨some none, []⟩ := he
  simp [hviews, Views.all]

lemma Sub.refl (h : Trace) : Sub h h := fun _ _ hx => hx

section

variable {h h' : Trace}

lemma Sub.got (hsub : Sub h h') (p : Part) (k : Bytes) (r : Option Bytes) :
    Sub h (h' ++ [.got p k r]) := fun k' x hx => mem_all_of_got (hsub k' x hx)

lemma Sub.walked (hsub : Sub h h') (p : Part) (lo : Bytes) (items : List (Bytes × Bytes)) :
    Sub h (h' ++ [.walked p lo items]) := by
  intro k x hx
  rw [known, views_walked]
  exact hsub k x hx

lemma Sub.read (hsub : Sub h h') (t : UInt64) : Sub h (h' ++ [Obs.read t]) := by
  intro k x hx
  rw [known, views_read]
  exact hsub k x hx

lemma Sub.retains (hsub : Sub h h') : Retains h h' := fun k => Or.inl (hsub k)

lemma Retains.read (hr : Retains h h') (t : UInt64) : Retains h (h' ++ [Obs.read t]) := by
  intro k
  simp only [known, Emptied, views_read]
  exact hr k

/-- A settled key is known to be empty, and nothing else changes. -/
lemma known_settle (h : Trace) (k : Bytes) (ts : UInt64) (w : WriteRecord) (k' : Bytes) :
    Emptied (h ++ [Obs.wrote (settleBatch k ts w)]) k ∧
      (k' ≠ k → known (h ++ [Obs.wrote (settleBatch k ts w)]) k' = known h k') := by
  refine ⟨views_wrote_some h (by rw [batchLeaves_settle, if_pos rfl]), fun hne => ?_⟩
  rw [known, views_wrote_none h (by rw [batchLeaves_settle, if_neg hne])]

lemma Sub.settle (hsub : Sub h h') (k : Bytes) (ts : UInt64) (w : WriteRecord) :
    Retains h (h' ++ [Obs.wrote (settleBatch k ts w)]) := by
  intro k'
  obtain ⟨hself, hother⟩ := known_settle h' k ts w k'
  by_cases hk : k' = k
  · rw [hk]
    exact Or.inr hself
  · rw [hother hk]
    exact Or.inl (hsub k')

/-- What has been seen clear stays so, for all that the handler does after it. -/
lemma Cleared.retains {s : UInt64} {k : Bytes} (hc : Cleared s h k) (hr : Retains h h') :
    Cleared s h' k := by
  obtain ⟨x, hx, hor⟩ := hc
  rcases hr k with hsub | he
  · exact ⟨x, hsub x hx, hor⟩
  · exact ⟨none, he.mem, Or.inl rfl⟩

lemma Cleared.settle {s : UInt64} {k : Bytes} (hc : Cleared s h k) (k' : Bytes) (ts : UInt64)
    (w : WriteRecord) : Cleared s (h ++ [Obs.wrote (settleBatch k' ts w)]) k :=
  hc.retains ((Sub.refl h).settle k' ts w)

end

/-! ## The batches -/

section

variable {c : Call} {h : Trace} {k : Bytes} {u : UInt64}

lemma actsFor_settle (k : Bytes) (ts u : UInt64) (op : OpType) :
    ActsFor (settleBatch k ts ⟨u, op⟩) u := by
  refine actsFor_of_forall ?_ ⟨_, List.mem_cons_self, itemTxn_record _ _⟩
  intro i hi u' hu'
  simp only [settleBatch, List.mem_cons, List.not_mem_nil, or_false] at hi
  rcases hi with rfl | rfl
  · rw [itemTxn_record, Option.some.injEq] at hu'
    exact hu'.symm
  · simp at hu'

lemma careful_settle (hent : Entitled c h k u) (ts : UInt64) (op : OpType) :
    Careful c h (settleBatch k ts ⟨u, op⟩) := by
  intro k' hk'
  rw [batchLeaves_settle] at hk'
  split_ifs at hk' with heq
  · rw [heq]
    exact ⟨u, actsFor_settle k ts u op, hent⟩
  · cases hk'

/-- A lock that has been read may be settled at once. -/
lemma careful_settle_read {entry : Option Bytes} {l : Lock} (hl : entryLock entry = some l)
    (hu : l.startTs = u) (ts : UInt64) (op : OpType) :
    Careful c (h ++ [Obs.got Part.lock k entry]) (settleBatch k ts ⟨u, op⟩) :=
  careful_settle (.shown mem_all_got (hu ▸ shows_of_lock hl)) ts op

/-- Batches that leave the lock partition alone. -/
lemma careful_of_untouched {b : Batch} (hb : ∀ i ∈ b, i.entry.1 ≠ .lock) : Careful c h b := by
  intro k hk
  rw [batchLeaves_eq_none fun i hi heq => hb i hi (by rw [heq])] at hk
  cases hk

/-! ## Lock resolution -/

lemma checkPrimaryLock_careful {h₀ : Trace} (hsub : Sub h₀ h) (p : Bytes) (u : UInt64) :
    (checkPrimaryLock p u).Always (Careful c) (fun _ h' => Retains h₀ h') h := by
  refine checkPrimaryLock_always ?_ ?_ ?_
  · intro entry _
    exact (hsub.got .lock p entry).retains
  · intro entry l t hl hu _
    have hx : entry ∈ known (h ++ [Obs.got Part.lock p entry] ++ [Obs.read t]) p := by
      rw [known, views_read]
      exact mem_all_got
    refine ⟨careful_settle (.shown hx (hu ▸ shows_of_lock hl)) _ _, ?_⟩
    exact ((hsub.got .lock p entry).read t).settle _ _ _
  · intro entry l t _ _ _
    exact ((hsub.got .lock p entry).read t).retains

lemma checkTxnStatus_careful (p : Bytes) (u : UInt64) :
    (LockResolver.checkTxnStatus p u).Always (Careful c) (fun _ h' => Retains h h') h := by
  have hwalk : ∀ items, Sub h (h ++ [Obs.walked Part.write (encode p u64Max) items]) :=
    fun items => (Sub.refl h).walked _ _ items
  refine checkTxnStatus_always ?_ ?_ ?_
  · exact fun items _ _ => (hwalk items).retains
  · exact fun items _ _ => (hwalk items).retains
  · exact fun items _ => checkPrimaryLock_careful (hwalk items) p u

/-- What entitles a handler to touch an entry does so until it has emptied it. -/
lemma Entitled.retains {h' : Trace} {x : Option Bytes} (hx : x ∈ known h k) (hs : Shows u x)
    (hr : Retains h h') : Entitled c h' k u := by
  rcases hr k with hsub | he
  · exact .shown (hsub x hx) hs
  · exact .emptied he

/-- Whoever resolves a lock that it has read leaves what it has seen clear. -/
lemma resolveLock_careful {lock : Lock} {x : Option Bytes} (hx : x ∈ known h k)
    (hs : Shows lock.startTs x) :
    (resolveLock k lock).Always (Careful c)
      (fun out h' => (∀ s k', Cleared s h k' → Cleared s h' k') ∧
        (out = .ok () → none ∈ known h' k)) h := by
  have hsettle : ∀ ts op h', Retains h h' →
      Careful c h' (settleBatch k ts ⟨lock.startTs, op⟩) ∧
        (∀ s k', Cleared s h k' →
          Cleared s (h' ++ [Obs.wrote (settleBatch k ts ⟨lock.startTs, op⟩)]) k') ∧
        none ∈ known (h' ++ [Obs.wrote (settleBatch k ts ⟨lock.startTs, op⟩)]) k := by
    intro ts op h' hr
    refine ⟨careful_settle (.retains hx hs hr) ts op, ?_, ?_⟩
    · exact fun s k' hc => (hc.retains hr).settle _ _ _
    · exact (known_settle h' k ts ⟨lock.startTs, op⟩ k).1.mem
  refine resolveLock_always (checkTxnStatus_careful lock.primaryKey lock.startTs) ?_ ?_ ?_ ?_
  · exact fun _ h' t hr => hr.read t
  · exact fun _ e h' hr => ⟨fun s k' hc => hc.retains hr, fun hok => by cases hok⟩
  · intro ct h' hr
    obtain ⟨hcareful, hstill, hfree⟩ := hsettle ct lock.op h' hr
    exact ⟨hcareful, hstill, fun _ => hfree⟩
  · intro _ h' hr _
    obtain ⟨hcareful, hstill, hfree⟩ := hsettle lock.startTs .rollback h' hr
    exact ⟨hcareful, hstill, fun _ => hfree⟩

/-! ## Reads -/

lemma get_careful (k : Bytes) (r : UInt64) (h : Trace) :
    (Coordinator.get k r).Always (Careful c) (fun _ _ => True) h := by
  refine get_always fun entry l hl => ?_
  have hshows : Shows l.startTs entry := shows_of_lock hl
  have hs : Shows (reportedLock l.primaryKey l.startTs).startTs entry := hshows
  exact (resolveLock_careful mem_all_got hs).mono fun _ _ _ => trivial

lemma scanLoop_careful (a b : Bytes) (n : UInt32) (r : UInt64) (last : Option Bytes)
    (results items : List (Bytes × Bytes)) (h : Trace) :
    (scanLoop a b n r last results items).Always (Careful c) (fun _ _ => True) h := by
  induction items generalizing last results h with
  | nil => trivial
  | cons x items ih =>
      obtain ⟨e, bytes⟩ := x
      simp only [scanLoop]
      cases decode e with
      | error err => trivial
      | ok kt =>
          simp only
          split_ifs
          · exact ih last results h
          · trivial
          · exact ih last results h
          · rw [Prog.always_bind]
            refine (get_careful kt.1 r h).mono ?_
            intro out h' _
            cases out with
            | error e => trivial
            | ok value =>
                cases value with
                | none => exact ih _ _ h'
                | some value =>
                    simp only [Prog.onward_ok]
                    split_ifs
                    · trivial
                    · exact ih _ _ h'

/-! ## Prewrites -/

lemma checkConflict_careful (k : Bytes) (s : UInt64) (h : Trace) :
    (checkConflict k s).Always (Careful c) (fun _ h' => Sub h h') h := by
  simp only [checkConflict, Prog.always_bind, Prog.always_walk, Prog.onward_ok,
    Prog.always_ofExcept]
  exact fun items => (Sub.refl h).walked _ _ items

/-- What step 2 of a prewrite leaves behind: its key is clear, and what was clear still is. -/
def ClearedBy (s : UInt64) (k : Bytes) (h : Trace) (out : Except TxnError Unit)
    (h' : Trace) : Prop :=
  (∀ k', Cleared s h k' → Cleared s h' k') ∧ (out = .ok () → Cleared s h' k)

lemma clearLockThen_careful (k : Bytes) (s : UInt64) (h : Trace)
    {afterwards : Handler TxnError Unit}
    (hafter : ∀ h', none ∈ known h' k → (∀ k', Cleared s h k' → Cleared s h' k') →
      afterwards.Always (Careful c) (ClearedBy s k h) h') :
    (clearLockThen k s afterwards).Always (Careful c) (ClearedBy s k h) h := by
  simp only [clearLockThen, Prog.always_bind, Prog.always_lookup, Prog.onward_ok]
  intro entry
  have hkeep : ∀ k', Cleared s h k' → Cleared s (h ++ [.got .lock k entry]) k' := fun k' hc =>
    hc.retains ((Sub.refl h).got .lock k entry).retains
  cases entry with
  | none => exact ⟨hkeep, fun _ => ⟨none, mem_all_got, Or.inl rfl⟩⟩
  | some b =>
      cases hl : Lock.fromBytes b with
      | error e =>
          simp only [hl, Prog.always_throw]
          exact ⟨hkeep, fun hok => by cases hok⟩
      | ok lock =>
          simp only [hl]
          split_ifs with hs
          · have hshows : Shows s (some b) := ⟨b, lock, rfl, hl, hs⟩
            exact ⟨hkeep, fun _ => ⟨some b, mem_all_got, Or.inr hshows⟩⟩
          · simp only [Prog.always_bind, Prog.always_attempt]
            refine (resolveLock_careful mem_all_got (shows_of_lock (entryLock_read hl))).mono ?_
            rintro out h' ⟨hstill, hfree⟩
            have hkeep' : ∀ k', Cleared s h k' → Cleared s h' k' :=
              fun k' hc => hstill s k' (hkeep k' hc)
            cases out with
            | error e => exact ⟨hkeep', fun hok => by cases hok⟩
            | ok u => exact hafter h' (hfree rfl) hkeep'

lemma recheckLock_careful (k : Bytes) (s : UInt64) {h h' : Trace}
    (hkeep : ∀ k', Cleared s h k' → Cleared s h' k') :
    (recheckLock k s).Always (Careful c) (ClearedBy s k h) h' := by
  simp only [recheckLock, Prog.always_bind, Prog.always_lookup, Prog.onward_ok]
  intro entry
  have hkeep' : ∀ k', Cleared s h k' → Cleared s (h' ++ [.got .lock k entry]) k' := fun k' hc =>
    (hkeep k' hc).retains ((Sub.refl h').got .lock k entry).retains
  cases entry with
  | none => exact ⟨hkeep', fun _ => ⟨none, mem_all_got, Or.inl rfl⟩⟩
  | some b =>
      cases hl : Lock.fromBytes b with
      | error e =>
          simp only [hl, Prog.always_throw]
          exact ⟨hkeep', fun hok => by cases hok⟩
      | ok l =>
          simp only [hl]
          split_ifs with hs
          · have hshows : Shows s (some b) := ⟨b, l, rfl, hl, hs⟩
            exact ⟨hkeep', fun _ => ⟨some b, mem_all_got, Or.inr hshows⟩⟩
          · exact ⟨hkeep', fun hok => by cases hok⟩

lemma clearLock_careful (k : Bytes) (s : UInt64) (h : Trace) :
    (clearLock k s).Always (Careful c) (ClearedBy s k h) h :=
  clearLockThen_careful k s h fun _ _ hkeep => recheckLock_careful k s hkeep

lemma clearLockOnce_careful (k : Bytes) (s : UInt64) (h : Trace) :
    (clearLockOnce k s).Always (Careful c) (ClearedBy s k h) h :=
  clearLockThen_careful k s h fun _ hnone hkeep => ⟨hkeep, fun _ => ⟨none, hnone, Or.inl rfl⟩⟩

/-- A batch of staged mutations of `s`. -/
structure Stages (s : UInt64) (keys : List Bytes) (b : Batch) : Prop where
  txn : ∀ i ∈ b, ∀ u, itemTxn i = some u → u = s
  locks : ∀ i ∈ b, i.entry.1 = .lock → itemTxn i = some s ∧ i.entry.2 ∈ keys

lemma stages_stageBatch (s : UInt64) (p : Bytes) (ttl : UInt64) (m : Mutation) :
    Stages s [m.key] (stageBatch s p ttl m) := by
  have hlock : itemTxn (.insert .lock m.key (Lock.mk p s ttl m.opType).toBytes) = some s :=
    itemTxn_lock m.key (l := Lock.mk p s ttl m.opType) m.opType_ne_rollback
  cases m with
  | put key value =>
      refine ⟨?_, ?_⟩
      · intro i hi u hu
        simp only [stageBatch, List.mem_cons, List.not_mem_nil, or_false] at hi
        rcases hi with rfl | rfl
        · simp at hu
        · exact Option.some.inj (hu.symm.trans hlock)
      · intro i hi hentry
        simp only [stageBatch, List.mem_cons, List.not_mem_nil, or_false] at hi
        rcases hi with rfl | rfl
        · cases hentry
        · exact ⟨hlock, List.mem_singleton.mpr rfl⟩
  | delete key =>
      refine ⟨?_, ?_⟩
      · intro i hi u hu
        obtain rfl := List.mem_singleton.mp hi
        exact Option.some.inj (hu.symm.trans hlock)
      · intro i hi _
        obtain rfl := List.mem_singleton.mp hi
        exact ⟨hlock, List.mem_singleton.mpr rfl⟩

lemma Stages.append {s : UInt64} {keys keys' : List Bytes} {b b' : Batch} (hb : Stages s keys b)
    (hb' : Stages s keys' b') : Stages s (keys ++ keys') (b ++ b') where
  txn i hi := by
    rcases List.mem_append.mp hi with hi | hi
    · exact hb.txn i hi
    · exact hb'.txn i hi
  locks i hi hentry := by
    rcases List.mem_append.mp hi with hi | hi
    · obtain ⟨htxn, hk⟩ := hb.locks i hi hentry
      exact ⟨htxn, List.mem_append_left _ hk⟩
    · obtain ⟨htxn, hk⟩ := hb'.locks i hi hentry
      exact ⟨htxn, List.mem_append_right _ hk⟩

lemma Stages.careful {s : UInt64} {keys : List Bytes} {b : Batch} (hb : Stages s keys b)
    (hmut : ∀ k ∈ keys, c.Mutates s k) (hclear : ∀ k ∈ keys, Cleared s h k) : Careful c h b := by
  intro k hk
  obtain ⟨x, hx⟩ := Option.isSome_iff_exists.mp hk
  obtain ⟨i, hi, hentry, -⟩ := batchLeaves_origin hx
  obtain ⟨htxn, hkey⟩ := hb.locks i hi (by rw [hentry])
  rw [hentry] at hkey
  obtain ⟨x, hx, rfl | hs⟩ := hclear k hkey
  · exact ⟨s, actsFor_of_forall hb.txn ⟨i, hi, htxn⟩, .free (hmut k hkey) hx⟩
  · exact ⟨s, actsFor_of_forall hb.txn ⟨i, hi, htxn⟩, .shown hx hs⟩

lemma prewrite_careful {s ttl : UInt64} {p : Bytes} (ms : List Mutation)
    (hmut : ∀ m ∈ ms, c.Mutates s m.key) (h : Trace) :
    (prewrite s ms p ttl).Always (Careful c) (fun _ _ => True) h := by
  induction ms generalizing h with
  | nil => trivial
  | cons m ms ih =>
      rw [List.forall_mem_cons] at hmut
      simp only [prewrite, Prog.always_bind]
      refine (checkConflict_careful m.key s h).mono ?_
      intro out h₁ _
      cases out with
      | error e => trivial
      | ok u =>
          rw [Prog.onward_ok, Prog.always_bind]
          refine (clearLock_careful m.key s h₁).mono ?_
          rintro out h₂ ⟨-, hclear⟩
          cases out with
          | error e => trivial
          | ok u =>
              rw [Prog.onward_ok, Prog.always_bind]
              refine ⟨(stages_stageBatch s p ttl m).careful ?_ ?_, ih hmut.2 _⟩
              · simpa using hmut.1
              · simpa using hclear rfl

lemma stageLoop_careful {s ttl : UInt64} {p : Bytes} {keys : List Bytes} {b : Batch}
    (ms : List Mutation) (hb : Stages s keys b) (hclear : ∀ k ∈ keys, Cleared s h k) :
    (stageLoop s p ttl b ms).Always (Careful c)
      (fun out h' => ∀ b', out = .ok b' → Stages s (keys ++ ms.map Mutation.key) b' ∧
        ∀ k ∈ keys ++ ms.map Mutation.key, Cleared s h' k) h := by
  induction ms generalizing h keys b with
  | nil =>
      rintro b' ⟨⟩
      simpa using ⟨hb, hclear⟩
  | cons m ms ih =>
      simp only [stageLoop, Prog.always_bind]
      refine (checkConflict_careful m.key s h).mono ?_
      intro out h₁ hsub
      cases out with
      | error e => rintro b' ⟨⟩
      | ok u =>
          rw [Prog.onward_ok, Prog.always_bind]
          refine (clearLockOnce_careful m.key s h₁).mono ?_
          rintro out h₂ ⟨hkeep, hself⟩
          cases out with
          | error e => rintro b' ⟨⟩
          | ok u =>
              rw [Prog.onward_ok]
              have hclear₂ : ∀ k ∈ keys ++ [m.key], Cleared s h₂ k := by
                intro k hk
                rcases List.mem_append.mp hk with hk | hk
                · exact hkeep k ((hclear k hk).retains hsub.retains)
                · rw [List.mem_singleton.mp hk]
                  exact hself rfl
              refine (ih (hb.append (stages_stageBatch s p ttl m)) hclear₂).mono ?_
              intro out h₃ hout b' hb'
              simpa using hout b' hb'

lemma batchPrewrite_careful {s ttl : UInt64} {p : Bytes} (ms : List Mutation)
    (hmut : ∀ m ∈ ms, c.Mutates s m.key) (h : Trace) :
    (batchPrewrite s ms p ttl).Always (Careful c) (fun _ _ => True) h := by
  cases ms with
  | nil => trivial
  | cons m ms =>
      simp only [batchPrewrite, Prog.always_bind]
      have hempty : Stages s [] ([] : Batch) := ⟨by simp, by simp⟩
      refine (stageLoop_careful (m :: ms) hempty (by simp)).mono ?_
      intro out h' hout
      cases out with
      | error e => trivial
      | ok b =>
          obtain ⟨hb, hclear⟩ := hout b rfl
          refine ⟨hb.careful ?_ hclear, trivial⟩
          intro k hk
          rw [List.nil_append, List.mem_map] at hk
          obtain ⟨m', hm', rfl⟩ := hk
          exact hmut m' hm'

/-! ## Commits, rollbacks and heartbeats -/

lemma commitSecondaries_careful (s ct : UInt64) (ks : List Bytes) (h : Trace) :
    (commitSecondaries s ct ks).Always (Careful c) (fun _ _ => True) h :=
  commitSecondaries_always (I := fun _ => True) ks (fun _ _ _ _ => trivial)
    (fun _ _ l _ _ hl hs => ⟨careful_settle_read hl hs ct l.op, trivial⟩) trivial

lemma commit_careful (s ct : UInt64) (ks : List Bytes) (h : Trace) :
    (commit s ct ks).Always (Careful c) (fun _ _ => True) h := by
  cases ks with
  | nil => trivial
  | cons p rest =>
      refine commit_always (fun _ _ => trivial) fun entry l hl hs => ?_
      exact ⟨careful_settle_read hl hs ct l.op, commitSecondaries_careful s ct rest _⟩

/-- A batch of commits of `s` on keys whose lock was read. -/
structure Commits (s : UInt64) (h : Trace) (b : Batch) : Prop where
  txn : ∀ i ∈ b, ∀ u, itemTxn i = some u → u = s
  locks : ∀ i ∈ b, i.entry.1 = .lock → (∃ j ∈ b, itemTxn j = some s) ∧
    ∃ x ∈ known h i.entry.2, Shows s x

lemma Commits.careful {s : UInt64} {b : Batch} (hb : Commits s h b) : Careful c h b := by
  intro k hk
  obtain ⟨x, hx⟩ := Option.isSome_iff_exists.mp hk
  obtain ⟨i, hi, hentry, -⟩ := batchLeaves_origin hx
  obtain ⟨hsome, x, hx, hs⟩ := hb.locks i hi (by rw [hentry])
  rw [hentry] at hx
  exact ⟨s, actsFor_of_forall hb.txn hsome, .shown hx hs⟩

lemma Commits.got {s : UInt64} {b : Batch} (hb : Commits s h b) (k : Bytes) (r : Option Bytes) :
    Commits s (h ++ [Obs.got Part.lock k r]) b where
  txn := hb.txn
  locks i hi hentry := by
    obtain ⟨hsome, x, hx, hs⟩ := hb.locks i hi hentry
    exact ⟨hsome, x, mem_all_of_got hx, hs⟩

lemma Commits.settle {s : UInt64} {b : Batch} (hb : Commits s h b) {x : Option Bytes}
    (hx : x ∈ known h k) (hs : Shows s x) (ct : UInt64) (op : OpType) :
    Commits s h (b ++ settleBatch k ct ⟨s, op⟩) where
  txn i hi u hu := by
    rcases List.mem_append.mp hi with hi | hi
    · exact hb.txn i hi u hu
    · exact (actsFor_settle k ct s op u).mp ⟨i, hi, hu⟩
  locks i hi hentry := by
    refine ⟨⟨_, List.mem_append_right _ List.mem_cons_self, itemTxn_record _ _⟩, ?_⟩
    rcases List.mem_append.mp hi with hi | hi
    · exact (hb.locks i hi hentry).2
    · simp only [settleBatch, List.mem_cons, List.not_mem_nil, or_false] at hi
      rcases hi with rfl | rfl
      · cases hentry
      · exact ⟨x, hx, hs⟩

lemma batchCommit_careful (s ct : UInt64) (ks : List Bytes) (h : Trace) :
    (batchCommit s ct ks).Always (Careful c) (fun _ _ => True) h := by
  refine batchCommit_always (I := fun b h => Commits s h b) ks ?_ ?_ ?_ ⟨by simp, by simp⟩
  · exact fun k entry b h hb => hb.got k entry
  · intro k entry l b h hb hl hs
    exact (hb.got k entry).settle mem_all_got (hs ▸ shows_of_lock hl) ct l.op
  · exact fun b h hb => hb.careful

lemma rollback_careful (s : UInt64) (ks : List Bytes) (h : Trace) :
    (rollback s ks).Always (Careful c) (fun _ _ => True) h := by
  induction ks generalizing h with
  | nil => trivial
  | cons k ks ih =>
      have hmark : ∀ h', Careful c h'
          [.insert .write (encode k s) (WriteRecord.mk s .rollback).toBytes] := fun h' =>
        careful_of_untouched (by simp [BatchItem.entry])
      simp only [rollback, Prog.always_bind, Prog.always_lookup, Prog.onward_ok]
      intro entry
      cases entry with
      | none =>
          rw [Prog.always_bind]
          exact ⟨hmark _, ih _⟩
      | some b =>
          cases hl : Lock.fromBytes b with
          | error e =>
              simp only [hl]
              rw [Prog.always_bind]
              exact ⟨hmark _, ih _⟩
          | ok l =>
              simp only [hl]
              split_ifs with hs
              · rw [Prog.always_bind]
                refine ⟨?_, ih _⟩
                intro k' hk'
                have hkey : k' = k := by
                  by_contra hne
                  simp [batchLeaves_cons, BatchItem.entry, Ne.symm hne] at hk'
                rw [hkey]
                refine ⟨s, actsFor_of_forall ?_ ⟨_, List.mem_cons_of_mem _ List.mem_cons_self,
                  itemTxn_record _ _⟩, .shown mem_all_got (hs ▸ shows_of_lock (entryLock_read hl))⟩
                intro i hi u hu
                simp only [List.mem_cons, List.not_mem_nil, or_false] at hi
                rcases hi with rfl | rfl
                · simp at hu
                · rw [itemTxn_record, Option.some.injEq] at hu
                  exact hu.symm
              · rw [Prog.always_bind]
                exact ⟨hmark _, ih _⟩

lemma heartbeat_careful (p : Bytes) (s ttl : UInt64) (h : Trace) :
    (heartbeat p s ttl).Always (Careful c) (fun _ _ => True) h := by
  refine heartbeat_always fun entry l hl _ => ?_
  obtain ⟨b, -, hb⟩ := entryLock_some hl
  have htxn := itemTxn_lock p (l := { l with ttl := ttl }) (Lock.of_fromBytes hb).1
  intro k' hk'
  have hkey : k' = p := by
    by_contra hne
    simp [batchLeaves_cons, BatchItem.entry, Ne.symm hne] at hk'
  rw [hkey]
  refine ⟨l.startTs, actsFor_of_forall ?_ ⟨_, List.mem_cons_self, htxn⟩,
    .shown mem_all_got (shows_of_lock hl)⟩
  intro i hi u hu
  obtain rfl := List.mem_singleton.mp hi
  exact Option.some.inj (hu.symm.trans htxn)

/-- Garbage collection touches no lock, whatever it finds. -/
lemma gcLoop_untouched (sp : UInt64) (last : Option Bytes) (seen : Bool)
    (items : List (Bytes × Bytes)) : ∀ i ∈ (gcLoop sp last seen items).1, i.entry.1 ≠ .lock := by
  intro i hi
  obtain ⟨x, -, rfl | ⟨k, ts, w, -, -, rfl⟩⟩ := mem_gcLoop hi <;> simp [BatchItem.entry]

end

/-- Every handler is careful. -/
theorem handler_careful (c : Call) :
    c.handler.Always (Careful c) (fun _ _ => True) [] := by
  have hreply : ∀ {α : Type} {x : Handler TxnError α} {f : α → Reply},
      x.Always (Careful c) (fun _ _ => True) [] →
      (do return f (← x) : Handler TxnError Reply).Always (Careful c) (fun _ _ => True) [] :=
    fun hx => (Prog.always_bind_pure _ _ _).mpr hx
  cases c with
  | prewrite s ms p ttl =>
      exact hreply (prewrite_careful ms (fun m hm => ⟨p, m, ⟨ms, ttl, rfl, hm⟩, rfl⟩) [])
  | batchPrewrite s ms p ttl =>
      exact hreply (batchPrewrite_careful ms (fun m hm => ⟨p, m, ⟨ms, ttl, rfl, hm⟩, rfl⟩) [])
  | commit s ct ks => exact hreply (commit_careful s ct ks [])
  | batchCommit s ct ks => exact hreply (batchCommit_careful s ct ks [])
  | rollback s ks => exact hreply (rollback_careful s ks [])
  | heartbeat p s ttl => exact hreply (heartbeat_careful p s ttl [])
  | get k r => exact hreply (get_careful k r [])
  | scan a b n r =>
      refine hreply ?_
      simp only [Coordinator.scan, Prog.always_bind, Prog.always_walk, Prog.onward_ok]
      exact fun items => scanLoop_careful a b n r none [] items _
  | checkTxnStatus p s =>
      refine hreply ?_
      simp only [Coordinator.checkTxnStatus, Prog.always_mapError]
      exact (checkTxnStatus_careful p s).mono fun _ _ _ => trivial
  | gc sp =>
      refine hreply ?_
      simp only [gcKeysOlderThan, Prog.always_bind, Prog.always_walk, Prog.onward_ok]
      intro items
      split_ifs
      · exact ⟨careful_of_untouched (gcLoop_untouched sp none false items), trivial⟩
      · trivial

end AcidKv
