import AcidKv.Properties.Finality
import AcidKv.Refine.Deciding

/-!
# One decision

Commits, heartbeats, status requests and reads at the same time, all after the prewrite of a
transaction.  While every handler finds the lock on the primary key as it has read it, the fate of
the transaction moves once, from `live` to `committed` or to `rolledBack`, and whoever knows of it
agrees with it (`Agrees`).  A commit and a status request that read the same lock just before it
expires decide it twice.
-/

namespace AcidKv

open LockResolver KeyEncoder

/-- How far the fate of a transaction is decided. -/
inductive Phase where
  | live
  | committed
  | rolledBack

def InPhase (p : Bytes) (s : UInt64) (v : View) : Phase → Prop
  | .live => (∃ l, v.lock p = some l ∧ Names p s l) ∧ ∀ ts op, v.write p ts ≠ some ⟨s, op⟩
  | .committed => v.lock p = none ∧ (∃ ct, v.Committed p s ct) ∧ ¬ v.RolledBack p s
  | .rolledBack => v.lock p = none ∧ v.RolledBack p s ∧ ∀ ct, ¬ v.Committed p s ct

/-- What a handler knows of the fate is true. -/
structure Agrees (φ : Phase) (σ : Standing) : Prop where
  back : σ = .back → φ = .rolledBack
  done : σ = .done → φ = .committed
  other : σ ≠ .other

lemma agrees_back : Agrees .rolledBack .back := ⟨fun _ => rfl, by simp, by simp⟩

lemma agrees_done : Agrees .committed .done := ⟨by simp, fun _ => rfl, by simp⟩

lemma agrees_unaware (φ : Phase) : Agrees φ .unaware := ⟨by simp, by simp, by simp⟩

lemma agrees_clear (φ : Phase) : Agrees φ .clear := ⟨by simp, by simp, by simp⟩

lemma agrees_held (φ : Phase) : Agrees φ .held := ⟨by simp, by simp, by simp⟩

/-- What is known of a decision stays true when the fate is decided once. -/
lemma Agrees.once {φ φ' : Phase} {σ : Standing} (h : Agrees φ σ) (honce : φ' = φ ∨ φ = .live) :
    Agrees φ' σ := by
  rcases honce with rfl | rfl
  · exact h
  · exact ⟨fun hσ => (by cases h.back hσ), fun hσ => (by cases h.done hσ), h.other⟩

section

variable {p : Bytes} {s : UInt64} {c : Call} {h : Trace} {st : Store} {φ : Phase} {v v' : View}

/-! ## Phases -/

lemma InPhase.congr (hφ : InPhase p s v φ) (hlock : v'.lock p = v.lock p)
    (hwrite : ∀ ts, v'.write p ts = v.write p ts) : InPhase p s v' φ := by
  have hcommitted : ∀ ct, v'.Committed p s ct ↔ v.Committed p s ct := by
    intro ct
    simp only [View.Committed, hwrite]
  have hrolled : v'.RolledBack p s ↔ v.RolledBack p s := by
    simp only [View.RolledBack, hwrite]
  cases φ with
  | live => simpa only [InPhase, hlock, hwrite] using hφ
  | committed => simpa only [InPhase, hlock, hcommitted, hrolled] using hφ
  | rolledBack => simpa only [InPhase, hlock, hcommitted, hrolled] using hφ

lemma InPhase.settle_of_ne (hφ : InPhase p s v φ) {k : Bytes} (ts : UInt64) (w : WriteRecord)
    (hk : k ≠ p) : InPhase p s (v.settle k ts w) φ :=
  hφ.congr (by simp [Ne.symm hk]) fun ts' => by simp [Ne.symm hk]

lemma InPhase.commit (hφ : InPhase p s v φ) (hne : φ ≠ .rolledBack) (ts : UInt64) {op : OpType}
    (hop : op ≠ .rollback) : InPhase p s (v.settle p ts ⟨s, op⟩) .committed := by
  have hrolled : ¬ v.RolledBack p s := by
    cases φ with
    | live => exact fun ⟨ts', hw⟩ => hφ.2 ts' _ hw
    | committed => exact hφ.2.2
    | rolledBack => exact absurd rfl hne
  refine ⟨by simp, ⟨ts, op, hop, by simp⟩, ?_⟩
  rintro ⟨ts', hw⟩
  rw [View.settle_write] at hw
  split_ifs at hw
  · cases hw
    exact hop rfl
  · exact hrolled ⟨ts', hw⟩

lemma InPhase.rollback (hφ : InPhase p s v φ) (hne : φ ≠ .committed) (ts : UInt64) :
    InPhase p s (v.settle p ts ⟨s, .rollback⟩) .rolledBack := by
  have hcommitted : ∀ ct, ¬ v.Committed p s ct := by
    cases φ with
    | live => exact fun ct ⟨op, _, hw⟩ => hφ.2 ct op hw
    | committed => exact absurd rfl hne
    | rolledBack => exact hφ.2.2
  refine ⟨by simp, ⟨ts, by simp⟩, ?_⟩
  rintro ct ⟨op, hop, hw⟩
  rw [View.settle_write] at hw
  split_ifs at hw
  · cases hw
    exact hop rfl
  · exact hcommitted ct ⟨op, hop, hw⟩

/-- A lock of the transaction is left only while nothing is decided. -/
lemma InPhase.eq_live (hφ : InPhase p s v φ) (hl : v.LockedBy p s) : φ = .live := by
  obtain ⟨l, hl, -⟩ := hl
  cases φ with
  | live => rfl
  | committed => rw [hφ.1] at hl; cases hl
  | rolledBack => rw [hφ.1] at hl; cases hl

/-! ## Reads -/

lemma Agrees.got (hagrees : Agrees φ (standing p s c h)) (hφ : InPhase p s (view st) φ)
    (part : Part) (k : Bytes)
    (hfresh : part = .lock → k = p → standing p s c h = .clear →
      ∀ ct, ¬ (view st).Committed p s ct) :
    Agrees φ (standing p s c (h ++ [.got part k (st.get part k)])) := by
  by_cases hpart : part = .lock
  swap
  · rwa [standing_got_part _ _ hpart]
  subst hpart
  by_cases hk : k = p
  swap
  · rwa [standing_got_of_ne _ hk]
  subst hk
  have hnone : (view st).lock k = none → φ ≠ .live →
      Agrees φ (standing k s c (h ++ [.got .lock k (st.get .lock k)])) := by
    intro hl hlive
    rw [standing_got_none hl]
    split_ifs with hclear
    · -- No record and no lock: the transaction has been rolled back.
      cases φ with
      | live => exact absurd rfl hlive
      | committed =>
          obtain ⟨ct, hct⟩ := hφ.2.1
          exact absurd hct (hfresh rfl rfl hclear ct)
      | rolledBack => exact agrees_back
    · exact hagrees
  cases φ with
  | live =>
      obtain ⟨l, hl, hnames⟩ := hφ.1
      rw [standing_got_held hl hnames]
      split_ifs
      · exact hagrees
      · exact agrees_held _
  | committed => exact hnone hφ.1 (by simp)
  | rolledBack => exact hnone hφ.1 (by simp)

lemma Agrees.walked (hagrees : Agrees φ (standing p s c h)) (hφ : InPhase p s (view st) φ)
    (part : Part) (lo : Bytes) :
    Agrees φ (standing p s c (h ++ [.walked part lo (st.range part lo)])) := by
  by_cases hstatus : part = .write ∧ lo = encode p u64Max
  swap
  · rwa [standing_walked_of_ne _ hstatus]
  obtain ⟨rfl, rfl⟩ := hstatus
  rw [standing_walked]
  split_ifs
  · exact hagrees
  cases hfound : statusLoop p s (st.range .write (encode p u64Max)) with
  | error e => exact hagrees
  | ok found =>
      cases found with
      | none =>
          rw [Standing.learns]
          split_ifs
          · exact agrees_clear _
          · exact hagrees
      | some status =>
          obtain ⟨ts, b, op, hm, hb, rfl⟩ := statusLoop_some hfound
          have hw : (view st).write p ts = some ⟨s, op⟩ := write_of_mem_walk hm hb
          by_cases hop : op = .rollback
          · subst hop
            cases φ with
            | live => exact absurd hw (hφ.2 ts _)
            | committed => exact absurd ⟨ts, hw⟩ hφ.2.2
            | rolledBack => exact agrees_back
          · rw [WriteRecord.status, if_neg hop]
            cases φ with
            | live => exact absurd hw (hφ.2 ts _)
            | committed => exact agrees_done
            | rolledBack => exact absurd ⟨op, hop, hw⟩ (hφ.2.2 ts)

/-! ## Batches -/

/-- Where a batch leads: the fate is decided at most once, and the handler knows it. -/
def Leads (p : Bytes) (s : UInt64) (c : Call) (h : Trace) (st : Store) (φ : Phase) (b : Batch) :
    Prop :=
  ∃ φ', InPhase p s (view (st.apply b)) φ' ∧ (φ' = φ ∨ φ = .live) ∧
    Agrees φ' (standing p s c (h ++ [.wrote b]))

lemma leads_settle (hφ : InPhase p s (view st) φ) (hagrees : Agrees φ (standing p s c h))
    (ts : UInt64) {op : OpType}
    (hback : op = .rollback → standing p s c h = .held ∨ standing p s c h = .back)
    (hdone : op ≠ .rollback → standing p s c h = .held ∨ standing p s c h = .done)
    (hlock : standing p s c h = .held → (view st).LockedBy p s) :
    Leads p s c h st φ (settleBatch p ts ⟨s, op⟩) := by
  unfold Leads
  rw [view_settleBatch, standing_settle]
  by_cases hop : op = .rollback
  · subst hop
    refine ⟨.rolledBack, hφ.rollback ?_ ts, ?_, ?_⟩
    · rintro rfl
      rcases hback rfl with hσ | hσ
      · cases hφ.eq_live (hlock hσ)
      · cases hagrees.back hσ
    · rcases hback rfl with hσ | hσ
      · exact Or.inr (hφ.eq_live (hlock hσ))
      · exact Or.inl (hagrees.back hσ).symm
    · rcases hback rfl with hσ | hσ <;> rw [hσ] <;> exact agrees_back
  · refine ⟨.committed, hφ.commit ?_ ts hop, ?_, ?_⟩
    · rintro rfl
      rcases hdone hop with hσ | hσ
      · cases hφ.eq_live (hlock hσ)
      · cases hagrees.done hσ
    · rcases hdone hop with hσ | hσ
      · exact Or.inr (hφ.eq_live (hlock hσ))
      · exact Or.inl (hagrees.done hσ).symm
    · rcases hdone hop with hσ | hσ <;> rw [hσ]
      · simpa [hop] using agrees_done
      · exact agrees_done

/-- A batch of settled keys, as `batch_commit` writes it. -/
lemma InPhase.commitAll {u ct : UInt64} {items : List (Bytes × OpType)}
    (hφ : InPhase p s (view st) φ) (hop : ∀ x ∈ items, x.2 ≠ .rollback)
    (hp : p ∈ items.map Prod.fst → u = s ∧ φ ≠ .rolledBack) :
    InPhase p s (view (st.apply (settleAll u ct items)))
      (if p ∈ items.map Prod.fst then .committed else φ) := by
  induction items generalizing st φ with
  | nil => simpa using hφ
  | cons x items ih =>
      rw [List.forall_mem_cons] at hop
      rw [settleAll_cons, Keyspace.apply_append]
      by_cases hx : x.1 = p
      · obtain ⟨rfl, hne⟩ := hp (by simp [hx])
        have hstep : InPhase p u (view (st.apply (settleBatch x.1 ct ⟨u, x.2⟩))) .committed := by
          rw [view_settleBatch, hx]
          exact hφ.commit hne ct hop.1
        have hall := ih hstep hop.2 fun _ => ⟨rfl, by simp⟩
        simpa [hx] using hall
      · have hstep : InPhase p s (view (st.apply (settleBatch x.1 ct ⟨u, x.2⟩))) φ := by
          rw [view_settleBatch]
          exact hφ.settle_of_ne ct _ hx
        have hall := ih hstep hop.2 fun hmem => hp (List.mem_cons_of_mem _ hmem)
        have hmap : p ∈ (x :: items).map Prod.fst ↔ p ∈ items.map Prod.fst := by
          simp [Ne.symm hx]
        simpa only [hmap] using hall

/-- What such a batch does on `p`. -/
lemma commitAll_touches (p : Bytes) (s u ct : UInt64) {items : List (Bytes × OpType)}
    (hop : ∀ x ∈ items, x.2 ≠ .rollback) :
    (p ∈ items.map Prod.fst →
        (batchLeaves (settleAll u ct items) .lock p).isSome ∧
        (u = s → ∃ op, op ≠ .rollback ∧
          decision p s (settleAll u ct items) = some op)) ∧
      (p ∉ items.map Prod.fst →
        batchLeaves (settleAll u ct items) .lock p = none ∧
          decision p s (settleAll u ct items) = none) := by
  induction items with
  | nil => exact ⟨by simp, fun _ => ⟨rfl, rfl⟩⟩
  | cons x items ih =>
      rw [List.forall_mem_cons] at hop
      obtain ⟨hmem, hnot⟩ := ih hop.2
      simp only [settleAll_cons, batchLeaves_append, decision_append, decision_settle,
        batchLeaves_settle]
      by_cases hx : x.1 = p
      · refine ⟨fun _ => ⟨?_, ?_⟩, fun hne => absurd (by simp [hx]) hne⟩
        · simp [hx]
        · rintro rfl
          exact ⟨x.2, hop.1, by simp [hx]⟩
      · have hmap : p ∈ (x :: items).map Prod.fst ↔ p ∈ items.map Prod.fst := by
          simp [Ne.symm hx]
        rw [hmap]
        simpa [hx, Ne.symm hx] using And.intro hmem hnot

lemma leads_commitAll {u ct : UInt64} {items : List (Bytes × OpType)}
    (hφ : InPhase p s (view st) φ) (hagrees : Agrees φ (standing p s c h))
    (hop : ∀ x ∈ items, x.2 ≠ .rollback)
    (hp : p ∈ items.map Prod.fst → u = s ∧ standing p s c h = .held)
    (hlock : standing p s c h = .held →
      (batchLeaves (settleAll u ct items) .lock p).isSome →
      (view st).LockedBy p s) :
    Leads p s c h st φ (settleAll u ct items) := by
  obtain ⟨htouch, hfree⟩ := commitAll_touches p s u ct hop
  by_cases hmem : p ∈ items.map Prod.fst
  · obtain ⟨rfl, hσ⟩ := hp hmem
    obtain ⟨htouched, hdec⟩ := htouch hmem
    obtain ⟨op, hne, hdec⟩ := hdec rfl
    have hlive := hφ.eq_live (hlock hσ htouched)
    have hall : InPhase p u (view (st.apply (settleAll u ct items))) _ :=
      hφ.commitAll hop fun _ => ⟨rfl, by simp [hlive]⟩
    rw [if_pos hmem] at hall
    refine ⟨.committed, hall, Or.inr hlive, ?_⟩
    rw [standing_wrote_held hσ, hdec]
    cases op with
    | rollback => exact absurd rfl hne
    | put => exact agrees_done
    | delete => exact agrees_done
  · obtain ⟨huntouched, hdec⟩ := hfree hmem
    have hall : InPhase p s (view (st.apply (settleAll u ct items))) _ :=
      hφ.commitAll hop fun hmem' => absurd hmem' hmem
    rw [if_neg hmem] at hall
    refine ⟨φ, hall, Or.inl rfl, ?_⟩
    rwa [standing_wrote_elsewhere huntouched hdec]

/-- A heartbeat writes the lock again, and its handler forgets it. -/
lemma leads_refresh {k : Bytes} {l : Lock} (hφ : InPhase p s (view st) φ)
    (hagrees : Agrees φ (standing p s c h)) (hop : l.op ≠ .rollback)
    (hshort : l.primaryKey.length < 2 ^ 32)
    (hp : k = p → Names p s l ∧ standing p s c h = .held)
    (hlock : k = p → (view st).LockedBy p s) :
    Leads p s c h st φ [.insert .lock k l.toBytes] := by
  by_cases hk : k = p
  · subst hk
    obtain ⟨hnames, hheld⟩ := hp rfl
    obtain rfl := hφ.eq_live (hlock rfl)
    refine ⟨.live, ?_, Or.inl rfl, ?_⟩
    · rw [view_putLock st k hop, Lock.stored_eq hshort]
      exact ⟨⟨l, by simp, hnames⟩, hφ.2⟩
    · have hacts : Standing.held.acts
          (batchLeaves [.insert .lock k l.toBytes] Part.lock k).isSome
          (decision k s [.insert .lock k l.toBytes]) = .unaware := by
        simp [batchLeaves_cons, BatchItem.entry, decision, recordOp, Standing.acts]
      rw [standing_wrote_held hheld, hacts]
      exact agrees_unaware .live
  · refine ⟨φ, ?_, Or.inl rfl, ?_⟩
    · rw [view_putLock st k hop]
      exact hφ.congr (by simp [Ne.symm hk]) fun ts => rfl
    · rwa [standing_wrote_elsewhere]
      · simp [batchLeaves_cons, BatchItem.entry, hk]
      · rfl

/-- A batch that the code lets a handler commit, while the lock is still there if it relies on
it. -/
theorem leads_deciding {b : Batch} (hφ : InPhase p s (view st) φ)
    (hagrees : Agrees φ (standing p s c h)) (hb : Deciding p s (standing p s c h) b)
    (hlock : standing p s c h = .held → (batchLeaves b .lock p).isSome →
      (view st).LockedBy p s) : Leads p s c h st φ b := by
  generalize hσ : standing p s c h = σ at hb
  cases hb with
  | other b hother => exact absurd (hσ.trans hother) hagrees.other
  | settle k ts w hp =>
      rw [← hσ] at hp
      by_cases hk : k = p
      · subst hk
        obtain ⟨u, op⟩ := w
        obtain ⟨rfl, hback, hdone⟩ := hp rfl
        exact leads_settle hφ hagrees ts hback hdone fun hheld =>
          hlock hheld (by simp [batchLeaves_settle])
      · refine ⟨φ, ?_, Or.inl rfl, ?_⟩
        · rw [view_settleBatch]
          exact hφ.settle_of_ne ts w hk
        · rwa [standing_settle_of_ne ts w hk]
  | commit u ct items hop hp =>
      rw [← hσ] at hp
      exact leads_commitAll hφ hagrees hop hp hlock
  | refresh k l hop hshort hp =>
      rw [← hσ] at hp
      refine leads_refresh hφ hagrees hop hshort hp ?_
      rintro rfl
      exact hlock (hp rfl).2 (by simp [batchLeaves_cons, BatchItem.entry])

end

/-! ## Schedules -/

/-- The choice lets a handler of request `c` that has seen `h` read the lock on `k`. -/
def ReadsLock (P : Workers) (choice : Choice Call UInt64) (c : Call) (h : Trace) (k : Bytes) : Prop :=
  ∃ i t next, choice = .step i t ∧ P.threads[i]? = some ⟨c, h, .get .lock k next⟩

/-- Whoever has read the lock of `s` on `p` and now touches it still finds it there, and whoever has
found no record of `s` on `p` reads the lock before `s` commits there. -/
def DecisionSafe (p : Bytes) (s : UInt64) (P : Workers) (choice : Choice Call UInt64) : Prop :=
  (∀ c h b, CommitsBatch P choice c h b → standing p s c h = .held →
      (batchLeaves b .lock p).isSome → (view P.store).LockedBy p s) ∧
    ∀ c h, ReadsLock P choice c h p → standing p s c h = .clear →
      ∀ ct, ¬ (view P.store).Committed p s ct

/-- Only commits, heartbeats, status requests and point reads are started. -/
def Admits (choice : Choice Call UInt64) : Prop := ∀ j, choice = .start j → Admitted j

/-- The fate of `s` is decided at most once so far, and all handlers agree on it. -/
def Undivided (p : Bytes) (s : UInt64) (P : Workers) : Prop :=
  ∃ φ, InPhase p s (view P.store) φ ∧ ∀ th ∈ P.threads, Agrees φ (standing p s th.job th.seen)

section

variable {p : Bytes} {s : UInt64} {P : Workers} {choice : Choice Call UInt64}

/-- A pool after one of its threads has moved. -/
lemma undivided_set {φ : Phase} {i : ℕ} {c : Call} {h : Trace} {x : Handler TxnError Reply}
    {st : Store} (hφ : InPhase p s (view st) φ)
    (hall : ∀ th ∈ P.threads, Agrees φ (standing p s th.job th.seen))
    (hnew : Agrees φ (standing p s c h)) : Undivided p s ⟨P.threads.set i ⟨c, h, x⟩, st⟩ := by
  refine ⟨φ, hφ, fun th hth => ?_⟩
  rcases Pool.mem_set hth with rfl | hth
  · exact hnew
  · exact hall th hth

/-- One step of one handler. -/
theorem Undivided.next (hP : Undivided p s P)
    (hverified : P.Verified (fun c h b => Deciding p s (standing p s c h) b) (Concluded p s))
    (hsafe : DecisionSafe p s P choice) : Undivided p s (P.next Call.handler choice) := by
  obtain ⟨φ, hφ, hall⟩ := hP
  have hturn := Pool.turn Call.handler P choice
  generalize P.next Call.handler choice = P' at hturn ⊢
  cases hturn with
  | started j =>
      refine ⟨φ, hφ, fun th hth => ?_⟩
      rcases List.mem_append.mp hth with hth | hth
      · exact hall th hth
      · rw [List.mem_singleton.mp hth]
        exact agrees_unaware φ
  | idle i t => exact ⟨φ, hφ, hall⟩
  | @stepped i t th o x' s' hth hstep =>
      obtain ⟨c, h, x⟩ := th
      have hmem := List.mem_of_getElem? hth
      have hagrees := hall _ hmem
      simp only at hstep
      cases x with
      | pure a => cases hstep
      | throw e => cases hstep
      | get part k next =>
          cases hstep
          refine undivided_set hφ hall (hagrees.got hφ part k ?_)
          rintro rfl rfl hclear
          exact hsafe.2 c h ⟨i, t, _, rfl, hth⟩ hclear
      | range part lo next =>
          cases hstep
          exact undivided_set hφ hall (hagrees.walked hφ part lo)
      | now next =>
          cases hstep
          refine undivided_set hφ hall ?_
          rwa [standing_read]
      | commit b next =>
          cases hstep
          have hby : CommitsBatch P (.step i t) c h b := ⟨i, t, _, rfl, hth⟩
          obtain ⟨φ', hφ', honce, hnew⟩ :=
            leads_deciding hφ hagrees (hverified _ hmem).1 fun hheld => hsafe.1 c h b hby hheld
          exact undivided_set hφ' (fun th' hth' => (hall th' hth').once honce) hnew

/-- Every schedule of requests that find the lock as they have read it. -/
theorem undivided_after {st : Store} {cs : Schedule} (hstart : InPhase p s (view st) .live)
    (hsafe : Guarded (Pool.next Call.handler)
      (fun P choice => Admits choice ∧ DecisionSafe p s P choice) (Workers.idle st) cs) :
    Undivided p s ((Workers.idle st).after cs) ∧ ((Workers.idle st).after cs).Verified
      (fun c h b => Deciding p s (standing p s c h) b) (Concluded p s) := by
  refine @Guarded.invariant _ _ _ _ _ _ (fun P : Workers => Undivided p s P ∧
    P.Verified (fun c h b => Deciding p s (standing p s c h) b) (Concluded p s)) hsafe ?_
    ⟨⟨.live, hstart, ?_⟩, ?_⟩
  · rintro P choice ⟨hP, hverified⟩ ⟨hadmits, hsafe⟩
    exact ⟨hP.next hverified hsafe,
      Pool.always_next hverified fun j hj => handler_deciding p s (hadmits j hj)⟩
  · intro th hth
    cases hth
  · intro th hth
    cases hth

/-- In every phase there is one kind of record at most. -/
lemma InPhase.undivided {φ : Phase} {v : View} (hφ : InPhase p s v φ) :
    ¬ ((∃ ct, v.Committed p s ct) ∧ v.RolledBack p s) := by
  rintro ⟨⟨ct, hct⟩, hrolled⟩
  cases φ with
  | live =>
      obtain ⟨ts, hw⟩ := hrolled
      exact hφ.2 ts _ hw
  | committed => exact hφ.2.2 hrolled
  | rolledBack => exact hφ.2.2 ct hct

end

/-- The commit of `s` with its primary key `p` first has returned `Ok`. -/
def CommitReturned (P : Workers) (p : Bytes) (s : UInt64) : Prop :=
  ∃ th ∈ P.threads, (∃ ct rest, th.job = .commit s ct (p :: rest)) ∧ th.prog = .pure .done

/-- A status request has been told that `s` is rolled back. -/
def RollbackReturned (P : Workers) (p : Bytes) (s : UInt64) : Prop :=
  ∃ th ∈ P.threads, th.job = .checkTxnStatus p s ∧ th.prog = .pure (.status .rolledBack)

/-- The two replies speak of one fate. -/
lemma Undivided.replies {p : Bytes} {s : UInt64} {P : Workers} (hP : Undivided p s P)
    (hverified : P.Verified (fun c h b => Deciding p s (standing p s c h) b) (Concluded p s)) :
    ¬ (CommitReturned P p s ∧ RollbackReturned P p s) := by
  obtain ⟨φ, -, hagrees⟩ := hP
  rintro ⟨⟨thc, hthc, hjob, hprog⟩, ths, hths, hjob', hprog'⟩
  have hdone : φ = .committed := by
    refine (hagrees thc hthc).done ?_
    have hcon := hverified thc hthc
    rw [hprog] at hcon
    exact (hcon.resolve_left (hagrees thc hthc).other).1 hjob rfl
  have hback : φ = .rolledBack := by
    refine (hagrees ths hths).back ?_
    have hcon := hverified ths hths
    rw [hprog'] at hcon
    exact (hcon.resolve_left (hagrees ths hths).other).2 hjob' rfl
  rw [hdone] at hback
  cases hback

/-- Handlers that run at the same time decide a prewritten transaction once, if they find the lock
on its primary key as they have read it. -/
theorem one_decision (es : List Event) (e : Event) (s ttl : UInt64) (ms : List Mutation) (p : Bytes)
    (hcall : e.call.prewriteArgs = some (s, ms, p, ttl)) (hprimary : ∃ m ∈ ms, m.key = p)
    (hshort : p.length < 2 ^ 32)
    (hreply : (e.exec (Config.init.steps es).store).1 = some (.ok .done))
    (hopen : ∀ ts op, (view (e.exec (Config.init.steps es).store).2).write p ts ≠ some ⟨s, op⟩)
    (cs : Schedule)
    (hsafe : Guarded (Pool.next Call.handler)
      (fun P choice => Admits choice ∧ DecisionSafe p s P choice)
      (Workers.idle (e.exec (Config.init.steps es).store).2) cs) :
    ¬ ((∃ ct, (view ((Workers.idle (e.exec (Config.init.steps es).store).2).after cs).store).Committed
          p s ct) ∧
        (view ((Workers.idle (e.exec (Config.init.steps es).store).2).after cs).store).RolledBack
          p s) ∧
      ¬ (CommitReturned ((Workers.idle (e.exec (Config.init.steps es).store).2).after cs) p s ∧
        RollbackReturned ((Workers.idle (e.exec (Config.init.steps es).store).2).after cs) p s) := by
  have hstart : InPhase p s (view (e.exec (Config.init.steps es).store).2) .live := by
    obtain ⟨m, hm, rfl⟩ := hprimary
    have hwf : WF (RunKeys es ∪ {k | k ∈ e.call.keys}) (Config.init.steps es).store :=
      (wf_runKeys es).mono Set.subset_union_left
    obtain ⟨l, hl, hkey, hs⟩ :=
      prewrite_reply_prewritten hwf (fun k hk => Or.inr hk) hcall hreply m hm
    rw [Lock.storedKey_eq hshort] at hkey
    exact ⟨⟨l, hl, hkey, hs⟩, hopen⟩
  generalize (e.exec (Config.init.steps es).store).2 = st at hstart hsafe ⊢
  obtain ⟨hundivided, hverified⟩ := undivided_after hstart hsafe
  refine ⟨?_, hundivided.replies hverified⟩
  obtain ⟨φ, hφ, -⟩ := hundivided
  exact hφ.undivided

/-- One put of `[1]`, prewritten. -/
def onePut : Event := { call := .prewrite 65536 [.put [1] [10]] [1] 3000 }

/-- A status request reads the lock before the commit does, and the clock after it: the lock it has
read is alive. -/
def statusBeside : Schedule :=
  [.start (.commit 65536 65537 [[1]]), .start (.checkTxnStatus [1] 65536), .step 1 0, .step 1 0,
    .step 0 0, .step 0 0, .step 1 100]

theorem one_decision_statusBeside :
    CommitReturned ((Workers.idle (onePut.exec Keyspace.empty).2).after statusBeside) [1] 65536 ∧
      ¬ RollbackReturned ((Workers.idle (onePut.exec Keyspace.empty).2).after statusBeside)
        [1] 65536 ∧
      (view ((Workers.idle (onePut.exec Keyspace.empty).2).after statusBeside).store).Committed
        [1] 65536 65537 ∧
      ¬ (view ((Workers.idle (onePut.exec Keyspace.empty).2).after statusBeside).store).RolledBack
        [1] 65536 := by
  have hview : view (onePut.exec Keyspace.empty).2
      = (view Keyspace.empty).stage 65536 [1] 3000 (.put [1] [10]) := view_stageBatch ..
  have hlock : (view (onePut.exec Keyspace.empty).2).LockedBy [1] 65536 :=
    ⟨⟨[1], 65536, 3000, .put⟩, by rfl, rfl⟩
  have hopen : ∀ ts op, (view (onePut.exec Keyspace.empty).2).write [1] ts ≠ some ⟨65536, op⟩ := by
    intro ts op hw
    rw [hview, view_empty] at hw
    cases hw
  have hsafe : Guarded (Pool.next Call.handler)
      (fun P choice => Admits choice ∧ DecisionSafe [1] 65536 P choice)
      (Workers.idle (onePut.exec Keyspace.empty).2) statusBeside := by
    refine ⟨⟨?_, ?_, ?_⟩, ⟨?_, ?_, ?_⟩, ⟨?_, ?_, ?_⟩, ⟨?_, ?_, ?_⟩, ⟨?_, ?_, ?_⟩, ⟨?_, ?_, ?_⟩,
      ⟨?_, ?_, ?_⟩, trivial⟩
    -- the two starts
    · rintro j ⟨⟩
      trivial
    · rintro c h b ⟨i, t, next, ⟨⟩, -⟩
    · rintro c h ⟨i, t, next, ⟨⟩, -⟩
    · rintro j ⟨⟩
      trivial
    · rintro c h b ⟨i, t, next, ⟨⟩, -⟩
    · rintro c h ⟨i, t, next, ⟨⟩, -⟩
    -- the status request goes through the records, and reads the lock
    · rintro j ⟨⟩
    · rintro c h b ⟨i, t, next, ⟨⟩, hth⟩
      cases hth
    · rintro c h ⟨i, t, next, ⟨⟩, hth⟩
      cases hth
    · rintro j ⟨⟩
    · rintro c h b ⟨i, t, next, ⟨⟩, hth⟩
      cases hth
    · rintro c h ⟨i, t, next, ⟨⟩, hth⟩ - ct ⟨op, -, hw⟩
      exact hopen ct op hw
    -- the commit reads the lock, and writes its record
    · rintro j ⟨⟩
    · rintro c h b ⟨i, t, next, ⟨⟩, hth⟩
      cases hth
    · rintro c h ⟨i, t, next, ⟨⟩, hth⟩ hclear
      cases hth
      cases hclear
    · rintro j ⟨⟩
    · rintro c h b ⟨i, t, next, ⟨⟩, hth⟩ - -
      exact hlock
    · rintro c h ⟨i, t, next, ⟨⟩, hth⟩
      cases hth
    -- the status request reads the clock
    · rintro j ⟨⟩
    · rintro c h b ⟨i, t, next, ⟨⟩, hth⟩
      cases hth
    · rintro c h ⟨i, t, next, ⟨⟩, hth⟩
      cases hth
  have hcommitted : (view ((Workers.idle (onePut.exec Keyspace.empty).2).after
      statusBeside).store).Committed [1] 65536 65537 := ⟨.put, by decide, by rfl⟩
  have hreturned : CommitReturned ((Workers.idle (onePut.exec Keyspace.empty).2).after
      statusBeside) [1] 65536 := ⟨_, List.mem_cons_self, ⟨65537, [], rfl⟩, rfl⟩
  obtain ⟨hrecords, hreplies⟩ := one_decision [] onePut 65536 3000 [.put [1] [10]] [1] rfl
    ⟨_, List.mem_cons_self, rfl⟩ (by decide) rfl hopen statusBeside hsafe
  exact ⟨hreturned, fun hback => hreplies ⟨hreturned, hback⟩, hcommitted,
    fun hrolled => hrecords ⟨⟨65537, hcommitted⟩, hrolled⟩⟩

/-- A commit reads the lock, and a status request finds it expired and rolls back. -/
def expiryRace : Schedule :=
  [.start (.commit 65536 65537 [[1]]), .start (.checkTxnStatus [1] 65536), .step 0 0,
    .step 1 0, .step 1 0, .step 1 4000, .step 1 0]

/-- The next step of the commit writes its record all the same, and returns `Ok`. -/
theorem decided_twice :
    RollbackReturned ((Workers.idle (onePut.exec Keyspace.empty).2).after expiryRace) [1] 65536 ∧
      CommitReturned ((Workers.idle (onePut.exec Keyspace.empty).2).after
        (expiryRace ++ [.step 0 0])) [1] 65536 ∧
      (view ((Workers.idle (onePut.exec Keyspace.empty).2).after
        (expiryRace ++ [.step 0 0])).store).Committed [1] 65536 65537 ∧
      (view ((Workers.idle (onePut.exec Keyspace.empty).2).after
        (expiryRace ++ [.step 0 0])).store).RolledBack [1] 65536 := by
  refine ⟨⟨_, List.mem_cons_of_mem _ List.mem_cons_self, rfl, rfl⟩,
    ⟨_, List.mem_cons_self, ⟨65537, [], rfl⟩, rfl⟩, ⟨.put, by decide, by rfl⟩, ⟨65536, by rfl⟩⟩

end AcidKv
