import AcidKv.Abstract.Scans

/-!
# The version a loop stops at

`check_txn_status` and the point read walk the versions of a key from the newest on, and stop at
the first one of interest: a record of the transaction, a record that is not a rollback.  They
give up at the first entry of another key.  `findVersion` is what the two loops have in common,
and `Hit` says on the view at which version it stops.

The lemmas of `Abstract.Scans` say what an outcome of these functions implies.  The ones here
determine the outcome, which is what a comparison of two stores needs.
-/

namespace AcidKv

open KeyEncoder LockResolver BigEndian

/-- The first version of `k` whose record satisfies `P`, up to the first entry of another key. -/
def findVersion (k : Bytes) (P : WriteRecord → Prop) [DecidablePred P] :
    List (Bytes × Bytes) → Option (UInt64 × WriteRecord)
  | [] => none
  | (e, b) :: rest =>
      match decode e, WriteRecord.fromBytes b with
      | .ok (k', ts), some w =>
          if k' = k then if P w then some (ts, w) else findVersion k P rest else none
      | _, _ => none

/-- No entry of another key stands between the versions of `k` at `hi` and at `c`. -/
def SeenFrom (v : View) (k : Bytes) (hi c : UInt64) : Prop :=
  ∀ k' ts w, v.write k' ts = some w → encode k hi ≤ encode k' ts →
    encode k' ts < encode k c → k' = k

/-- The version of `k` at `ts` is the newest one up to `hi` that satisfies `P`. -/
structure Latest (v : View) (k : Bytes) (hi : UInt64) (P : WriteRecord → Prop) (ts : UInt64)
    (w : WriteRecord) : Prop where
  le : ts ≤ hi
  write : v.write k ts = some w
  holds : P w
  newest : ∀ ts' w', v.write k ts' = some w' → ts < ts' → ts' ≤ hi → ¬ P w'

/-- And a walk from `(k, hi)` on gets to it. -/
structure Hit (v : View) (k : Bytes) (hi : UInt64) (P : WriteRecord → Prop) (ts : UInt64)
    (w : WriteRecord) : Prop extends Latest v k hi P ts w where
  clear : SeenFrom v k hi ts

lemma Latest.unique {v : View} {k : Bytes} {hi : UInt64} {P : WriteRecord → Prop}
    {ts ts' : UInt64} {w w' : WriteRecord} (h : Latest v k hi P ts w)
    (h' : Latest v k hi P ts' w') : ts = ts' ∧ w = w' := by
  have hts : ts = ts' := by
    refine UInt64.le_antisymm (UInt64.not_lt.mp fun hlt => ?_) (UInt64.not_lt.mp fun hlt => ?_)
    · exact h'.newest ts w h.write hlt h.le h.holds
    · exact h.newest ts' w' h'.write hlt h'.le h'.holds
  have hw := h.write
  rw [hts, h'.write, Option.some.injEq] at hw
  exact ⟨hts, hw.symm⟩

/-- Where some version satisfies `P` there is a newest one. -/
theorem exists_latest {v : View} {k : Bytes} {hi : UInt64} {P : WriteRecord → Prop} {ts : UInt64}
    {w : WriteRecord} (hle : ts ≤ hi) (hw : v.write k ts = some w) (hP : P w) :
    ∃ ts' w', ts ≤ ts' ∧ Latest v k hi P ts' w' := by
  -- go up from `ts`; there are only so many timestamps left
  induction hn : hi.toNat - ts.toNat using Nat.strong_induction_on generalizing ts w with
  | _ n ih =>
      by_cases hnew : ∃ ts' w', v.write k ts' = some w' ∧ ts < ts' ∧ ts' ≤ hi ∧ P w'
      · obtain ⟨ts', w', hw', hlt, hle', hP'⟩ := hnew
        have hlt' := UInt64.lt_iff_toNat_lt.mp hlt
        have hle'' := UInt64.le_iff_toNat_le.mp hle'
        obtain ⟨t, x, hle, hx⟩ := ih (hi.toNat - ts'.toNat) (by omega) hle' hw' hP' rfl
        exact ⟨t, x, UInt64.le_trans (UInt64.le_of_lt hlt) hle, hx⟩
      · refine ⟨ts, w, UInt64.le_refl ts, hle, hw, hP, ?_⟩
        exact fun ts' w' hw' hlt hle' hP' => hnew ⟨ts', w', hw', hlt, hle', hP'⟩

lemma SeenFrom.above {v : View} {k : Bytes} {hi c c' : UInt64} (h : SeenFrom v k hi c)
    (hle : c ≤ c') : SeenFrom v k hi c' := by
  intro k' ts w hw hlo hlt
  refine h k' ts w hw hlo (Std.lt_of_lt_of_le hlt ?_)
  rwa [← List.not_lt, encode_lt_encode_same, UInt64.not_lt]

/-- Where a walk gets to some version that satisfies `P`, it stops at one. -/
theorem exists_hit {v : View} {k : Bytes} {hi : UInt64} {P : WriteRecord → Prop} {ts : UInt64}
    {w : WriteRecord} (hle : ts ≤ hi) (hw : v.write k ts = some w) (hP : P w)
    (hseen : SeenFrom v k hi ts) : ∃ ts' w', Hit v k hi P ts' w' := by
  obtain ⟨ts', w', hle', hlatest⟩ := exists_latest hle hw hP
  exact ⟨ts', w', hlatest, hseen.above hle'⟩

/-- With prefix-free keys nothing of another key is ever in between. -/
lemma PrefixFree.seenFrom {U : Set Bytes} (hU : PrefixFree U) {st : Store} (h : WF U st)
    {k : Bytes} (hk : k ∈ U) (hi c : UInt64) : SeenFrom (view st) k hi c :=
  fun _ _ _ hw hle hlt => hU.eq_of_between hk (h.write_mem hw) hle hlt

section Find

variable {k : Bytes} {P : WriteRecord → Prop} [DecidablePred P] {items : List (Bytes × Bytes)}

@[simp] lemma findVersion_cons {k' b : Bytes} {ts : UInt64} {w : WriteRecord}
    (hw : WriteRecord.fromBytes b = some w) :
    findVersion k P ((encode k' ts, b) :: items) =
      if k' = k then if P w then some (ts, w) else findVersion k P items else none := by
  simp only [findVersion, decode_encode, hw]

/-- The version of `k` at `ts` is reached, and the newest one of the list that satisfies `P`. -/
def FirstAt (k : Bytes) (P : WriteRecord → Prop) (items : List (Bytes × Bytes)) (ts : UInt64)
    (w : WriteRecord) : Prop :=
  ∃ b, (encode k ts, b) ∈ items ∧ WriteRecord.fromBytes b = some w ∧ P w ∧
    Reaches k items ts ∧ ∀ ts' b' w', (encode k ts', b') ∈ items →
      WriteRecord.fromBytes b' = some w' → ts < ts' → ¬ P w'

omit [DecidablePred P] in
/-- A head that satisfies `P` is the one. -/
lemma firstAt_head {b : Bytes} {t ts : UInt64} {w₀ w : WriteRecord}
    (h : Walk ((encode k t, b) :: items)) (hw₀ : WriteRecord.fromBytes b = some w₀) (hP : P w₀) :
    FirstAt k P ((encode k t, b) :: items) ts w ↔ t = ts ∧ w₀ = w := by
  have hsorted := (List.pairwise_cons.mp h.sorted).1
  have hnewer : ∀ {c b'}, (encode k c, b') ∈ items → c < t := fun hm =>
    encode_lt_encode_same.mp (hsorted _ hm)
  constructor
  · rintro ⟨b', hm, hb', -, -, hnew⟩
    rcases List.mem_cons.mp hm with heq | hm
    · simp only [Prod.mk.injEq, encode_inj, true_and] at heq
      rw [heq.2, hw₀, Option.some.injEq] at hb'
      exact ⟨heq.1.symm, hb'⟩
    · exact absurd hP (hnew t b w₀ List.mem_cons_self hw₀ (hnewer hm))
  · rintro ⟨rfl, rfl⟩
    refine ⟨b, List.mem_cons_self, hw₀, hP, h.reaches_head, ?_⟩
    intro ts' b' w' hm hb' hlt
    rcases List.mem_cons.mp hm with heq | hm
    · simp only [Prod.mk.injEq, encode_inj, true_and] at heq
      exact absurd (heq.1 ▸ hlt) (UInt64.lt_irrefl _)
    · exact absurd (hnewer hm) (UInt64.lt_asymm hlt)

omit [DecidablePred P] in
/-- Any other head of the key is passed over. -/
lemma firstAt_skip {b : Bytes} {t ts : UInt64} {w₀ w : WriteRecord}
    (hw₀ : WriteRecord.fromBytes b = some w₀) (hP : ¬ P w₀) :
    FirstAt k P ((encode k t, b) :: items) ts w ↔ FirstAt k P items ts w := by
  -- a record read off the head is `w₀`
  have hhead : ∀ {ts' b' w'}, (encode k ts', b') = (encode k t, b) →
      WriteRecord.fromBytes b' = some w' → ¬ P w' := by
    intro ts' b' w' heq hb'
    rw [(Prod.mk.inj heq).2, hw₀, Option.some.injEq] at hb'
    exact hb' ▸ hP
  refine exists_congr fun b' => ?_
  rw [Reaches.cons_iff]
  constructor
  · rintro ⟨hm, hb', hPw, hreach, hnew⟩
    refine ⟨?_, hb', hPw, hreach, fun ts' b'' w' hm' => hnew ts' b'' w' (List.mem_cons_of_mem _ hm')⟩
    rcases List.mem_cons.mp hm with heq | hm
    · exact absurd hPw (hhead heq hb')
    · exact hm
  · rintro ⟨hm, hb', hPw, hreach, hnew⟩
    refine ⟨List.mem_cons_of_mem _ hm, hb', hPw, hreach, ?_⟩
    intro ts' b'' w' hm' hb'' hlt
    rcases List.mem_cons.mp hm' with heq | hm'
    · exact hhead heq hb''
    · exact hnew ts' b'' w' hm' hb'' hlt

/-- The loop stops at the first version that satisfies `P` and is reached. -/
theorem findVersion_eq_some_iff (h : Walk items) {ts : UInt64} {w : WriteRecord} :
    findVersion k P items = some (ts, w) ↔ FirstAt k P items ts w := by
  induction h using Walk.induction with
  | nil _ => simp [findVersion, FirstAt]
  | cons k' t b w₀ items h hw₀ ih =>
      rw [findVersion_cons hw₀]
      by_cases hk : k' = k
      · subst hk
        rw [if_pos rfl]
        by_cases hP : P w₀
        · rw [if_pos hP, firstAt_head h hw₀ hP, Option.some.injEq, Prod.mk.injEq]
        · rw [if_neg hP, firstAt_skip hw₀ hP, ih]
      · rw [if_neg hk]
        refine ⟨fun heq => absurd heq (by simp), ?_⟩
        rintro ⟨b', hm, -, -, hreach, -⟩
        exact absurd hreach (h.not_reaches hk hm)

/-- What a walk from `(k, hi)` on gets to. -/
lemma reaches_iff_seenFrom {U : Set Bytes} {st : Store} (h : WF U st) (hi c : UInt64) :
    Reaches k (st.range .write (encode k hi)) c ↔ SeenFrom (view st) k hi c := by
  constructor
  · intro hreach k' ts w hw hle hlt
    obtain ⟨b, hb, -⟩ := view_write_some hw
    obtain ⟨ts', hts'⟩ :=
      hreach _ (Keyspace.mem_range.mpr ⟨hb, compare_isLE_iff.mpr hle⟩) hlt
    exact (encode_inj.mp hts').1
  · rintro hseen ⟨e, b⟩ hx hlt
    obtain ⟨hget, hlo⟩ := Keyspace.mem_range.mp hx
    obtain ⟨k', -, ts, w, he, hw⟩ := h.write e b hget
    simp only at hlt ⊢
    subst he
    exact ⟨ts, by rw [hseen k' ts w (view_write_of_get hget hw) (compare_isLE_iff.mp hlo) hlt]⟩

lemma le_of_mem_walk {st : Store} {b : Bytes} {hi ts : UInt64}
    (hm : (encode k ts, b) ∈ st.range .write (encode k hi)) : ts ≤ hi := by
  have hle := compare_isLE_iff.mp (Keyspace.mem_range.mp hm).2
  rwa [← List.not_lt, encode_lt_encode_same, UInt64.not_lt] at hle

theorem findVersion_walk {U : Set Bytes} {st : Store} (h : WF U st) {hi ts : UInt64}
    {w : WriteRecord} :
    findVersion k P (st.range .write (encode k hi)) = some (ts, w) ↔
      Hit (view st) k hi P ts w := by
  rw [findVersion_eq_some_iff (walk_of_wf h _), FirstAt, reaches_iff_seenFrom h]
  constructor
  · rintro ⟨b, hm, hb, hP, hseen, hnew⟩
    refine ⟨⟨le_of_mem_walk hm, write_of_mem_walk hm hb, hP, ?_⟩, hseen⟩
    intro ts' w' hw' hlt hle
    obtain ⟨b', hm', hb'⟩ := mem_walk_of_write hw' hle
    exact hnew ts' b' w' hm' hb' hlt
  · intro hhit
    obtain ⟨b, hm, hb⟩ := mem_walk_of_write hhit.write hhit.le
    refine ⟨b, hm, hb, hhit.holds, hhit.clear, ?_⟩
    intro ts' b' w' hm' hb' hlt
    exact hhit.newest ts' w' (write_of_mem_walk hm' hb') hlt (le_of_mem_walk hm')

lemma findVersion_walk_none {U : Set Bytes} {st : Store} (h : WF U st) {hi : UInt64}
    (hnone : ∀ ts w, ¬ Hit (view st) k hi P ts w) :
    findVersion k P (st.range .write (encode k hi)) = none := by
  rw [Option.eq_none_iff_forall_ne_some]
  rintro ⟨ts, w⟩ hfind
  exact hnone ts w ((findVersion_walk h).mp hfind)

end Find

section

variable {U : Set Bytes} {st : Store} {clock : ℕ → UInt64}

/-! ## Point reads -/

/-- The version a read of `k` at `r` stops at. -/
abbrev Sees (v : View) (k : Bytes) (r : UInt64) : UInt64 → WriteRecord → Prop :=
  Hit v k r fun w => w.op ≠ .rollback

/-- No lock stands in the way of a read of `k` at `r`. -/
def Unlocked (v : View) (k : Bytes) (r : UInt64) : Prop := ∀ l, v.lock k = some l → r < l.startTs

/-- What a read that stops at the record `w` of `k` returns. -/
def View.readRecord (v : View) (k : Bytes) (w : WriteRecord) : Except MvccError (Option Bytes) :=
  match w.op, v.data k w.startTs with
  | .put, some x => .ok (some x)
  | .put, none => .error .corruptedState
  | _, _ => .ok none

/-- What a read returns once its loop has stopped. -/
def View.readVersion (v : View) (k : Bytes) :
    Option (UInt64 × WriteRecord) → Except MvccError (Option Bytes)
  | some (_, w) => v.readRecord k w
  | none => .ok none

lemma getLoop_run {k : Bytes} {r : UInt64} {items : List (Bytes × Bytes)} (h : Walk items)
    (hle : ∀ ts b, (encode k ts, b) ∈ items → ts ≤ r) :
    (MvccReader.getLoop k r items).run clock st =
      ((view st).readVersion k (findVersion k (fun w => w.op ≠ .rollback) items), st) := by
  induction h using Walk.induction with
  | nil _ => rfl
  | cons k' ts b w items h hw ih =>
      rw [findVersion_cons hw]
      simp only [MvccReader.getLoop, decode_encode]
      by_cases hk : k' = k
      · subst hk
        have hts := hle ts b List.mem_cons_self
        simp only [if_true, hts, hw]
        obtain ⟨s, op⟩ := w
        cases op with
        | put =>
            simp only [Prog.run_lookup_bind]
            cases hd : st.get .default (encode k' s) with
            | some x => simp [View.readVersion, View.readRecord, view, hd]
            | none => simp [View.readVersion, View.readRecord, view, hd]
        | delete => rfl
        | rollback => exact ih fun ts b hm => hle ts b (List.mem_cons_of_mem _ hm)
      · simp only [hk, if_false]
        rfl

/-- A read of an unlocked key is its loop. -/
lemma readerGet_unlocked (h : WF U st) {k : Bytes} {r : UInt64} (hfree : Unlocked (view st) k r) :
    (MvccReader.get k r).run clock st = ((view st).readVersion k
      (findVersion k (fun w => w.op ≠ .rollback) (st.range .write (encode k r))), st) := by
  have hscan := @getLoop_run st clock k r (st.range .write (encode k r)) (walk_of_wf h _)
    (fun ts b hm => le_of_mem_walk hm)
  simp only [MvccReader.get, Prog.run_lookup_bind]
  cases hg : st.get .lock k with
  | none => exact hscan
  | some b =>
      obtain ⟨-, l, hl⟩ := h.lock k b hg
      have hlt := UInt64.not_le.mpr (hfree l (view_lock_of_get hg hl))
      simp only [hl, hlt, if_false]
      exact hscan

theorem readerGet_of_sees (h : WF U st) {k : Bytes} {r c : UInt64} {w : WriteRecord}
    (hfree : Unlocked (view st) k r) (hs : Sees (view st) k r c w) :
    (MvccReader.get k r).run clock st = ((view st).readRecord k w, st) := by
  rw [readerGet_unlocked h hfree, (findVersion_walk h).mpr hs]
  rfl

theorem readerGet_of_unseen (h : WF U st) {k : Bytes} {r : UInt64}
    (hfree : Unlocked (view st) k r) (hs : ∀ c w, ¬ Sees (view st) k r c w) :
    (MvccReader.get k r).run clock st = (.ok none, st) := by
  rw [readerGet_unlocked h hfree, findVersion_walk_none h hs]
  rfl

theorem readerGet_of_locked {k : Bytes} {r : UInt64} {l : Lock}
    (hl : (view st).lock k = some l) (hle : l.startTs ≤ r) :
    (MvccReader.get k r).run clock st = (.error (.keyIsLocked l.primaryKey l.startTs), st) := by
  obtain ⟨b, hb, hdec⟩ := view_lock_some hl
  simp only [MvccReader.get, Prog.run_lookup_bind, hb, hdec, hle, if_true, Prog.run_throw]

/-! ## The status of a transaction -/

/-- The record of `s` on its primary key `p` that decides its status. -/
abbrev Decides (v : View) (p : Bytes) (s : UInt64) : UInt64 → WriteRecord → Prop :=
  Hit v p u64Max fun w => w.startTs = s

/-- The status that a record stands for. -/
def WriteRecord.status (w : WriteRecord) (commitTs : UInt64) : TxnStatus :=
  if w.op = .rollback then .rolledBack else .committed commitTs

lemma statusLoop_eq {p : Bytes} {s : UInt64} {items : List (Bytes × Bytes)} (h : Walk items) :
    statusLoop p s items =
      .ok ((findVersion p (fun w => w.startTs = s) items).map fun x => x.2.status x.1) := by
  induction h using Walk.induction with
  | nil _ => rfl
  | cons k' ts b w items h hw ih =>
      rw [findVersion_cons hw]
      simp only [statusLoop, decode_encode, hw]
      split_ifs with hk hs
      · cases hop : w.op <;> simp [WriteRecord.status, hop]
      · exact ih
      · rfl

/-- A record of the transaction decides, whatever the lock and the clock say. -/
theorem checkTxnStatus_of_decides (h : WF U st) {p : Bytes} {s c : UInt64} {w : WriteRecord}
    (hd : Decides (view st) p s c w) :
    (LockResolver.checkTxnStatus p s).run clock st = (.ok (w.status c), st) := by
  simp only [LockResolver.checkTxnStatus, Prog.run_walk_bind, statusLoop_eq (walk_of_wf h _),
    (findVersion_walk h).mpr hd]
  rfl

/-- Without a record the lock decides. -/
theorem checkTxnStatus_of_undecided (h : WF U st) {p : Bytes} {s : UInt64}
    (hd : ∀ c w, ¬ Decides (view st) p s c w) :
    (LockResolver.checkTxnStatus p s).run clock st = (checkPrimaryLock p s).run clock st := by
  simp only [LockResolver.checkTxnStatus, Prog.run_walk_bind, statusLoop_eq (walk_of_wf h _),
    findVersion_walk_none h hd]
  rfl

theorem checkPrimaryLock_of_locked {p : Bytes} {l : Lock} (hl : (view st).lock p = some l) :
    (checkPrimaryLock p l.startTs).run clock st =
      if expired (clock 0) l.startTs l.ttl then
        (.ok .rolledBack, st.apply (settleBatch p l.startTs ⟨l.startTs, .rollback⟩))
      else (.ok (.locked l.ttl), st) := by
  obtain ⟨b, hb, hdec⟩ := view_lock_some hl
  simp only [checkPrimaryLock, Prog.run_lookup_bind, hb, hdec, if_true, Prog.run_clock_bind]
  split_ifs with hexp <;> rfl

theorem checkPrimaryLock_of_unlocked {p : Bytes} {s : UInt64}
    (hl : ∀ l, (view st).lock p = some l → l.startTs ≠ s) :
    (checkPrimaryLock p s).run clock st = (.ok .rolledBack, st) := by
  simp only [checkPrimaryLock, Prog.run_lookup_bind]
  cases hg : st.get .lock p with
  | none => rfl
  | some b =>
      cases hdec : Lock.fromBytes b with
      | error e => simp only [hdec, Prog.run_pure]
      | ok l => simp only [hdec, hl l (view_lock_of_get hg hdec), if_false, Prog.run_pure]

/-- What `check_txn_status` answers, and the store it leaves. -/
inductive Verdict (clock : ℕ → UInt64) (st : Store) (p : Bytes) (s : UInt64) :
    Except LockResolverError TxnStatus × Store → Prop where
  | decided {c : UInt64} {w : WriteRecord} (hd : Decides (view st) p s c w) :
      Verdict clock st p s (.ok (w.status c), st)
  | gone (hd : ∀ c w, ¬ Decides (view st) p s c w)
      (hl : ∀ l, (view st).lock p = some l → l.startTs ≠ s) :
      Verdict clock st p s (.ok .rolledBack, st)
  | expired {l : Lock} (hd : ∀ c w, ¬ Decides (view st) p s c w)
      (hl : (view st).lock p = some l) (hs : l.startTs = s) (hexp : expired (clock 0) s l.ttl) :
      Verdict clock st p s (.ok .rolledBack, st.apply (settleBatch p s ⟨s, .rollback⟩))
  | locked {l : Lock} (hd : ∀ c w, ¬ Decides (view st) p s c w)
      (hl : (view st).lock p = some l) (hs : l.startTs = s) (hexp : ¬ expired (clock 0) s l.ttl) :
      Verdict clock st p s (.ok (.locked l.ttl), st)

theorem checkTxnStatus_verdict (h : WF U st) (clock : ℕ → UInt64) (p : Bytes) (s : UInt64) :
    Verdict clock st p s ((LockResolver.checkTxnStatus p s).run clock st) := by
  by_cases hd : ∃ c w, Decides (view st) p s c w
  · obtain ⟨c, w, hd⟩ := hd
    rw [checkTxnStatus_of_decides h hd]
    exact .decided hd
  · have hun : ∀ c w, ¬ Decides (view st) p s c w := fun c w hd' => hd ⟨c, w, hd'⟩
    rw [checkTxnStatus_of_undecided h hun]
    by_cases hl : ∃ l, (view st).lock p = some l ∧ l.startTs = s
    · obtain ⟨l, hl, rfl⟩ := hl
      rw [checkPrimaryLock_of_locked hl]
      split_ifs with hexp
      · exact .expired hun hl rfl hexp
      · exact .locked hun hl rfl hexp
    · have hfree : ∀ l, (view st).lock p = some l → l.startTs ≠ s :=
        fun l hl' hs => hl ⟨l, hl', hs⟩
      rw [checkPrimaryLock_of_unlocked hfree]
      exact .gone hun hfree

/-- A status of `Committed` is read off a record. -/
lemma decides_of_committed (h : WF U st) {p : Bytes} {s c : UInt64}
    (hstatus : ((LockResolver.checkTxnStatus p s).run clock st).1 = .ok (.committed c)) :
    ∃ op, op ≠ .rollback ∧ Decides (view st) p s c ⟨s, op⟩ := by
  have hverdict := checkTxnStatus_verdict h clock p s
  generalize (LockResolver.checkTxnStatus p s).run clock st = res at hverdict hstatus
  cases hverdict with
  | @decided c' w hd =>
      obtain ⟨s', op⟩ := w
      obtain rfl : s' = s := hd.holds
      simp only [WriteRecord.status] at hstatus
      split_ifs at hstatus with hop
      · cases hstatus
      · simp only [Except.ok.injEq, TxnStatus.committed.injEq] at hstatus
        subst hstatus
        exact ⟨op, hop, hd⟩
  | gone _ _ => cases hstatus
  | expired _ _ _ _ => cases hstatus
  | locked _ _ _ _ => cases hstatus

lemma status_of_committed (h : WF U st) {p : Bytes} {s c : UInt64} {op : OpType}
    (hop : op ≠ .rollback) (hd : Decides (view st) p s c ⟨s, op⟩) :
    (LockResolver.checkTxnStatus p s).run clock st = (.ok (.committed c), st) := by
  rw [checkTxnStatus_of_decides h hd, WriteRecord.status, if_neg hop]

end

end AcidKv
