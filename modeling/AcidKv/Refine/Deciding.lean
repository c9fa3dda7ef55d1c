import AcidKv.Abstract.Versions
import AcidKv.Node.Rules

/-!
# Who decides a transaction

The fate of a transaction `s` is a record on its primary key `p`.  A handler that writes one has
learnt of `s` by single steps, and another handler may decide between them.  `standing` is what a
handler has learnt so far, as a state machine over its steps: it has read the lock of `s` (`held`),
it has found or written a Rollback (`back`) or a Put or Delete (`done`).

`Deciding` is what the code ensures whatever the reads return: a handler rolls `s` back on `p` only
where it holds the lock of `s` or knows of a Rollback, and commits it only where it holds the lock
or knows of a commit.  That the lock is still there when the batch is committed is nowhere checked.
-/

namespace AcidKv

open Coordinator LockResolver KeyEncoder

/-- What a handler has learnt about the fate of a transaction. -/
inductive Standing where
  | unaware
  /-- It has been asked for the status and found no record; the lock comes next. -/
  | clear
  /-- It has read the lock of the transaction on its primary key. -/
  | held
  | back
  | done
  /-- It has read some other lock there. -/
  | other
  deriving DecidableEq

section Standing

variable (p : Bytes) (s : UInt64)

/-- The lock that a prewrite of `s` with primary key `p` leaves on `p`. -/
def Names (l : Lock) : Prop := l.primaryKey = p ∧ l.startTs = s

instance (l : Lock) : Decidable (Names p s l) := inferInstanceAs (Decidable (_ ∧ _))

/-- Requests that take a missing record and a missing lock on `p` for a rollback of `s`, and report
it or write it to `p`. -/
def asks : Call → Bool
  | .checkTxnStatus q u => q = p && u = s
  | .get k _ => k = p
  | _ => false

/-- The operation of a record of `s` on `p`. -/
def recordOp : BatchItem Part Bytes Bytes → Option OpType
  | .insert .write e bytes =>
      match decode e, WriteRecord.fromBytes bytes with
      | .ok (k, _), some w => if k = p ∧ w.startTs = s then some w.op else none
      | _, _ => none
  | _ => none

/-- The operation that a batch records for `s` on `p`. -/
def decision (b : Batch) : Option OpType := b.findSome? (recordOp p s)

namespace Standing

def looks (σ : Standing) (entry : Option Bytes) : Standing :=
  match entryLock entry with
  | some l => if Names p s l then (if σ = .back ∨ σ = .done then σ else .held) else .other
  | none => if σ = .clear then .back else σ

def learns (asked : Bool) (σ : Standing) : Except LockResolverError (Option TxnStatus) → Standing
  | .ok (some .rolledBack) => .back
  | .ok (some (.committed _)) => .done
  | .ok (some (.locked _)) => σ
  | .ok none => if asked then .clear else σ
  | .error _ => σ

def acts (σ : Standing) (touched : Bool) : Option OpType → Standing
  | some .rollback => .back
  | some _ => .done
  | none => if touched then .unaware else σ

def next (c : Call) (σ : Standing) (o : Obs Part Bytes Bytes UInt64) : Standing :=
  if σ = .other then .other else
  match o with
  | .got .lock k entry => if k = p then σ.looks p s entry else σ
  | .walked .write lo items =>
      if lo = encode p u64Max ∧ σ ≠ .back ∧ σ ≠ .done
      then σ.learns (asks p s c) (statusLoop p s items) else σ
  | .wrote b =>
      if σ = .back ∨ σ = .done then σ
      else σ.acts (batchLeaves b .lock p).isSome (decision p s b)
  | _ => σ

end Standing

def standing (c : Call) (h : Trace) : Standing := h.foldl (Standing.next p s c) .unaware

/-- Several keys settled for one transaction at once. -/
def settleAll (u ct : UInt64) (items : List (Bytes × OpType)) : Batch :=
  items.flatMap fun x => settleBatch x.1 ct ⟨u, x.2⟩

@[simp] lemma settleAll_nil (u ct : UInt64) : settleAll u ct [] = [] := rfl

@[simp] lemma settleAll_cons (u ct : UInt64) (x : Bytes × OpType) (items : List (Bytes × OpType)) :
    settleAll u ct (x :: items) = settleBatch x.1 ct ⟨u, x.2⟩ ++ settleAll u ct items := rfl

/-- What a handler with a standing may commit. -/
inductive Deciding (σ : Standing) : Batch → Prop where
  | other (b : Batch) (hσ : σ = .other) : Deciding σ b
  | settle (k : Bytes) (ts : UInt64) (w : WriteRecord)
      (hp : k = p → w.startTs = s ∧ (w.op = .rollback → σ = .held ∨ σ = .back) ∧
        (w.op ≠ .rollback → σ = .held ∨ σ = .done)) : Deciding σ (settleBatch k ts w)
  | commit (u ct : UInt64) (items : List (Bytes × OpType)) (hop : ∀ x ∈ items, x.2 ≠ .rollback)
      (hp : p ∈ items.map Prod.fst → u = s ∧ σ = .held) :
      Deciding σ (settleAll u ct items)
  | refresh (k : Bytes) (l : Lock) (hop : l.op ≠ .rollback) (hshort : l.primaryKey.length < 2 ^ 32)
      (hp : k = p → Names p s l ∧ (σ = .held)) : Deciding σ [.insert .lock k l.toBytes]

end Standing

section

variable {p : Bytes} {s : UInt64} {c : Call} {h : Trace}

/-! ## What a step tells -/

@[simp] lemma standing_nil : standing p s c [] = .unaware := rfl

lemma standing_append (h : Trace) (o : Obs Part Bytes Bytes UInt64) :
    standing p s c (h ++ [o]) = (standing p s c h).next p s c o := by
  simp [standing, List.foldl_append]

lemma standing_other (o : Obs Part Bytes Bytes UInt64) (hσ : standing p s c h = .other) :
    standing p s c (h ++ [o]) = .other := by
  rw [standing_append, hσ]
  rfl

@[simp] lemma standing_read (t : UInt64) :
    standing p s c (h ++ [Obs.read t]) = standing p s c h := by
  rw [standing_append]
  cases standing p s c h <;> rfl

lemma standing_got_of_ne {k : Bytes} (entry : Option Bytes) (hk : k ≠ p) :
    standing p s c (h ++ [Obs.got Part.lock k entry]) = standing p s c h := by
  rw [standing_append]
  cases standing p s c h <;> simp [Standing.next, hk]

lemma standing_got_none {entry : Option Bytes} (hentry : entryLock entry = none) :
    standing p s c (h ++ [Obs.got Part.lock p entry]) =
      if standing p s c h = .clear then .back else standing p s c h := by
  rw [standing_append]
  cases standing p s c h <;> simp [Standing.next, Standing.looks, hentry]

lemma standing_got_other {entry : Option Bytes} {l : Lock} (hentry : entryLock entry = some l)
    (hl : ¬ Names p s l) : standing p s c (h ++ [Obs.got Part.lock p entry]) = .other := by
  rw [standing_append]
  cases standing p s c h <;> simp [Standing.next, Standing.looks, hentry, hl]

lemma standing_got_held {entry : Option Bytes} {l : Lock} (hentry : entryLock entry = some l)
    (hl : Names p s l) : standing p s c (h ++ [Obs.got Part.lock p entry]) =
      if standing p s c h = .back ∨ standing p s c h = .done ∨ standing p s c h = .other
      then standing p s c h else .held := by
  rw [standing_append]
  cases standing p s c h <;> simp [Standing.next, Standing.looks, hentry, hl]

/-- Whoever reads a lock knows no more of `s` than before, or has met a foreign lock on `p`, or
holds the lock of `s`. -/
lemma standing_got_lock (p : Bytes) (s : UInt64) (c : Call) (h : Trace) (k : Bytes)
    {entry : Option Bytes} {l : Lock} (hl : entryLock entry = some l) :
    standing p s c (h ++ [Obs.got Part.lock k entry]) = .other ∨
      (k ≠ p ∧ standing p s c (h ++ [Obs.got Part.lock k entry]) = standing p s c h) ∨
      (k = p ∧ Names p s l ∧ standing p s c (h ++ [Obs.got Part.lock k entry]) =
        if standing p s c h = .back ∨ standing p s c h = .done
        then standing p s c h else .held) := by
  by_cases hk : k = p
  swap
  · exact Or.inr (Or.inl ⟨hk, standing_got_of_ne entry hk⟩)
  subst hk
  by_cases hnames : Names k s l
  swap
  · exact Or.inl (standing_got_other hl hnames)
  rw [standing_got_held hl hnames]
  by_cases hother : standing k s c h = .other
  · exact Or.inl (by simp [hother])
  · exact Or.inr (Or.inr ⟨rfl, hnames, by simp [hother]⟩)

/-- An entry without a lock tells something to a status request only. -/
lemma standing_got_blank {k : Bytes} {entry : Option Bytes} (hentry : entryLock entry = none)
    (hclear : standing p s c h ≠ .clear) :
    standing p s c (h ++ [Obs.got Part.lock k entry]) = standing p s c h := by
  by_cases hk : k = p
  · subst hk
    rw [standing_got_none hentry, if_neg hclear]
  · exact standing_got_of_ne entry hk

/-- Reads of other entries tell nothing. -/
lemma standing_got_part {part : Part} (k : Bytes) (value : Option Bytes) (hpart : part ≠ .lock) :
    standing p s c (h ++ [.got part k value]) = standing p s c h := by
  rw [standing_append]
  cases part with
  | lock => exact absurd rfl hpart
  | write => cases standing p s c h <;> rfl
  | default => cases standing p s c h <;> rfl

lemma standing_walked_of_ne {part : Part} {lo : Bytes} (items : List (Bytes × Bytes))
    (hne : ¬ (part = .write ∧ lo = encode p u64Max)) :
    standing p s c (h ++ [.walked part lo items]) = standing p s c h := by
  rw [standing_append]
  cases part with
  | lock => cases standing p s c h <;> rfl
  | default => cases standing p s c h <;> rfl
  | write =>
      have hlo : lo ≠ encode p u64Max := fun heq => hne ⟨rfl, heq⟩
      cases standing p s c h <;> simp [Standing.next, hlo]

lemma standing_walked (items : List (Bytes × Bytes)) :
    standing p s c (h ++ [Obs.walked Part.write (encode p u64Max) items]) =
      if standing p s c h = .back ∨ standing p s c h = .done ∨ standing p s c h = .other
      then standing p s c h
      else (standing p s c h).learns (asks p s c) (statusLoop p s items) := by
  rw [standing_append]
  cases standing p s c h <;> simp [Standing.next]

/-! ## What a batch tells -/

lemma decision_append (b b' : Batch) :
    decision p s (b ++ b') = (decision p s b).or (decision p s b') := by
  simp [decision, List.findSome?_append]

lemma decision_settle (k : Bytes) (ts : UInt64) (w : WriteRecord) :
    decision p s (settleBatch k ts w) = if k = p ∧ w.startTs = s then some w.op else none := by
  simp only [decision, settleBatch, List.findSome?_cons, List.findSome?_nil, recordOp,
    decode_encode, WriteRecord.fromBytes_toBytes]
  split_ifs <;> rfl

/-- Batches that have nothing to do with `p` or `s`. -/
lemma standing_wrote_elsewhere {b : Batch} (hlock : batchLeaves b .lock p = none)
    (hdec : decision p s b = none) : standing p s c (h ++ [Obs.wrote b]) = standing p s c h := by
  rw [standing_append]
  cases standing p s c h <;> simp [Standing.next, Standing.acts, hlock, hdec]

lemma standing_wrote_held {b : Batch} (hσ : standing p s c h = .held) :
    standing p s c (h ++ [Obs.wrote b])
      = Standing.held.acts (batchLeaves b .lock p).isSome (decision p s b) := by
  rw [standing_append, hσ]
  rfl

lemma standing_settle_of_ne {k : Bytes} (ts : UInt64) (w : WriteRecord) (hk : k ≠ p) :
    standing p s c (h ++ [Obs.wrote (settleBatch k ts w)]) = standing p s c h :=
  standing_wrote_elsewhere (by rw [batchLeaves_settle, if_neg (Ne.symm hk)])
    (by rw [decision_settle, if_neg fun heq => hk heq.1])

/-- Whoever settles `p` for `s` knows the fate of `s`. -/
lemma standing_settle (ts : UInt64) (op : OpType) :
    standing p s c (h ++ [Obs.wrote (settleBatch p ts ⟨s, op⟩)]) =
      if standing p s c h = .back ∨ standing p s c h = .done ∨ standing p s c h = .other
      then standing p s c h else if op = .rollback then .back else .done := by
  rw [standing_append]
  cases standing p s c h <;> cases op <;> simp [Standing.next, Standing.acts, decision_settle]

/-- A commit that has been seen or made stays known. -/
lemma standing_done (o : Obs Part Bytes Bytes UInt64) (hσ : standing p s c h = .done) :
    standing p s c (h ++ [o]) = .done ∨ standing p s c (h ++ [o]) = .other := by
  rw [standing_append, hσ]
  cases o with
  | got part k entry =>
      cases part with
      | lock =>
          by_cases hk : k = p
          · by_cases hl : ∃ l, entryLock entry = some l ∧ ¬ Names p s l
            · obtain ⟨l, hl, hnames⟩ := hl
              simp [Standing.next, Standing.looks, hk, hl, hnames]
            · cases hentry : entryLock entry <;>
                simp_all [Standing.next, Standing.looks]
          · simp [Standing.next, hk]
      | write => simp [Standing.next]
      | default => simp [Standing.next]
  | walked part lo items => cases part <;> simp [Standing.next]
  | read t => exact Or.inl rfl
  | wrote b => simp [Standing.next]

/-! ## Nothing to verify -/

/-- A handler that has read another lock on `p` may do as it likes. -/
lemma always_other {ε α : Type} (x : Handler ε α) {Q : Except ε α → Trace → Prop}
    (hQ : ∀ out h', standing p s c h' = .other → Q out h') (hσ : standing p s c h = .other) :
    x.Always (fun h b => Deciding p s (standing p s c h) b) Q h :=
  x.always_of_stable (fun _ o => standing_other o) (fun _ b => Deciding.other b) hQ hσ

lemma deciding_settle {σ : Standing} {k : Bytes} {ts u : UInt64} {op : OpType}
    (hp : k = p → σ = .other ∨ u = s ∧ (op = .rollback → σ = .held ∨ σ = .back) ∧
      (op ≠ .rollback → σ = .held ∨ σ = .done)) : Deciding p s σ (settleBatch k ts ⟨u, op⟩) := by
  by_cases hother : σ = .other
  · exact .other _ hother
  · exact .settle k ts ⟨u, op⟩ fun hk => (hp hk).resolve_left hother

/-! ## The status -/

/-- A status that the scan reports stands for a record that is there. -/
lemma statusLoop_some {q : Bytes} {u : UInt64} {items : List (Bytes × Bytes)} {status : TxnStatus}
    (hfound : statusLoop q u items = .ok (some status)) :
    ∃ ts b op, (encode q ts, b) ∈ items ∧ WriteRecord.fromBytes b = some ⟨u, op⟩ ∧
      status = (WriteRecord.mk u op).status ts := by
  induction items with
  | nil => cases hfound
  | cons x items ih =>
      obtain ⟨e, b⟩ := x
      have hrest : statusLoop q u items = .ok (some status) →
          ∃ ts b' op, (encode q ts, b') ∈ (e, b) :: items ∧
            WriteRecord.fromBytes b' = some ⟨u, op⟩ ∧ status = (WriteRecord.mk u op).status ts := by
        intro hrest
        obtain ⟨ts, b', op, hm, hb'⟩ := ih hrest
        exact ⟨ts, b', op, List.mem_cons_of_mem _ hm, hb'⟩
      simp only [statusLoop] at hfound
      cases hdec : decode e with
      | error err => simp [hdec] at hfound
      | ok kt =>
          simp only [hdec] at hfound
          split_ifs at hfound with hk
          · subst hk
            cases hw : WriteRecord.fromBytes b with
            | none =>
                simp only [hw] at hfound
                exact hrest hfound
            | some w =>
                obtain ⟨t, op⟩ := w
                simp only [hw] at hfound
                split_ifs at hfound with ht
                · subst ht
                  refine ⟨kt.2, b, op, ?_, hw, ?_⟩
                  · rw [encode_of_decode hdec]
                    exact List.mem_cons_self
                  · cases op <;> simp_all [WriteRecord.status]
                · exact hrest hfound
          · cases hfound

/-- What a handler knows once it has the status. -/
def Told (σ : Standing) : Except LockResolverError TxnStatus → Prop
  | .ok .rolledBack => σ = .back
  | .ok (.committed _) => σ = .done
  | .ok (.locked _) => σ = .held
  | .error _ => True

/-- The outcome of a status request for `u` on `q`. -/
def StatusTold (p : Bytes) (s : UInt64) (c : Call) (q : Bytes) (u : UInt64)
    (out : Except LockResolverError TxnStatus) (h' : Trace) : Prop :=
  standing p s c h' = .other ∨
    (asks p s c = true → q = p → u = s → Told (standing p s c h') out)

/-- No decision is known yet. -/
def Standing.Open (σ : Standing) : Prop := σ ≠ .back ∧ σ ≠ .done

lemma StatusTold.read {q : Bytes} {u : UInt64} {out : Except LockResolverError TxnStatus}
    (hout : StatusTold p s c q u out h) (t : UInt64) :
    StatusTold p s c q u out (h ++ [Obs.read t]) := by
  rw [StatusTold, standing_read]
  exact hout

lemma checkPrimaryLock_deciding (q : Bytes) (u : UInt64)
    (hopen : q = p → u = s → (standing p s c h).Open)
    (hclear : asks p s c = true → q = p → u = s → standing p s c h = .clear) :
    (checkPrimaryLock q u).Always (fun h b => Deciding p s (standing p s c h) b)
      (StatusTold p s c q u) h := by
  refine checkPrimaryLock_always ?_ ?_ ?_
  · intro entry hforeign
    cases hentry : entryLock entry with
    | none =>
        refine Or.inr fun hasks hq hu => ?_
        subst hq
        rw [Told, standing_got_none hentry, if_pos (hclear hasks rfl hu)]
    | some l =>
        rcases standing_got_lock p s c h q hentry with hσ | ⟨hq, -⟩ | ⟨-, hnames, -⟩
        · exact Or.inl hσ
        · exact Or.inr fun _ heq => absurd heq hq
        · exact Or.inr fun _ _ hu => absurd (hnames.2.trans hu.symm) (hforeign l hentry)
  · -- The lock of `u` has expired: if it is that of `s`, the handler holds it.
    intro entry l t hl hu _
    rcases standing_got_lock p s c h q hl with hσ | ⟨hq, -⟩ | ⟨rfl, hnames, hσ⟩
    · have hσ' := standing_other (.read t) hσ
      exact ⟨.other _ hσ', Or.inl (standing_other _ hσ')⟩
    · exact ⟨deciding_settle fun heq => absurd heq hq, Or.inr fun _ heq => absurd heq hq⟩
    · obtain rfl : u = s := hu.symm.trans hnames.2
      rw [if_neg (not_or.mpr (hopen rfl rfl))] at hσ
      refine ⟨deciding_settle fun _ => Or.inr ⟨rfl, fun _ => Or.inl ?_, fun hop => absurd rfl hop⟩,
        Or.inr fun _ _ _ => ?_⟩
      · rw [standing_read, hσ]
      · rw [Told, standing_settle, standing_read, hσ]
        rfl
  · intro entry l t hl hu _
    refine StatusTold.read ?_ t
    rcases standing_got_lock p s c h q hl with hσ | ⟨hq, -⟩ | ⟨rfl, hnames, hσ⟩
    · exact Or.inl hσ
    · exact Or.inr fun _ heq => absurd heq hq
    · refine Or.inr fun _ _ hus => ?_
      rw [Told, hσ, if_neg (not_or.mpr (hopen rfl hus))]

lemma checkTxnStatus_deciding (q : Bytes) (u : UInt64)
    (hopen : q = p → u = s → (standing p s c h).Open) :
    (LockResolver.checkTxnStatus q u).Always (fun h b => Deciding p s (standing p s c h) b)
      (StatusTold p s c q u) h := by
  by_cases hother : standing p s c h = .other
  · exact always_other _ (fun out h' hσ => Or.inl hσ) hother
  by_cases hus : q = p ∧ u = s
  swap
  · have hvoid : ∀ out h', StatusTold p s c q u out h' :=
      fun out h' => Or.inr fun _ hq hu => absurd ⟨hq, hu⟩ hus
    refine checkTxnStatus_always (fun _ _ _ => hvoid _ _) (fun _ _ _ => hvoid _ _) fun items _ => ?_
    exact checkPrimaryLock_deciding q u (fun hq hu => absurd ⟨hq, hu⟩ hus)
      fun _ hq hu => absurd ⟨hq, hu⟩ hus
  obtain ⟨rfl, rfl⟩ := hus
  have hwalk : ∀ items, standing q u c (h ++ [Obs.walked Part.write (encode q u64Max) items])
      = (standing q u c h).learns (asks q u c) (statusLoop q u items) := by
    intro items
    rw [standing_walked, if_neg]
    rintro (hσ | hσ | hσ)
    · exact (hopen rfl rfl).1 hσ
    · exact (hopen rfl rfl).2 hσ
    · exact hother hσ
  refine checkTxnStatus_always ?_ ?_ ?_
  · exact fun items e _ => Or.inr fun _ _ _ => trivial
  · intro items status hfound
    have hσ := hwalk items
    rw [hfound] at hσ
    cases status with
    | committed ct => exact Or.inr fun _ _ _ => hσ
    | rolledBack => exact Or.inr fun _ _ _ => hσ
    | locked ttl =>
        obtain ⟨ts, b, op, -, -, hstatus⟩ := statusLoop_some hfound
        cases op <;> cases hstatus
  · intro items hnone
    have hσ := hwalk items
    rw [hnone, Standing.learns] at hσ
    refine checkPrimaryLock_deciding q u (fun _ _ => ?_) fun hasks _ _ => ?_
    · rw [hσ]
      split_ifs
      · exact ⟨by decide, by decide⟩
      · exact hopen rfl rfl
    · rw [hσ, if_pos hasks]

/-! ## Reads -/

lemma resolveLock_deciding (k : Bytes) (lock : Lock) (hop : lock.op ≠ .rollback)
    (hk : k = p → Names p s lock ∧ asks p s c = true)
    (hopen : Names p s lock → (standing p s c h).Open) :
    (resolveLock k lock).Always (fun h b => Deciding p s (standing p s c h) b) (fun _ _ => True)
      h := by
  have hstatus := checkTxnStatus_deciding lock.primaryKey lock.startTs
    fun hq hu => hopen ⟨hq, hu⟩
  refine resolveLock_always hstatus (fun _ _ t hout => hout.read t) (fun _ _ _ _ => trivial) ?_ ?_
  · intro ct h' hout
    refine ⟨deciding_settle fun hkp => ?_, trivial⟩
    obtain ⟨hnames, hasks⟩ := hk hkp
    refine hout.imp_right fun htold => ?_
    have hσ : standing p s c h' = .done := htold hasks hnames.1 hnames.2
    exact ⟨hnames.2, fun hop' => absurd hop' hop, fun _ => Or.inr hσ⟩
  · intro status h' hout hne
    refine ⟨deciding_settle fun hkp => ?_, trivial⟩
    obtain ⟨hnames, hasks⟩ := hk hkp
    refine hout.imp_right fun htold => ⟨hnames.2, fun _ => ?_, fun hop => absurd rfl hop⟩
    have hσ : Told (standing p s c h') (.ok status) := htold hasks hnames.1 hnames.2
    cases status with
    | committed ct => exact absurd rfl (hne ct)
    | rolledBack => exact Or.inr hσ
    | locked ttl => exact Or.inl hσ

/-- A handler that starts with a point read knows of the lock that it has to resolve. -/
lemma get_deciding (k : Bytes) (r : UInt64) (hc : c = .get k r) :
    (Coordinator.get k r).Always (fun h b => Deciding p s (standing p s c h) b) (fun _ _ => True)
      [] := by
  refine get_always fun entry l hl => ?_
  rcases standing_got_lock p s c [] k hl with hσ | ⟨hk, hσ⟩ | ⟨rfl, hnames, hσ⟩
  · exact always_other _ (fun _ _ _ => trivial) hσ
  · refine resolveLock_deciding k _ OpType.noConfusion (fun heq => absurd heq hk) fun _ => ?_
    rw [hσ]
    simp [Standing.Open]
  · refine resolveLock_deciding k _ OpType.noConfusion (fun _ => ⟨hnames, by simp [hc, asks]⟩)
      fun _ => ?_
    rw [hσ]
    simp [Standing.Open]

/-! ## Commits -/

/-- Where the handler of a commit stands. -/
def Standing.Committing (σ : Standing) : Prop := σ ≠ .clear ∧ σ ≠ .back

lemma Standing.Committing.got (hσ : (standing p s c h).Committing) (k : Bytes)
    (entry : Option Bytes) : (standing p s c (h ++ [Obs.got Part.lock k entry])).Committing := by
  cases hentry : entryLock entry with
  | none => rwa [standing_got_blank hentry hσ.1]
  | some l =>
      rcases standing_got_lock p s c h k hentry with heq | ⟨-, heq⟩ | ⟨-, -, heq⟩
      · rw [heq]
        exact ⟨by decide, by decide⟩
      · rwa [heq]
      · rw [heq]
        split_ifs
        · exact hσ
        · exact ⟨by decide, by decide⟩

/-- The step in which a commit settles a key whose lock it has just read. -/
lemma settle_committing {k : Bytes} {entry : Option Bytes} {l : Lock}
    (hσ : (standing p s c h).Committing) (hl : entryLock entry = some l) (ct : UInt64) :
    Deciding p s (standing p s c (h ++ [Obs.got Part.lock k entry]))
        (settleBatch k ct ⟨l.startTs, l.op⟩) ∧
      (standing p s c (h ++ [Obs.got Part.lock k entry] ++
        [Obs.wrote (settleBatch k ct ⟨l.startTs, l.op⟩)])).Committing ∧
      (k = p → standing p s c (h ++ [Obs.got Part.lock k entry] ++
          [Obs.wrote (settleBatch k ct ⟨l.startTs, l.op⟩)]) = .done ∨
        standing p s c (h ++ [Obs.got Part.lock k entry] ++
          [Obs.wrote (settleBatch k ct ⟨l.startTs, l.op⟩)]) = .other) := by
  rcases standing_got_lock p s c h k hl with hgot | ⟨hk, hgot⟩ | ⟨rfl, hnames, hgot⟩
  · have hother := standing_other (.wrote (settleBatch k ct ⟨l.startTs, l.op⟩)) hgot
    rw [hother]
    exact ⟨.other _ hgot, ⟨by decide, by decide⟩, fun _ => Or.inr rfl⟩
  · rw [standing_settle_of_ne _ _ hk, hgot]
    exact ⟨deciding_settle fun heq => absurd heq hk, hσ, fun heq => absurd heq hk⟩
  · obtain ⟨b, -, hb⟩ := entryLock_some hl
    have hop : l.op ≠ .rollback := (Lock.of_fromBytes hb).1
    have hheld : standing k s c (h ++ [Obs.got Part.lock k entry]) = .held ∨
        standing k s c (h ++ [Obs.got Part.lock k entry]) = .done := by
      rw [hgot]
      split_ifs with hknown
      · exact Or.inr (hknown.resolve_left hσ.2)
      · exact Or.inl rfl
    refine ⟨deciding_settle fun _ => Or.inr ⟨hnames.2, fun hop' => absurd hop' hop, fun _ => hheld⟩,
      ?_⟩
    rw [hnames.2, standing_settle]
    rcases hheld with hσ' | hσ' <;> simp [hσ', hop, Standing.Committing]

lemma commitSecondaries_deciding (u ct : UInt64) (ks : List Bytes)
    (hσ : (standing p s c h).Committing) :
    (commitSecondaries u ct ks).Always (fun h b => Deciding p s (standing p s c h) b)
      (fun _ _ => True) h := by
  refine (commitSecondaries_always (I := fun h => (standing p s c h).Committing) ks ?_ ?_ hσ).mono
    fun _ _ _ => trivial
  · exact fun k entry h hσ => hσ.got k entry
  · rintro k entry l h hσ hl rfl
    obtain ⟨hdeciding, hafter, -⟩ := settle_committing (k := k) hσ hl ct
    exact ⟨hdeciding, hafter⟩

/-- A commit that succeeds knows the fate of the transaction if the primary key comes first. -/
lemma commit_deciding (u ct : UInt64) (ks : List Bytes) :
    (Coordinator.commit u ct ks).Always (fun h b => Deciding p s (standing p s c h) b)
      (fun out h' => ∀ rest, ks = p :: rest → out = .ok () →
        standing p s c h' = .done ∨ standing p s c h' = .other) [] := by
  cases ks with
  | nil => exact fun rest heq => by cases heq
  | cons k ks =>
      refine commit_always (fun e h' rest _ hok => by cases hok) ?_
      rintro entry l hl rfl
      have hstart : (standing p s c []).Committing := by simp [Standing.Committing]
      obtain ⟨hdeciding, hafter, hdone⟩ := settle_committing (k := k) hstart hl ct
      refine ⟨hdeciding, ?_⟩
      -- The knowledge of the commit stays through the secondaries.
      refine ((commitSecondaries_deciding l.startTs ct ks hafter).keep
        (R := fun h => k = p → standing p s c h = .done ∨ standing p s c h = .other) ?_ hdone).mono
        fun out h' hout rest heq _ => hout.2 (List.cons.inj heq).1
      intro h o hknown hk
      rcases hknown hk with hσ | hσ
      · exact standing_done o hσ
      · exact Or.inr (standing_other o hσ)

/-- The batch of `batch_commit` so far: it settles keys whose locks the handler has read. -/
def Collected (p : Bytes) (s : UInt64) (c : Call) (u ct : UInt64) (h : Trace) (b : Batch) : Prop :=
  standing p s c h = .other ∨
    (standing p s c h = .unaware ∨ standing p s c h = .held) ∧
      ∃ items : List (Bytes × OpType), (∀ x ∈ items, x.2 ≠ .rollback) ∧
        b = settleAll u ct items ∧
        (p ∈ items.map Prod.fst → u = s ∧ standing p s c h = .held)

lemma Collected.got {u ct : UInt64} {b : Batch} (hb : Collected p s c u ct h b) (k : Bytes)
    (entry : Option Bytes) : Collected p s c u ct (h ++ [Obs.got Part.lock k entry]) b := by
  rcases hb with hσ | ⟨hσ, items, hop, rfl, hp⟩
  · exact Or.inl (standing_other _ hσ)
  have hclear : standing p s c h ≠ .clear := by rcases hσ with hσ | hσ <;> simp [hσ]
  have hknown : ¬ (standing p s c h = .back ∨ standing p s c h = .done) := by
    rcases hσ with hσ | hσ <;> simp [hσ]
  cases hentry : entryLock entry with
  | none =>
      refine Or.inr ?_
      rw [standing_got_blank hentry hclear]
      exact ⟨hσ, items, hop, rfl, hp⟩
  | some l =>
      rcases standing_got_lock p s c h k hentry with hgot | ⟨-, hgot⟩ | ⟨-, -, hgot⟩
      · exact Or.inl hgot
      · refine Or.inr ?_
        rw [hgot]
        exact ⟨hσ, items, hop, rfl, hp⟩
      · rw [if_neg hknown] at hgot
        exact Or.inr ⟨Or.inr hgot, items, hop, rfl, fun hmem => ⟨(hp hmem).1, hgot⟩⟩

/-- One more key, whose lock has just been read. -/
lemma Collected.snoc {ct : UInt64} {b : Batch} {k : Bytes} {entry : Option Bytes} {l : Lock}
    (hb : Collected p s c l.startTs ct h b) (hl : entryLock entry = some l) :
    Collected p s c l.startTs ct (h ++ [Obs.got Part.lock k entry])
      (b ++ settleBatch k ct ⟨l.startTs, l.op⟩) := by
  rcases hb with hσ | ⟨hσ, items, hop, rfl, hp⟩
  · exact Or.inl (standing_other _ hσ)
  have hsnoc : settleAll l.startTs ct items ++ settleBatch k ct ⟨l.startTs, l.op⟩
      = settleAll l.startTs ct (items ++ [(k, l.op)]) := by simp [settleAll]
  have hop' : ∀ x ∈ items ++ [(k, l.op)], x.2 ≠ .rollback := by
    obtain ⟨b, -, hb⟩ := entryLock_some hl
    intro x hx
    rcases List.mem_append.mp hx with hx | hx
    · exact hop x hx
    · rw [List.mem_singleton.mp hx]
      exact (Lock.of_fromBytes hb).1
  rcases standing_got_lock p s c h k hl with hgot | ⟨hk, hgot⟩ | ⟨rfl, hnames, hgot⟩
  · exact Or.inl hgot
  · refine Or.inr ?_
    rw [hgot]
    exact ⟨hσ, _, hop', hsnoc, fun hmem => hp (by simpa [Ne.symm hk] using hmem)⟩
  · rw [if_neg (by rcases hσ with hσ | hσ <;> simp [hσ])] at hgot
    exact Or.inr ⟨Or.inr hgot, _, hop', hsnoc, fun _ => ⟨hnames.2, hgot⟩⟩

lemma batchCommit_deciding (u ct : UInt64) (ks : List Bytes) :
    (batchCommit u ct ks).Always (fun h b => Deciding p s (standing p s c h) b)
      (fun _ _ => True) [] := by
  have hempty : Collected p s c u ct [] [] := Or.inr ⟨Or.inl rfl, [], by simp, rfl, by simp⟩
  refine batchCommit_always (I := fun b h => Collected p s c u ct h b) ks ?_ ?_ ?_ hempty
  · exact fun k entry b h hb => hb.got k entry
  · rintro k entry l b h hb hl rfl
    exact hb.snoc hl
  · rintro b h (hσ | ⟨-, items, hop, rfl, hp⟩)
    · exact .other _ hσ
    · exact .commit u ct items hop hp

/-! ## Heartbeats -/

lemma heartbeat_deciding (q : Bytes) (u ttl : UInt64) :
    (heartbeat q u ttl).Always (fun h b => Deciding p s (standing p s c h) b)
      (fun _ _ => True) [] := by
  refine heartbeat_always fun entry l hl _ => ?_
  obtain ⟨b, -, hb⟩ := entryLock_some hl
  obtain ⟨hop, hshort⟩ := Lock.of_fromBytes hb
  rcases standing_got_lock p s c [] q hl with hσ | ⟨hq, -⟩ | ⟨rfl, hnames, hσ⟩
  · exact .other _ hσ
  · exact .refresh q { l with ttl := ttl } hop hshort fun heq => absurd heq hq
  · exact .refresh q { l with ttl := ttl } hop hshort fun _ => ⟨hnames, hσ⟩

end

/-! ## Requests -/

/-- The requests that may be under way. -/
def Admitted : Call → Prop
  | .commit _ _ _ | .batchCommit _ _ _ | .heartbeat _ _ _ | .checkTxnStatus _ _ | .get _ _ => True
  | _ => False

/-- What the reply says about the fate of `s`. -/
def Concluded (p : Bytes) (s : UInt64) (c : Call) (out : Answer) (h : Trace) : Prop :=
  standing p s c h = .other ∨
    ((∃ ct rest, c = .commit s ct (p :: rest)) → out = .ok .done → standing p s c h = .done) ∧
      (c = .checkTxnStatus p s → out = .ok (.status .rolledBack) → standing p s c h = .back)

/-- The replies to other requests say nothing about it. -/
lemma concluded_of_ne {p : Bytes} {s : UInt64} {c : Call}
    (hcommit : ∀ ct rest, c ≠ .commit s ct (p :: rest)) (hstatus : c ≠ .checkTxnStatus p s)
    (out : Answer) (h : Trace) : Concluded p s c out h := by
  refine Or.inr ⟨?_, fun heq => absurd heq hstatus⟩
  rintro ⟨ct, rest, heq⟩
  exact absurd heq (hcommit ct rest)

theorem handler_deciding (p : Bytes) (s : UInt64) {c : Call} (hc : Admitted c) :
    c.handler.Always (fun h b => Deciding p s (standing p s c h) b) (Concluded p s c) [] := by
  have hplain : ∀ {α : Type} {x : Handler TxnError α} {f : α → Reply},
      (∀ ct rest, c ≠ .commit s ct (p :: rest)) → c ≠ .checkTxnStatus p s →
      x.Always (fun h b => Deciding p s (standing p s c h) b) (fun _ _ => True) [] →
      (do return f (← x) : Handler TxnError Reply).Always
        (fun h b => Deciding p s (standing p s c h) b) (Concluded p s c) [] :=
    fun hcommit hstatus hx => (Prog.always_bind_pure _ _ _).mpr
      (hx.mono fun out h' _ => concluded_of_ne hcommit hstatus _ h')
  cases c with
  | commit u ct ks =>
      refine (Prog.always_bind_pure _ _ _).mpr ((commit_deciding u ct ks).mono ?_)
      intro out h' hout
      cases out with
      | error e => exact Or.inr ⟨fun _ hok => (by cases hok), fun heq => by cases heq⟩
      | ok v =>
          by_cases hother : standing p s (.commit u ct ks) h' = .other
          · exact Or.inl hother
          refine Or.inr ⟨?_, fun heq => by cases heq⟩
          rintro ⟨ct', rest, heq⟩ -
          cases heq
          exact (hout rest rfl rfl).resolve_right hother
  | batchCommit u ct ks => exact hplain (by simp) (by simp) (batchCommit_deciding u ct ks)
  | heartbeat q u ttl => exact hplain (by simp) (by simp) (heartbeat_deciding q u ttl)
  | get k r => exact hplain (by simp) (by simp) (get_deciding k r rfl)
  | checkTxnStatus q u =>
      refine (Prog.always_bind_pure _ _ _).mpr ?_
      simp only [Coordinator.checkTxnStatus, Prog.always_mapError]
      refine (checkTxnStatus_deciding q u fun _ _ => by simp [Standing.Open]).mono ?_
      intro out h' hout
      have hcommit : ¬ ∃ ct rest, Call.checkTxnStatus q u = .commit s ct (p :: rest) := by
        rintro ⟨ct, rest, ⟨⟩⟩
      cases out with
      | error e => exact Or.inr ⟨fun heq => absurd heq hcommit, fun _ hok => by cases hok⟩
      | ok status =>
          refine hout.imp_right fun htold => ⟨fun heq => absurd heq hcommit, ?_⟩
          rintro heq hok
          cases heq
          cases hok
          exact htold (by simp [asks]) rfl rfl
  | prewrite | batchPrewrite | rollback | scan | gc => exact hc.elim

end AcidKv
