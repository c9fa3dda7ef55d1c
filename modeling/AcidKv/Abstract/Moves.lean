import AcidKv.Abstract.Scans
import AcidKv.Node.Calls
import Mathlib.Logic.Relation

/-!
# The moves of a request

Whatever a request does to a store, it does one key at a time.  `Move U T c v₀ v v'` lists these
steps on views: request `c` began at `v₀`, is now at `v` and turns it into `v'`, with clock
readings in `T`.  Each constructor carries the guards under which the code takes the step; the
guards that rest on a scan having missed nothing speak about reached versions only.

The `Refine` modules show that every request is a sequence of such moves, wherever it is cut off.  A
property of whole runs is then an invariant of `Move`.
-/

namespace AcidKv

open Coordinator LockResolver

namespace View

/-- A Put or Delete record of transaction `s` on `k`. -/
def Committed (v : View) (k : Bytes) (s c : UInt64) : Prop :=
  ∃ op, op ≠ OpType.rollback ∧ v.write k c = some ⟨s, op⟩

/-- A Rollback record of transaction `s` on `k`. -/
def RolledBack (v : View) (k : Bytes) (s : UInt64) : Prop :=
  ∃ ts, v.write k ts = some ⟨s, .rollback⟩

/-- Transaction `s` holds a lock on `k`. -/
def LockedBy (v : View) (k : Bytes) (s : UInt64) : Prop :=
  ∃ l, v.lock k = some l ∧ l.startTs = s

end View

/-- The keys that a scan over `[startKey, endKey)` covers. -/
def InRange (startKey endKey k : Bytes) : Prop :=
  (startKey = [] ∨ startKey ≤ k) ∧ (endKey = [] ∨ k < endKey)

instance (startKey endKey k : Bytes) : Decidable (InRange startKey endKey k) :=
  inferInstanceAs (Decidable (_ ∧ _))

/-- The two tests that a loop over a range makes on a key. -/
lemma inRange_iff {startKey endKey k : Bytes} : InRange startKey endKey k ↔
    ¬ (startKey ≠ [] ∧ k < startKey) ∧ ¬ (endKey ≠ [] ∧ endKey ≤ k) := by
  rw [InRange, not_and_or, not_and_or, List.not_lt, List.not_le, not_not, not_not]

/-- A request that began at `v₀` resolves a lock `l` standing on `k`, and passes it on to
`resolve_lock` as `lr`. -/
def Call.Resolves (v₀ : View) (k : Bytes) (l lr : Lock) : Call → Prop
  | .get userKey readTs =>
      k = userKey ∧ l.startTs ≤ readTs ∧ lr = reportedLock l.primaryKey l.startTs
  | .scan startKey endKey _ readTs =>
      InRange startKey endKey k ∧ (∃ ts w, v₀.write k ts = some w) ∧
        l.startTs ≤ readTs ∧ lr = reportedLock l.primaryKey l.startTs
  | .prewrite s ms _ _ => (∃ m ∈ ms, m.key = k) ∧ l.startTs ≠ s ∧ lr = l
  | .batchPrewrite s ms _ _ => (∃ m ∈ ms, m.key = k) ∧ l.startTs ≠ s ∧ lr = l
  | _ => False

lemma Call.Resolves.same {v₀ : View} {k : Bytes} {l lr : Lock} {c : Call}
    (h : c.Resolves v₀ k l lr) : lr.primaryKey = l.primaryKey ∧ lr.startTs = l.startTs := by
  cases c with
  | get _ _ => obtain ⟨-, -, rfl⟩ := h; exact ⟨rfl, rfl⟩
  | scan _ _ _ _ => obtain ⟨-, -, -, rfl⟩ := h; exact ⟨rfl, rfl⟩
  | prewrite _ _ _ _ => obtain ⟨-, -, rfl⟩ := h; exact ⟨rfl, rfl⟩
  | batchPrewrite _ _ _ _ => obtain ⟨-, -, rfl⟩ := h; exact ⟨rfl, rfl⟩
  | _ => exact absurd h id

/-- The op that a lock is resolved with is its own, or that of a put. -/
lemma Call.Resolves.op {v₀ : View} {k : Bytes} {l lr : Lock} {c : Call}
    (h : c.Resolves v₀ k l lr) : lr.op = l.op ∨ lr.op = .put := by
  cases c with
  | get _ _ => obtain ⟨-, -, rfl⟩ := h; exact Or.inr rfl
  | scan _ _ _ _ => obtain ⟨-, -, -, rfl⟩ := h; exact Or.inr rfl
  | prewrite _ _ _ _ => obtain ⟨-, -, rfl⟩ := h; exact Or.inl rfl
  | batchPrewrite _ _ _ _ => obtain ⟨-, -, rfl⟩ := h; exact Or.inl rfl
  | _ => exact absurd h id

/-- A request asks for the status of transaction `s` at its primary key `p`, either outright or
for a lock in its way. -/
def Call.Queries (c : Call) (v₀ v : View) (p : Bytes) (s : UInt64) : Prop :=
  c = .checkTxnStatus p s ∨
    ∃ k l lr, c.Resolves v₀ k l lr ∧ v.lock k = some l ∧ l.primaryKey = p ∧ l.startTs = s

lemma Call.Resolves.queries {c : Call} {v₀ v : View} {k : Bytes} {l lr : Lock}
    (h : c.Resolves v₀ k l lr) (hl : v.lock k = some l) :
    c.Queries v₀ v l.primaryKey l.startTs := Or.inr ⟨k, l, lr, h, hl, rfl, rfl⟩

/-- A prewrite resolves the locks of other transactions only. -/
lemma Call.Resolves.ne_start {c : Call} {v₀ : View} {k p : Bytes} {l lr : Lock} {s ttl : UInt64}
    {ms : List Mutation} (h : c.Resolves v₀ k l lr) (hc : c.prewriteArgs = some (s, ms, p, ttl)) :
    l.startTs ≠ s := by
  cases c with
  | prewrite _ _ _ _ => cases hc; exact h.2.1
  | batchPrewrite _ _ _ _ => cases hc; exact h.2.1
  | _ => cases hc

/-- No record of `s` on `p` that a scan gets to. -/
def Undecided (U : Set Bytes) (v : View) (p : Bytes) (s : UInt64) : Prop :=
  ∀ c op, v.write p c = some ⟨s, op⟩ → ¬ Reached U v p c

/-- What `check_txn_status` has seen when it reports a transaction as rolled back: a rollback
record or no lock, and no commit record that stands above every rollback record. -/
structure Dead (U : Set Bytes) (v : View) (p : Bytes) (s : UInt64) : Prop where
  gone : v.RolledBack p s ∨ ¬ v.LockedBy p s
  overruled : ∀ c, v.Committed p s c → Reached U v p c →
    ∃ ts, c < ts ∧ v.write p ts = some ⟨s, .rollback⟩

/-- If the request is a prewrite, `k` has passed its conflict check. -/
def Passed (U : Set Bytes) (c : Call) (v₀ v : View) (k : Bytes) : Prop :=
  ∀ s ms p ttl, c.prewriteArgs = some (s, ms, p, ttl) →
    ∀ ts w, v₀.write k ts = some w → Reached U v k ts → ts < s

/-- The first key of a commit comes before the key `k`; only in a single batch may it have been
skipped. -/
def FirstCommitted (c : Call) (v₀ v : View) (s ct : UInt64) (ks : List Bytes) (k : Bytes) : Prop :=
  ∀ p rest, ks = p :: rest → k = p ∨ v.Committed p s ct ∨
    c = .batchCommit s ct ks ∧ ¬ v₀.LockedBy p s

/-- One key's worth of a request. -/
inductive Move (U : Set Bytes) (T : UInt64 → Prop) (c : Call) (v₀ v : View) : View → Prop where
  /-- A prewrite stages a mutation; its key has passed the conflict check, and carries no lock
  of another transaction. -/
  | stage {s ttl : UInt64} {ms : List Mutation} {p : Bytes} {m : Mutation}
      (hc : c.prewriteArgs = some (s, ms, p, ttl)) (hm : m ∈ ms)
      (hcheck : ∀ ts w, v₀.write m.key ts = some w → Reached U v m.key ts → ts < s)
      (hfree : ∀ l, v.lock m.key = some l → l.startTs = s) :
      Move U T c v₀ v (v.stage s p ttl m)
  /-- A commit turns a lock of its transaction into a record. -/
  | commitKey {s ct : UInt64} {ks : List Bytes} {k : Bytes} {l : Lock}
      (hc : c.commitArgs = some (s, ct, ks)) (hk : k ∈ ks) (hl : v.lock k = some l)
      (hs : l.startTs = s) (hfirst : FirstCommitted c v₀ v s ct ks k) :
      Move U T c v₀ v (v.settle k ct ⟨s, l.op⟩)
  /-- A lock in the way whose primary is committed. -/
  | rollForward {k : Bytes} {l lr : Lock} {ts : UInt64} (hr : c.Resolves v₀ k l lr)
      (hpass : Passed U c v₀ v k) (hl : v.lock k = some l)
      (hp : v.Committed l.primaryKey l.startTs ts) (hseen : Seen v l.primaryKey ts) :
      Move U T c v₀ v (v.settle k ts ⟨l.startTs, lr.op⟩)
  /-- A primary lock that outlived its TTL. -/
  | expire {p : Bytes} {l : Lock} {now : UInt64} (hq : c.Queries v₀ v p l.startTs)
      (hl : v.lock p = some l) (hT : T now) (hexp : expired now l.startTs l.ttl)
      (hun : Undecided U v p l.startTs) :
      Move U T c v₀ v (v.settle p l.startTs ⟨l.startTs, .rollback⟩)
  /-- A lock in the way whose primary is rolled back or gone. -/
  | rollBack {k : Bytes} {l lr : Lock} (hr : c.Resolves v₀ k l lr) (hl : v.lock k = some l)
      (hdead : Dead U v l.primaryKey l.startTs) :
      Move U T c v₀ v (v.settle k l.startTs ⟨l.startTs, .rollback⟩)
  /-- A lock in the way whose primary is alive, but which is itself judged to have run out. -/
  | timeOut {k : Bytes} {l lr lp : Lock} {t t' : UInt64} (hr : c.Resolves v₀ k l lr)
      (hl : v.lock k = some l) (hlp : v.lock l.primaryKey = some lp)
      (hsame : lp.startTs = l.startTs) (hT : T t) (hlive : ¬ expired t l.startTs lp.ttl)
      (hT' : T t') (hexp : expired t' l.startTs lr.ttl)
      (hun : Undecided U v l.primaryKey l.startTs) :
      Move U T c v₀ v (v.settle k l.startTs ⟨l.startTs, .rollback⟩)
  /-- The client's rollback of a key it has locked. -/
  | abandon {s : UInt64} {ks : List Bytes} {k : Bytes} (hc : c = .rollback s ks) (hk : k ∈ ks)
      (hl : v.LockedBy k s) : Move U T c v₀ v (v.settle k s ⟨s, .rollback⟩)
  /-- The client's rollback of any other key. -/
  | forbid {s : UInt64} {ks : List Bytes} {k : Bytes} (hc : c = .rollback s ks) (hk : k ∈ ks)
      (hl : ¬ v.LockedBy k s) : Move U T c v₀ v (v.mark k s ⟨s, .rollback⟩)
  | refresh {p : Bytes} {s ttl : UInt64} {l : Lock} (hc : c = .heartbeat p s ttl)
      (hl : v.lock p = some l) (hs : l.startTs = s) :
      Move U T c v₀ v (v.putLock p { l with ttl := ttl })
  /-- Garbage collection: a record goes only if a newer one below the safe point stays. -/
  | collect {sp : UInt64} {v' : View} (hc : c = .gc sp) (hlock : v'.lock = v.lock)
      (hwrite : ∀ k ts w, v'.write k ts = some w → v.write k ts = some w)
      (hkept : ∀ k ts w, v.write k ts = some w → v'.write k ts = some w ∨
        ts < sp ∧ ∃ ts' w', ts < ts' ∧ ts' < sp ∧ v'.write k ts' = some w')
      (hdata : ∀ k s x, v'.data k s = some x → v.data k s = some x) :
      Move U T c v₀ v v'

/-- The moves of one request, up to some point. -/
abbrev Moves (U : Set Bytes) (T : UInt64 → Prop) (c : Call) (v₀ : View) : View → View → Prop :=
  Relation.ReflTransGen (Move U T c v₀)

section

variable {U : Set Bytes} {T : UInt64 → Prop} {c : Call} {v₀ v v' : View}

/-- Settling a key twice in the same way is settling it once. -/
@[simp] lemma View.settle_settle (k : Bytes) (ts : UInt64) (w : WriteRecord) :
    (v.settle k ts w).settle k ts w = v.settle k ts w := by
  ext1
  · funext k'; by_cases h : k' = k <;> simp [h]
  · funext k' ts'; by_cases h : k' = k ∧ ts' = ts <;> simp [h]
  · rfl

lemma View.stage_lock (s : UInt64) (p : Bytes) (ttl : UInt64) (m : Mutation) (k : Bytes) :
    (v.stage s p ttl m).lock k
      = if k = m.key then some (Lock.mk p s ttl m.opType).stored else v.lock k := rfl

/-- Without garbage collection a version once written stays in some form. -/
lemma Move.write_isSome (h : Move U T c v₀ v v') (hgc : ∀ sp, c ≠ .gc sp) {k : Bytes}
    {ts : UInt64} (hw : (v.write k ts).isSome) : (v'.write k ts).isSome := by
  cases h with
  | stage => exact hw
  | refresh => exact hw
  | collect hc => exact absurd hc (hgc _)
  | _ =>
      simp only [View.settle_write, View.mark_write]
      split_ifs
      · rfl
      · exact hw

lemma Moves.write_isSome (h : Moves U T c v₀ v v') (hgc : ∀ sp, c ≠ .gc sp) {k : Bytes}
    {ts : UInt64} (hw : (v.write k ts).isSome) : (v'.write k ts).isSome := by
  induction h with
  | refl => exact hw
  | tail _ hmove ih => exact hmove.write_isSome hgc ih

/-- More records can only hide more. -/
lemma Seen.anti {k : Bytes} {ts : UInt64}
    (h : ∀ k ts, (v.write k ts).isSome → (v'.write k ts).isSome) (hseen : Seen v' k ts) :
    Seen v k ts := by
  intro k' ts' w hw hle hlt
  obtain ⟨w', hw'⟩ := Option.isSome_iff_exists.mp (h k' ts' (by rw [hw]; rfl))
  exact hseen k' ts' w' hw' hle hlt

lemma Reached.anti {k : Bytes} {ts : UInt64}
    (h : ∀ k ts, (v.write k ts).isSome → (v'.write k ts).isSome) (hr : Reached U v' k ts) :
    Reached U v k ts := by
  rcases hr with hU | hseen
  · exact Or.inl hU
  · exact Or.inr (hseen.anti h)

end

end AcidKv
