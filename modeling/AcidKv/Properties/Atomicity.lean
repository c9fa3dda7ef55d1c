import AcidKv.Properties.Clients
import AcidKv.Properties.Finality

/-!
# All-or-nothing commit

The primary key decides for a transaction: a key is committed only when the primary is, and a key
is rolled back only when the primary is neither committed nor going to be.  `Atomic` says so, and
the rest of the invariant is there to keep the primary's commit record in place.

Five things in the code go past the primary.  `resolve_lock` rolls back a lock that it judges to
have run out although the primary is alive.  `check_txn_status` treats whatever key it is asked
about as a primary one.  `batch_commit` goes on without the primary when that is no longer
locked.  The scans overlook a record behind an entry of another key, and so miss a commit of the
primary or place a lock on top of it.  And a primary key of 4 GiB or more is not the one that its
locks name.  `AtomicSafe` leaves these out.
-/

namespace AcidKv

open LockResolver

/-- A prewrite of `s` names `p` as the primary key. -/
def PrimaryOf (calls : List Call) (s : UInt64) (p : Bytes) : Prop :=
  ∃ c ∈ calls, ∃ ms ttl, c.prewriteArgs = some (s, ms, p, ttl)

/-- A prewrite of `s` has returned `Ok`. -/
def Acked (log : List Entry) (s : UInt64) : Prop :=
  ∃ en ∈ log, ∃ ms p ttl, en.event.call.prewriteArgs = some (s, ms, p, ttl) ∧
    en.reply = some (.ok .done)

/-- The clients' protocol, as far as it matters: neither rollbacks nor garbage collection, one
prewrite call for each transaction, and commits after their start, after the prewrite has returned
`Ok` and with the primary key first. -/
structure Follows (log : List Entry) (calls : List Call) (c : Call) : Prop where
  noRollback : ∀ s ks, c ≠ .rollback s ks
  noGc : ∀ sp, c ≠ .gc sp
  once : ∀ s ms p ttl, c.prewriteArgs = some (s, ms, p, ttl) → ∀ p', ¬ PrimaryOf calls s p'
  commit : ∀ s ct ks, c.commitArgs = some (s, ct, ks) →
    s < ct ∧ Acked log s ∧ ∃ p, PrimaryOf calls s p ∧ ks.head? = some p

/-- What keeps a request that begins at `v` from going past the primary key. -/
structure AtomicSafe (T : UInt64 → Prop) (log : List Entry) (calls : List Call) (v : View)
    (c : Call) : Prop where
  /-- Locks name the primary key as it is. -/
  stored : ∀ s ms p ttl, c.prewriteArgs = some (s, ms, p, ttl) → Lock.storedKey p = p
  /-- The commit of the primary is in sight of those who resolve another lock of it. -/
  resolvedSeen : ∀ k l lr, c.Resolves v k l lr → v.lock k = some l →
    ∀ ct, v.Committed l.primaryKey l.startTs ct → Exposed c v l.primaryKey ct
  /-- It is in sight of the conflict check of a later prewrite. -/
  checkedSeen : ∀ t k, c.Mutates t k → ∀ s ct, PrimaryOf calls s k → v.Committed k s ct →
    t ≤ ct → Exposed c v k ct
  /-- While the primary of a prewritten transaction is alive, its other locks do not run out by the
  TTL that they are judged by. -/
  inTime : ∀ k l lr lp t t', c.Resolves v k l lr → v.lock k = some l → k ≠ l.primaryKey →
    v.lock l.primaryKey = some lp → lp.startTs = l.startTs → Acked log l.startTs →
    T t → ¬ expired t l.startTs lp.ttl → T t' → ¬ expired t' l.startTs lr.ttl
  /-- No status query finds a lock expired that is not the primary one, unless the primary is
  neither committed nor about to be. -/
  queried : ∀ k l now, c = .checkTxnStatus k l.startTs → v.lock k = some l → k ≠ l.primaryKey →
    T now → expired now l.startTs l.ttl →
    (∀ ct, ¬ v.Committed l.primaryKey l.startTs ct) ∧
      (Acked log l.startTs → ¬ v.LockedBy l.primaryKey l.startTs)
  /-- A batch that commits anything commits the primary key or finds it committed. -/
  batch : ∀ s ct p rest k, c = .batchCommit s ct (p :: rest) → k ∈ p :: rest → v.LockedBy k s →
    v.LockedBy p s ∨ ∃ ct', v.Committed p s ct'

/-- Locks and records go back to prewrites, which say what the primary key is. -/
structure Known (calls : List Call) (v : View) : Prop where
  unique : ∀ s p p', PrimaryOf calls s p → PrimaryOf calls s p' → p = p'
  stored : ∀ s p, PrimaryOf calls s p → Lock.storedKey p = p
  locks : LocksFrom calls v
  records : ∀ k ts s op, v.write k ts = some ⟨s, op⟩ → ∃ p, PrimaryOf calls s p
  forward : Forward v
  unmixed : Unmixed v

/-- The primary key decides. -/
structure Atomic (log : List Entry) (calls : List Call) (v : View) : Prop
    extends Known calls v where
  primary : ∀ s p k ct, PrimaryOf calls s p → v.Committed k s ct → ∃ ct', v.Committed p s ct'
  /-- The commit of the primary is older than the lock on its key, and so stays. -/
  fresh : ∀ s p ct l, PrimaryOf calls s p → v.Committed p s ct → v.lock p = some l →
    ct < l.startTs
  doomed : ∀ s p k, PrimaryOf calls s p → Acked log s → v.RolledBack k s → ¬ v.LockedBy p s
  whole : ∀ k k' s ct, v.Committed k s ct → ¬ v.RolledBack k' s

section

variable {U : Set Bytes} {T : UInt64 → Prop} {c : Call} {v₀ v v' : View} {log : List Entry}
  {calls : List Call}

lemma primaryOf_append {s : UInt64} {p : Bytes} : PrimaryOf (calls ++ [c]) s p ↔
    PrimaryOf calls s p ∨ ∃ ms ttl, c.prewriteArgs = some (s, ms, p, ttl) := by
  simp [PrimaryOf, or_and_right, exists_or]

lemma Known.primaryOf (h : Known calls v) {k : Bytes} {l : Lock} (hl : v.lock k = some l) :
    PrimaryOf calls l.startTs l.primaryKey := by
  obtain ⟨c, hc, p, m, ⟨ms, ttl, hargs, -⟩, -, -, hp⟩ := h.locks k l hl
  have hof : PrimaryOf calls l.startTs p := ⟨c, hc, ms, ttl, hargs⟩
  rw [hp, h.stored _ p hof]
  exact hof

lemma Known.primary_eq (h : Known calls v) {k p : Bytes} {l : Lock} (hl : v.lock k = some l)
    (hp : PrimaryOf calls l.startTs p) : l.primaryKey = p :=
  h.unique _ _ _ (h.primaryOf hl) hp

/-! ## A request arrives -/

lemma Known.arrive (hfol : Follows log calls c) (hsafe : AtomicSafe T log calls v c)
    (h : Known calls v) : Known (calls ++ [c]) v where
  unique := by
    intro s p p' hp hp'
    rcases primaryOf_append.mp hp with hp | ⟨ms, ttl, hargs⟩
    · rcases primaryOf_append.mp hp' with hp' | ⟨ms', ttl', hargs'⟩
      · exact h.unique s p p' hp hp'
      · exact absurd hp (hfol.once s ms' p' ttl' hargs' p)
    · rcases primaryOf_append.mp hp' with hp' | ⟨ms', ttl', hargs'⟩
      · exact absurd hp' (hfol.once s ms p ttl hargs p')
      · rw [hargs] at hargs'
        cases hargs'
        rfl
  stored := by
    intro s p hp
    rcases primaryOf_append.mp hp with hp | ⟨ms, ttl, hargs⟩
    · exact h.stored s p hp
    · exact hsafe.stored s ms p ttl hargs
  locks := h.locks.append c
  records := by
    intro k ts s op hw
    obtain ⟨p, hp⟩ := h.records k ts s op hw
    exact ⟨p, primaryOf_append.mpr (Or.inl hp)⟩
  forward := h.forward
  unmixed := h.unmixed

/-- A transaction with a record has had its prewrite. -/
lemma Known.primaryOf_before (hfol : Follows log calls c) (h : Known calls v) {k p : Bytes}
    {ts s : UInt64} {op : OpType} (hw : v.write k ts = some ⟨s, op⟩)
    (hp : PrimaryOf (calls ++ [c]) s p) : PrimaryOf calls s p := by
  obtain ⟨p', hp'⟩ := h.records k ts s op hw
  rcases primaryOf_append.mp hp with hp | ⟨ms, ttl, hargs⟩
  · exact hp
  · exact absurd hp' (hfol.once s ms p ttl hargs p')

lemma Atomic.arrive (hfol : Follows log calls c) (hsafe : AtomicSafe T log calls v c)
    (h : Atomic log calls v) : Atomic log (calls ++ [c]) v where
  toKnown := h.toKnown.arrive hfol hsafe
  primary := by
    rintro s p k ct hp ⟨op, hop, hw⟩
    exact h.primary s p k ct (h.primaryOf_before hfol hw hp) ⟨op, hop, hw⟩
  fresh := by
    rintro s p ct l hp ⟨op, hop, hw⟩
    exact h.fresh s p ct l (h.primaryOf_before hfol hw hp) ⟨op, hop, hw⟩
  doomed := by
    rintro s p k hp hack ⟨ts, hw⟩
    exact h.doomed s p k (h.primaryOf_before hfol hw hp) hack ⟨ts, hw⟩
  whole := h.whole

/-! ## A request makes a move -/

/-- A request that keeps to the rules, somewhere on its way. -/
structure Underway (U : Set Bytes) (T : UInt64 → Prop) (log : List Entry) (calls : List Call)
    (c : Call) (v₀ v : View) : Prop where
  follows : Follows log calls c
  safe : AtomicSafe T log calls v₀ c
  before : Atomic log calls v₀
  moves : Moves U T c v₀ v₀ v
  now : Atomic log (calls ++ [c]) v
  ops : LockOps v

/-- During its own prewrite a transaction has no records. -/
lemma own_unwritten (hfol : Follows log calls c) (h₀ : Known calls v₀)
    (hmoves : Moves U T c v₀ v₀ v) {s ttl : UInt64} {ms : List Mutation} {p : Bytes}
    (hargs : c.prewriteArgs = some (s, ms, p, ttl)) (k : Bytes) (ts : UInt64) (op : OpType) :
    v.write k ts ≠ some ⟨s, op⟩ := by
  intro hw
  obtain ⟨p', hp'⟩ := h₀.records k ts s op (hmoves.own_record hargs hw)
  exact hfol.once s ms p ttl hargs p' hp'

namespace Underway

variable (h : Underway U T log calls c v₀ v)

include h

lemma commitsAfter : CommitsAfter c := fun s ct ks hargs => (h.follows.commit s ct ks hargs).1

lemma unwritten {s ttl : UInt64} {ms : List Mutation} {p : Bytes}
    (hargs : c.prewriteArgs = some (s, ms, p, ttl)) (k : Bytes) (ts : UInt64) (op : OpType) :
    v.write k ts ≠ some ⟨s, op⟩ :=
  own_unwritten h.follows h.before.toKnown h.moves hargs k ts op

/-- What stands committed on the primary key of a lock whose transaction is asked about was
committed there when the request began. -/
lemma primary_before {k q : Bytes} {l : Lock} {ct : UInt64} (hl : v.lock k = some l)
    (hq : c.Queries v₀ v q l.startTs) (hcom : v.Committed l.primaryKey l.startTs ct) :
    v₀.Committed l.primaryKey l.startTs ct := by
  refine h.moves.primary_committed_before hq.not_commit.1
    (fun ms p ttl hargs => hq.ne_start hargs rfl) ?_ hcom
  intro k' l' hl' hs
  have hp' : PrimaryOf (calls ++ [c]) l.startTs l'.primaryKey :=
    primaryOf_append.mpr (Or.inl (hs ▸ h.before.primaryOf hl'))
  exact (h.now.primary_eq hl hp').symm

/-- Whoever resolves a lock does not overlook the commit of its primary. -/
lemma primary_reached {k : Bytes} {l lr : Lock} {ct : UInt64} (hr : c.Resolves v₀ k l lr)
    (hl : v.lock k = some l) (hcom : v.Committed l.primaryKey l.startTs ct) :
    Reached U v l.primaryKey ct := by
  have hq := hr.queries hl
  have hexp := h.safe.resolvedSeen k l lr hr (h.moves.lock_of_queries hl hq) ct
    (h.primary_before hl hq hcom)
  exact hexp.reached hq.not_commit.1 h.follows.noRollback h.moves

/-- The status query behind an expired lock is for the primary key, or the client's own. -/
lemma queried_key {k : Bytes} {l : Lock} (hl : v.lock k = some l)
    (hq : c.Queries v₀ v k l.startTs) : k = l.primaryKey ∨ c = .checkTxnStatus k l.startTs := by
  rcases hq with hcall | ⟨k', l', lr, -, hl', hp', hs'⟩
  · exact Or.inr hcall
  · have hof := h.now.primaryOf hl'
    rw [hp', hs'] at hof
    exact Or.inl (h.now.primary_eq hl hof).symm

/-- A lock is rolled back only if its primary is not committed. -/
lemma ended_uncommitted {k : Bytes} {l : Lock} (hl : v.lock k = some l)
    (hended : Ended U T c v₀ v k l) (ct : UInt64) :
    ¬ v.Committed l.primaryKey l.startTs ct := by
  intro hcom
  cases hended with
  | expired hq hT hexp =>
      by_cases hk : k = l.primaryKey
      · exact h.now.unmixed _ _ ct hcom ⟨l, hk ▸ hl, rfl⟩
      · have hcall := (h.queried_key hl hq).resolve_left hk
        have hl₀ := h.moves.lock_of_queries hl hq
        exact (h.safe.queried k l _ hcall hl₀ hk hT hexp).1 ct (h.primary_before hl hq hcom)
  | dead hr hdead =>
      obtain ⟨ts, -, hw⟩ := hdead.overruled ct hcom (h.primary_reached hr hl hcom)
      exact h.now.whole _ _ _ ct hcom ⟨ts, hw⟩
  | timedOut hr _ _ _ _ _ _ hun =>
      have hreach := h.primary_reached hr hl hcom
      obtain ⟨op, -, hw⟩ := hcom
      exact hun ct op hw hreach

/-- A lock of a prewritten transaction, other than the primary one, is rolled back only if the
primary one is gone. -/
lemma ended_doomed {k : Bytes} {l : Lock} (hl : v.lock k = some l)
    (hended : Ended U T c v₀ v k l) (hk : k ≠ l.primaryKey) (hack : Acked log l.startTs) :
    ¬ v.LockedBy l.primaryKey l.startTs := by
  rintro ⟨lp, hlp, hs⟩
  cases hended with
  | expired hq hT hexp =>
      have hcall := (h.queried_key hl hq).resolve_left hk
      have hl₀ := h.moves.lock_of_queries hl hq
      have hlp₀ := h.moves.lock_of_queries hlp (hs ▸ hq)
      exact (h.safe.queried k l _ hcall hl₀ hk hT hexp).2 hack ⟨lp, hlp₀, hs⟩
  | dead hr hdead =>
      rcases hdead.gone with hback | hgone
      · exact h.now.doomed _ _ _ (h.now.primaryOf hl) hack hback ⟨lp, hlp, hs⟩
      · exact hgone ⟨lp, hlp, hs⟩
  | timedOut hr hlp' hsame hT hlive hT' hexp _ =>
      have hq := hr.queries hl
      have hl₀ := h.moves.lock_of_queries hl hq
      have hlp₀ := h.moves.lock_of_queries hlp' (hsame ▸ hq)
      exact h.safe.inTime k l _ _ _ _ hr hl₀ hk hlp₀ hsame hack hT hlive hT' hexp

/-- A batch finds the primary key committed if it does not commit it. -/
lemma batch_primary {s ct : UInt64} {p k : Bytes} {rest : List Bytes}
    (hc : c = .batchCommit s ct (p :: rest)) (hk : k ∈ p :: rest) (hl : v.LockedBy k s)
    (hskip : ¬ v₀.LockedBy p s) (hp : PrimaryOf calls s p) : ∃ ct', v.Committed p s ct' := by
  have hpre : c.prewriteArgs = none := by rw [hc]; rfl
  obtain ⟨l, hl, rfl⟩ := hl
  obtain ⟨l', hl', heq⟩ := h.moves.lock_before hl (by simp [hpre])
  have hlocked : v₀.LockedBy k l.startTs := ⟨l', hl', by rw [heq]⟩
  obtain ⟨ct', op, hop, hw⟩ := (h.safe.batch _ ct p rest k hc hk hlocked).resolve_left hskip
  refine ⟨ct', op, hop, h.moves.keeps_commit_unless_prewrite hpre h.follows.noGc h.commitsAfter
    h.before.forward ?_ ?_ hw⟩
  · intro ks hc
    exact absurd hc (h.follows.noRollback _ _)
  · intro lp hlp
    exact h.before.fresh _ p ct' lp hp ⟨op, hop, hw⟩ hlp

/-- The first key of a commit is the primary one. -/
lemma commit_primary {s ct : UInt64} {p : Bytes} {ks : List Bytes}
    (hargs : c.commitArgs = some (s, ct, ks)) (hp : PrimaryOf (calls ++ [c]) s p) :
    PrimaryOf calls s p ∧ ∃ rest, ks = p :: rest := by
  obtain ⟨-, -, p', hp', hhead⟩ := h.follows.commit s ct ks hargs
  obtain rfl : p' = p := h.now.unique s p' p (primaryOf_append.mpr (Or.inl hp')) hp
  exact ⟨hp', List.head?_eq_some_iff.mp hhead⟩

variable (hmove : Move U T c v₀ v v')

include hmove

lemma known_move : Known (calls ++ [c]) v' where
  unique := h.now.unique
  stored := h.now.stored
  locks := h.now.locks.move (List.mem_append_right _ List.mem_cons_self) hmove
  records := by
    intro k ts s op hw
    rcases hmove.write_origin hw with hw | hnew
    · exact h.now.records k ts s op hw
    · cases hnew with
      | commit _ _ hl hs _ _ _ => exact ⟨_, hs ▸ h.now.primaryOf hl⟩
      | forward _ _ hl hs _ _ _ _ => exact ⟨_, hs ▸ h.now.primaryOf hl⟩
      | back hl hs hw _ _ => cases hw; exact ⟨_, hs ▸ h.now.primaryOf hl⟩
      | mark hc _ _ _ => exact absurd hc (h.follows.noRollback _ _)
  forward := h.now.forward.move h.commitsAfter hmove
  unmixed := by
    refine h.now.unmixed.move ?_ hmove
    rintro k l hplaced ct ⟨op, -, hw⟩
    obtain ⟨ms, p, ttl, hargs⟩ := hplaced.mutates.args
    exact h.unwritten hargs k ct op hw

/-- The commit of a primary key stays. -/
lemma primary_stays {s ct : UInt64} {p : Bytes} (hp : PrimaryOf (calls ++ [c]) s p)
    (hcom : v.Committed p s ct) : v'.Committed p s ct := by
  obtain ⟨op, hop, hw⟩ := hcom
  refine ⟨op, hop, hmove.keeps_commit h.follows.noGc h.commitsAfter h.now.forward ?_ ?_ hw⟩
  · intro ks hc
    exact absurd hc (h.follows.noRollback _ _)
  · intro l hl
    exact h.now.fresh s p ct l hp ⟨op, hop, hw⟩ hl

lemma primary_move (s : UInt64) (p k : Bytes) (ct : UInt64) (hp : PrimaryOf (calls ++ [c]) s p)
    (hcom : v'.Committed k s ct) : ∃ ct', v'.Committed p s ct' := by
  have hstays : ∀ {ct}, v.Committed p s ct → ∃ ct', v'.Committed p s ct' :=
    fun hcom => ⟨_, h.primary_stays hmove hp hcom⟩
  rcases hmove.committed_origin hcom with hold | ⟨hlocked, -, ⟨ks, hargs, hk, hfirst⟩ | hfwd⟩
  · obtain ⟨ct', hcom'⟩ := h.now.primary s p k ct hp hold
    exact hstays hcom'
  · obtain ⟨hp₀, rest, rfl⟩ := h.commit_primary hargs hp
    rcases hfirst p rest rfl with rfl | hcom' | ⟨hc, hskip⟩
    · exact ⟨ct, hcom⟩
    · exact hstays hcom'
    · obtain ⟨ct', hcom'⟩ := h.batch_primary hc hk hlocked hskip hp₀
      exact hstays hcom'
  · obtain ⟨l, lr, -, -, hl, rfl, hcom'⟩ := hfwd
    rw [h.now.primary_eq hl hp] at hcom'
    exact hstays hcom'

lemma fresh_move (s : UInt64) (p : Bytes) (ct : UInt64) (l : Lock)
    (hp : PrimaryOf (calls ++ [c]) s p) (hcom : v'.Committed p s ct) (hl : v'.lock p = some l) :
    ct < l.startTs := by
  rcases hmove.committed_origin hcom with hcom | ⟨-, hgone, -⟩
  · rcases hmove.lock_origin hl with ⟨l', hl', heq, -⟩ | hplaced
    · rw [heq]
      exact h.now.fresh s p ct l' hp hcom hl'
    · -- a new lock: its conflict check has seen the commit
      have hother : ∀ ms q ttl, c.prewriteArgs ≠ some (s, ms, q, ttl) := by
        intro ms q ttl hargs
        obtain ⟨op, -, hw⟩ := hcom
        exact h.unwritten hargs p ct op hw
      have hp₀ : PrimaryOf calls s p := by
        rcases primaryOf_append.mp hp with hp | ⟨ms, ttl, hargs⟩
        · exact hp
        · exact absurd hargs (hother ms p ttl)
      have hcom₀ : v₀.Committed p s ct := by
        obtain ⟨ms, q, ttl, hargs⟩ := hplaced.mutates.args
        refine h.moves.primary_committed_before ?_ hother ?_ hcom
        · cases c <;> first | rfl | cases hargs
        · intro k' l' hl' hs
          exact h.before.primary_eq hl' (hs ▸ hp₀)
      by_contra hlt
      have hle := UInt64.not_lt.mp hlt
      have hexp := h.safe.checkedSeen _ p hplaced.mutates s ct hp₀ hcom₀ hle
      obtain ⟨op, -, hw⟩ := hcom₀
      exact hplaced.not_exposed h.moves (by rw [hw]; rfl) hle hexp
  · rw [hgone] at hl
    cases hl

lemma doomed_move (s : UInt64) (p k : Bytes) (hp : PrimaryOf (calls ++ [c]) s p)
    (hack : Acked log s) (hback : v'.RolledBack k s) : ¬ v'.LockedBy p s := by
  rintro ⟨lp, hlp, rfl⟩
  rcases hmove.lock_origin hlp with ⟨lp', hlp', heq, -⟩ | hplaced
  · have hlocked : v.LockedBy p lp.startTs := ⟨lp', hlp', by rw [heq]⟩
    rcases hmove.rolledBack_origin h.ops h.follows.noRollback hback with hback | hnew
    · exact h.now.doomed _ p k hp hack hback hlocked
    · obtain ⟨l, hl, hs, hended, hv'⟩ := hnew
      have hpk : l.primaryKey = p := h.now.primary_eq hl (hs ▸ hp)
      have hk : k ≠ l.primaryKey := by
        rintro rfl
        rw [hv', ← hpk, View.settle_lock, if_pos rfl] at hlp
        cases hlp
      exact h.ended_doomed hl hended hk (hs ▸ hack) (hpk ▸ hs ▸ hlocked)
  · obtain ⟨ms, q, ttl, hargs⟩ := hplaced.mutates.args
    obtain ⟨ts, hw⟩ := hback
    exact h.unwritten hargs k ts _ (hmove.own_record hargs hw)

lemma whole_move (k k' : Bytes) (s ct : UInt64) (hcom : v'.Committed k s ct) :
    ¬ v'.RolledBack k' s := by
  intro hback
  rcases hmove.rolledBack_origin h.ops h.follows.noRollback hback with hold | hnew
  · -- the rollback was there before: then nothing of `s` gets committed
    rcases hmove.committed_origin hcom with hcom | ⟨hlocked, -, ⟨ks, hargs, hk, hfirst⟩ | hfwd⟩
    · exact h.now.whole k k' s ct hcom hold
    · obtain ⟨-, hack, p, hp, -⟩ := h.follows.commit s ct ks hargs
      have hp' : PrimaryOf (calls ++ [c]) s p := primaryOf_append.mpr (Or.inl hp)
      obtain ⟨-, rest, rfl⟩ := h.commit_primary hargs hp'
      rcases hfirst p rest rfl with rfl | hcom' | ⟨hc, hskip⟩
      · exact h.now.doomed s k k' hp' hack hold hlocked
      · exact h.now.whole p k' s ct hcom' hold
      · obtain ⟨ct', hcom'⟩ := h.batch_primary hc hk hlocked hskip hp
        exact h.now.whole p k' s ct' hcom' hold
    · obtain ⟨l, lr, -, -, -, -, hcom'⟩ := hfwd
      exact h.now.whole _ k' s ct hcom' hold
  · -- the rollback is new: then nothing of `s` was committed
    obtain ⟨l, hl, rfl, hended, hv'⟩ := hnew
    obtain ⟨op, hop, hw⟩ := hcom
    rw [hv'] at hw
    rcases View.settle_origin hw with hw | ⟨-, -, hw, -⟩
    · obtain ⟨ct', hcom'⟩ := h.now.primary _ _ k ct (h.now.primaryOf hl) ⟨op, hop, hw⟩
      exact h.ended_uncommitted hl hended ct' hcom'
    · cases hw
      exact hop rfl

theorem move : Atomic log (calls ++ [c]) v' where
  toKnown := h.known_move hmove
  primary := h.primary_move hmove
  fresh := h.fresh_move hmove
  doomed := h.doomed_move hmove
  whole := h.whole_move hmove

end Underway

/-- A request is answered: at the reply to its prewrite a transaction has no records. -/
lemma Atomic.reply {e : Event} (hfol : Follows log calls e.call) (h₀ : Atomic log calls v₀)
    (hmoves : Moves U T e.call v₀ v₀ v) (h : Atomic log (calls ++ [e.call]) v)
    (r : Option Answer) : Atomic (log ++ [⟨e, r⟩]) (calls ++ [e.call]) v where
  toKnown := h.toKnown
  primary := h.primary
  fresh := h.fresh
  doomed := by
    rintro s p k hp ⟨en, hen, ms, q, ttl, hargs, hok⟩ hback
    rcases List.mem_append.mp hen with hen | hen
    · exact h.doomed s p k hp ⟨en, hen, ms, q, ttl, hargs, hok⟩ hback
    · rw [List.mem_singleton.mp hen] at hargs
      obtain ⟨ts, hw⟩ := hback
      exact absurd hw (own_unwritten hfol h₀.toKnown hmoves hargs k ts _)
  whole := h.whole

end

/-! ## Over whole runs -/

lemma atomic_init : Atomic Config.init.log Config.init.calls (view Config.init.store) where
  unique := by
    rintro s p p' ⟨c, hc, -⟩
    cases hc
  stored := by
    rintro s p ⟨c, hc, -⟩
    cases hc
  locks := locksFrom_init _
  records := by
    intro k ts s op hw
    simp [Config.init] at hw
  forward := by
    rintro k s ct ⟨op, -, hw⟩
    simp [Config.init] at hw
  unmixed := by
    rintro k s ct ⟨op, -, hw⟩
    simp [Config.init] at hw
  primary := by
    rintro s p k ct ⟨c, hc, -⟩
    cases hc
  fresh := by
    rintro s p ct l ⟨c, hc, -⟩
    cases hc
  doomed := by
    rintro s p k ⟨c, hc, -⟩
    cases hc
  whole := by
    rintro k k' s ct ⟨op, -, hw⟩
    simp [Config.init] at hw

theorem atomic_steps {es : List Event}
    (h : Guarded Config.step (fun cfg e => Follows cfg.log cfg.calls e.call ∧
      AtomicSafe e.Reading cfg.log cfg.calls (view cfg.store) e.call) Config.init es) :
    WF Set.univ (Config.init.steps es).store ∧ Atomic (Config.init.steps es).log
      (Config.init.steps es).calls (view (Config.init.steps es).store) := by
  refine @log_invariant Set.univ _ Atomic (fun _ _ _ _ _ => trivial) ?_ ?_ ?_ _ _ h
    ⟨wf_empty _, atomic_init⟩
  · intro cfg e hok hinv
    exact hinv.arrive hok.1 hok.2
  · intro cfg e v v' hok _ h₀ hmoves hinv hmove
    exact Underway.move ⟨hok.1, hok.2, h₀, hmoves, hinv, (view_lockOps _).moves hmoves⟩ hmove
  · intro cfg e v r hok h₀ hmoves hinv
    exact h₀.reply hok.1 hmoves hinv r

/-- In every run of clients that follow the protocol, and with safe requests only: no transaction
has a Put or Delete record on one key and a Rollback record on a key. -/
theorem commit_all_or_nothing (es : List Event)
    (hrun : Guarded Config.step (fun cfg e => Follows cfg.log cfg.calls e.call ∧
      AtomicSafe e.Reading cfg.log cfg.calls (view cfg.store) e.call) Config.init es)
    (k k' : Bytes) (s ct : UInt64)
    (hcom : (view (Config.init.steps es).store).Committed k s ct) :
    ¬ (view (Config.init.steps es).store).RolledBack k' s :=
  (atomic_steps hrun).2.whole k k' s ct hcom

section

variable {log : List Entry} {calls : List Call}

lemma follows_prewrite (s : UInt64) (ms : List Mutation) (p : Bytes) (ttl : UInt64) :
    Follows [] [] (.prewrite s ms p ttl) where
  noRollback := by simp
  noGc := by simp
  once := by
    rintro s ms p ttl - p' ⟨c, hc, -⟩
    cases hc
  commit := by
    intro s ct ks hargs
    cases hargs

lemma follows_get (k : Bytes) (r : UInt64) : Follows log calls (.get k r) where
  noRollback := by simp
  noGc := by simp
  once := by
    intro s ms p ttl hargs
    cases hargs
  commit := by
    intro s ct ks hargs
    cases hargs

lemma follows_commit {s ct : UInt64} {p : Bytes} (hlt : s < ct) (hacked : Acked log s)
    (hp : PrimaryOf calls s p) (rest : List Bytes) :
    Follows log calls (.commit s ct (p :: rest)) where
  noRollback := by simp
  noGc := by simp
  once := by
    intro s ms p ttl hargs
    cases hargs
  commit := by
    intro s ct ks hargs
    cases hargs
    exact ⟨hlt, hacked, p, hp, rfl⟩

end

/-- `commit` itself never goes past the primary key. -/
lemma atomicSafe_commit {T : UInt64 → Prop} {log : List Entry} {calls : List Call} {v : View}
    (s ct : UInt64) (ks : List Bytes) : AtomicSafe T log calls v (.commit s ct ks) where
  stored := by
    intro s' ms p ttl hargs
    cases hargs
  resolvedSeen := by
    intro k l lr hr
    exact hr.elim
  checkedSeen := by
    intro t k hmut
    obtain ⟨ms, p, ttl, hargs⟩ := hmut.args
    cases hargs
  inTime := by
    intro k l lr lp t t' hr
    exact hr.elim
  queried := by
    intro k l now hc
    cases hc
  batch := by
    intro s' ct' p rest k hc
    cases hc

/-- The commit stops behind its primary, and a read of the other key rolls that forward. -/
def stoppedThenRead : List Event :=
  [{ call := .prewrite 65536 [.put [1] [10], .put [2] [20]] [1] 3000 },
    { call := .commit 65536 65537 [[1], [2]], stop := some 1 }, { call := .get [2] 70000 }]

theorem commit_all_or_nothing_stopped :
    (view (Config.init.steps stoppedThenRead).store).Committed [2] 65536 65537 ∧
      ¬ (view (Config.init.steps stoppedThenRead).store).RolledBack [1] 65536 := by
  have hcom : (view (Config.init.steps stoppedThenRead).store).Committed [2] 65536 65537 :=
    ⟨.put, by decide, by rfl⟩
  refine ⟨hcom, commit_all_or_nothing stoppedThenRead
    ⟨⟨follows_prewrite _ _ _ _, ⟨?_, ?_, ?_, ?_, ?_, ?_⟩⟩,
      ⟨follows_commit (by decide) ⟨_, List.mem_cons_self, _, _, _, rfl, rfl⟩
        ⟨_, List.mem_cons_self, _, _, rfl⟩ _, atomicSafe_commit 65536 65537 [[1], [2]]⟩,
      ⟨follows_get _ _, ⟨?_, ?_, ?_, ?_, ?_, ?_⟩⟩, trivial⟩ [2] [1] 65536 65537 hcom⟩
  -- the prewrite finds an empty store
  · intro s ms p ttl hargs
    cases hargs
    exact Lock.storedKey_eq (by decide)
  · intro k l lr _ hl
    simp [Config.init] at hl
  · rintro t k - s ct - ⟨op, -, hw⟩
    simp [Config.init] at hw
  · intro k l lr lp t t' _ hl
    simp [Config.init] at hl
  · intro k l now hc
    cases hc
  · intro s ct p rest k hc
    cases hc
  -- the read
  · intro s ms p ttl hargs
    cases hargs
  · rintro k l lr ⟨rfl, -, -⟩ hl ct -
    cases hl
    have hmem : [1] ∈ RunKeys halfCommitted := ⟨_, List.mem_cons_self, List.mem_cons_self⟩
    exact exposed_of_prefixFree (wf_runKeys halfCommitted) (prefixFree_runKeys (by decide)) hmem ct
  · intro t k hmut
    obtain ⟨ms, p, ttl, hargs⟩ := hmut.args
    cases hargs
  · rintro k l lr lp t t' ⟨rfl, -, -⟩ hl - hlp
    cases hl
    cases hlp
  · intro k l now hc
    cases hc
  · intro s ct p rest k hc
    cases hc

/-- The transaction may live for a minute, and its commit is about to come.  A read of its
secondary key after five seconds rolls that key back, and then the primary is committed. -/
def readTooEarly : List Event :=
  [{ call := .prewrite 65536 [.put [1] [10], .put [2] [20]] [1] 60000 },
    { call := .get [2] 70000, clock := fun _ => 5000 },
    { call := .commit 65536 65537 [[1], [2]] }]

theorem commit_half_rolled_back :
    Guarded Config.step (fun cfg e => Follows cfg.log cfg.calls e.call) Config.init readTooEarly ∧
      (view (Config.init.steps readTooEarly).store).Committed [1] 65536 65537 ∧
      (view (Config.init.steps readTooEarly).store).RolledBack [2] 65536 := by
  refine ⟨⟨follows_prewrite _ _ _ _, follows_get _ _, ?_, trivial⟩, ⟨.put, by decide, by rfl⟩,
    ⟨65536, by rfl⟩⟩
  exact follows_commit (by decide) ⟨_, List.mem_cons_self, _, _, _, rfl, rfl⟩
    ⟨_, List.mem_cons_self, _, _, rfl⟩ _

end AcidKv
