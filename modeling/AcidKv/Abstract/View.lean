import AcidKv.Txn.Coordinator

/-!
# What a store says

The three partitions hold bytes.  `view` decodes them: which lock a key carries, which write
record it has at a timestamp, which value is staged under a start timestamp.  The batches that
the handlers commit act on the view as the plain updates below, and everything after this file
argues about views.

`WF U st` is what makes decoding total: every entry of the lock and write partitions is the
encoding of something about a key in `U`.  The set is a parameter because the properties differ
in what they ask of the user keys: for some any keys will do, for others no key may be a proper
prefix of another one (`PrefixFree`).
-/

namespace AcidKv

open KeyEncoder

/-- The decoded contents of a store. -/
@[ext] structure View where
  lock : Bytes → Option Lock
  write : Bytes → UInt64 → Option WriteRecord
  data : Bytes → UInt64 → Option Bytes

def view (st : Store) : View where
  lock k := (st.get .lock k).bind fun b => (Lock.fromBytes b).toOption
  write k ts := (st.get .write (encode k ts)).bind WriteRecord.fromBytes
  data k ts := st.get .default (encode k ts)

namespace View

/-- End the lock on `k` with a record at `ts`. -/
def settle (v : View) (k : Bytes) (ts : UInt64) (w : WriteRecord) : View where
  lock k' := if k' = k then none else v.lock k'
  write k' ts' := if k' = k ∧ ts' = ts then some w else v.write k' ts'
  data := v.data

/-- Write a record at `ts` and leave the lock alone. -/
def mark (v : View) (k : Bytes) (ts : UInt64) (w : WriteRecord) : View where
  lock := v.lock
  write k' ts' := if k' = k ∧ ts' = ts then some w else v.write k' ts'
  data := v.data

/-- Place a lock. -/
def putLock (v : View) (k : Bytes) (l : Lock) : View where
  lock k' := if k' = k then some l else v.lock k'
  write := v.write
  data := v.data

/-- Stage the value of a mutation, if it has one. -/
def stageData (v : View) (startTs : UInt64) (m : Mutation) : View where
  lock := v.lock
  write := v.write
  data k' ts' := match m with
    | .put key value => if k' = key ∧ ts' = startTs then some value else v.data k' ts'
    | .delete _ => v.data k' ts'

/-- Stage a mutation: its value and its lock. -/
def stage (v : View) (startTs : UInt64) (primaryKey : Bytes) (ttl : UInt64) (m : Mutation) : View :=
  (v.stageData startTs m).putLock m.key (Lock.mk primaryKey startTs ttl m.opType).stored

section Fields

variable (v : View) (k : Bytes) (ts : UInt64) (w : WriteRecord) (l : Lock) (m : Mutation)

@[simp] lemma settle_lock (k' : Bytes) :
    (v.settle k ts w).lock k' = if k' = k then none else v.lock k' := rfl
@[simp] lemma settle_write (k' : Bytes) (ts' : UInt64) :
    (v.settle k ts w).write k' ts' = if k' = k ∧ ts' = ts then some w else v.write k' ts' := rfl
@[simp] lemma settle_data : (v.settle k ts w).data = v.data := rfl
@[simp] lemma mark_lock : (v.mark k ts w).lock = v.lock := rfl
@[simp] lemma mark_write (k' : Bytes) (ts' : UInt64) :
    (v.mark k ts w).write k' ts' = if k' = k ∧ ts' = ts then some w else v.write k' ts' := rfl
@[simp] lemma mark_data : (v.mark k ts w).data = v.data := rfl
@[simp] lemma putLock_lock (k' : Bytes) :
    (v.putLock k l).lock k' = if k' = k then some l else v.lock k' := rfl
@[simp] lemma putLock_write : (v.putLock k l).write = v.write := rfl
@[simp] lemma putLock_data : (v.putLock k l).data = v.data := rfl
@[simp] lemma stageData_lock : (v.stageData ts m).lock = v.lock := rfl
@[simp] lemma stageData_write : (v.stageData ts m).write = v.write := rfl

end Fields

end View

/-- No key of the set is a proper prefix of another one. -/
def PrefixFree (U : Set Bytes) : Prop := ∀ a ∈ U, ∀ b ∈ U, a <+: b → a = b

/-- Every entry of the lock and write partitions decodes, to something about a key in `U`. -/
structure WF (U : Set Bytes) (st : Store) : Prop where
  lock : ∀ k b, st.get .lock k = some b → k ∈ U ∧ ∃ l, Lock.fromBytes b = .ok l
  write : ∀ e b, st.get .write e = some b →
    ∃ k ∈ U, ∃ ts w, e = encode k ts ∧ WriteRecord.fromBytes b = some w

/-- Every entry of the lock partition decodes. -/
def LocksDecode (st : Store) : Prop :=
  ∀ k b, st.get .lock k = some b → ∃ l, Lock.fromBytes b = .ok l

lemma WF.locksDecode {U : Set Bytes} {st : Store} (h : WF U st) : LocksDecode st :=
  fun k b hb => (h.lock k b hb).2

lemma WF.mono {U U' : Set Bytes} {st : Store} (h : WF U st) (hsub : U ⊆ U') : WF U' st where
  lock k b hb := ⟨hsub (h.lock k b hb).1, (h.lock k b hb).2⟩
  write e b hb := by
    obtain ⟨k, hk, ts, w, he, hw⟩ := h.write e b hb
    exact ⟨k, hsub hk, ts, w, he, hw⟩

lemma wf_empty (U : Set Bytes) : WF U Keyspace.empty where
  lock k b h := by simp at h
  write e b h := by simp at h

section

variable {U : Set Bytes} {st : Store}

/-- A stored lock is the one the view shows. -/
lemma view_lock_of_get {k b : Bytes} {l : Lock} (h : st.get .lock k = some b)
    (hl : Lock.fromBytes b = .ok l) : (view st).lock k = some l := by
  simp [view, h, hl, Except.toOption]

lemma view_lock_none {k : Bytes} (h : st.get .lock k = none) : (view st).lock k = none := by
  simp [view, h]

lemma view_lock_some {k : Bytes} {l : Lock} (h : (view st).lock k = some l) :
    ∃ b, st.get .lock k = some b ∧ Lock.fromBytes b = .ok l := by
  simp only [view, Option.bind_eq_some_iff] at h
  obtain ⟨b, hb, hl⟩ := h
  refine ⟨b, hb, ?_⟩
  cases hd : Lock.fromBytes b with
  | error e => simp [hd, Except.toOption] at hl
  | ok l' => simp only [hd, Except.toOption, Option.some.injEq] at hl; rw [hl]

lemma view_write_of_get {k b : Bytes} {ts : UInt64} {w : WriteRecord}
    (h : st.get .write (encode k ts) = some b) (hw : WriteRecord.fromBytes b = some w) :
    (view st).write k ts = some w := by
  simp [view, h, hw]

lemma view_write_some {k : Bytes} {ts : UInt64} {w : WriteRecord}
    (h : (view st).write k ts = some w) :
    ∃ b, st.get .write (encode k ts) = some b ∧ WriteRecord.fromBytes b = some w := by
  simpa only [view, Option.bind_eq_some_iff] using h

lemma WF.lock_mem (h : WF U st) {k : Bytes} {l : Lock} (hl : (view st).lock k = some l) :
    k ∈ U := by
  obtain ⟨b, hb, -⟩ := view_lock_some hl
  exact (h.lock k b hb).1

lemma WF.write_mem (h : WF U st) {k : Bytes} {ts : UInt64} {w : WriteRecord}
    (hw : (view st).write k ts = some w) : k ∈ U := by
  obtain ⟨b, hb, -⟩ := view_write_some hw
  obtain ⟨k', hk', ts', w', he, -⟩ := h.write _ b hb
  rw [(encode_inj.mp he).1]
  exact hk'

/-- A lock in a view was placed by a prewrite: it is a put's or a delete's, and storing it again
changes nothing. -/
lemma view_lock_op {k : Bytes} {l : Lock} (h : (view st).lock k = some l) :
    l.op ≠ .rollback ∧ l.stored = l := by
  obtain ⟨b, -, hl⟩ := view_lock_some h
  exact ⟨(Lock.of_fromBytes hl).1, Lock.stored_eq (Lock.of_fromBytes hl).2⟩

end

/-! ## The batches of the handlers -/

section

variable {U : Set Bytes} {st : Store}

@[simp] lemma view_empty : view (Keyspace.empty : Store)
    = ⟨fun _ => none, fun _ _ => none, fun _ _ => none⟩ := by
  simp [view]

lemma WF.insertWrite (h : WF U st) {k : Bytes} (hk : k ∈ U) (ts : UInt64) (w : WriteRecord) :
    WF U (st.applyItem (.insert .write (encode k ts) w.toBytes)) where
  lock k' b hb := h.lock k' b (by simpa using hb)
  write e b hb := by
    rw [Keyspace.get_insert] at hb
    split_ifs at hb with he
    · simp only [Option.some.injEq] at hb
      exact ⟨k, hk, ts, w, he.2, by rw [← hb, WriteRecord.fromBytes_toBytes]⟩
    · exact h.write e b hb

lemma WF.insertLock (h : WF U st) {k : Bytes} (hk : k ∈ U) {l : Lock} (hop : l.op ≠ .rollback) :
    WF U (st.applyItem (.insert .lock k l.toBytes)) where
  lock k' b hb := by
    rw [Keyspace.get_insert] at hb
    split_ifs at hb with he
    · simp only [Option.some.injEq] at hb
      exact ⟨he.2 ▸ hk, l.stored, by rw [← hb, Lock.fromBytes_toBytes hop]⟩
    · exact h.lock k' b hb
  write e b hb := h.write e b (by simpa using hb)

lemma WF.insertDefault (h : WF U st) (e x : Bytes) :
    WF U (st.applyItem (.insert .default e x)) where
  lock k' b hb := h.lock k' b (by simpa using hb)
  write e' b hb := h.write e' b (by simpa using hb)

/-- Removing anything leaves what remains well-formed. -/
lemma WF.remove (h : WF U st) (p : Part) (k : Bytes) : WF U (st.applyItem (.remove p k)) where
  lock k' b hb := by
    rw [Keyspace.get_remove] at hb
    split_ifs at hb with he
    exact h.lock k' b hb
  write e b hb := by
    rw [Keyspace.get_remove] at hb
    split_ifs at hb with he
    exact h.write e b hb

lemma WF.settleBatch (h : WF U st) {k : Bytes} (hk : k ∈ U) (ts : UInt64) (w : WriteRecord) :
    WF U (st.apply (LockResolver.settleBatch k ts w)) :=
  (h.insertWrite hk ts w).remove .lock k

theorem view_settleBatch (st : Store) (k : Bytes) (ts : UInt64) (w : WriteRecord) :
    view (st.apply (LockResolver.settleBatch k ts w)) = (view st).settle k ts w := by
  ext1
  · funext k'
    by_cases h : k' = k <;> simp [view, LockResolver.settleBatch, h]
  · funext k' ts'
    by_cases h : k' = k ∧ ts' = ts
    · simp [view, LockResolver.settleBatch, h]
    · simp [view, LockResolver.settleBatch, encode_inj, h]
  · funext k' ts'
    simp [view, LockResolver.settleBatch]

/-- Rolling back without a lock of one's own. -/
theorem view_mark (st : Store) (k : Bytes) (ts : UInt64) (w : WriteRecord) :
    view (st.apply [.insert .write (encode k ts) w.toBytes]) = (view st).mark k ts w := by
  ext1
  · funext k'; simp [view]
  · funext k' ts'
    by_cases h : k' = k ∧ ts' = ts
    · simp [view, h]
    · simp [view, encode_inj, h]
  · funext k' ts'; simp [view]

/-- A lock and its record in the other order, as the client's rollback writes them. -/
lemma apply_remove_insert (st : Store) (k e b : Bytes) :
    st.apply [.remove .lock k, .insert .write e b]
      = st.apply [.insert .write e b, .remove .lock k] := by
  refine Keyspace.ext_get fun p k' => ?_
  cases p <;> simp

theorem view_putLock (st : Store) (k : Bytes) {l : Lock} (hop : l.op ≠ .rollback) :
    view (st.apply [.insert .lock k l.toBytes]) = (view st).putLock k l.stored := by
  ext1
  · funext k'
    by_cases h : k' = k
    · simp [view, h, Lock.fromBytes_toBytes hop, Except.toOption]
    · simp [view, h]
  · funext k' ts'; simp [view]
  · funext k' ts'; simp [view]

theorem view_putData (st : Store) (k : Bytes) (ts : UInt64) (x : Bytes) :
    view (st.apply [.insert .default (encode k ts) x]) = (view st).stageData ts (.put k x) := by
  ext1
  · funext k'; simp [view]
  · funext k' ts'; simp [view]
  · funext k' ts'
    by_cases h : k' = k ∧ ts' = ts
    · simp [view, View.stageData, h]
    · simp [view, View.stageData, encode_inj, h]

lemma Mutation.opType_ne_rollback (m : Mutation) : m.opType ≠ .rollback := by
  cases m <;> simp [Mutation.opType]

theorem view_stageBatch (st : Store) (s : UInt64) (p : Bytes) (ttl : UInt64) (m : Mutation) :
    view (st.apply (Coordinator.stageBatch s p ttl m)) = (view st).stage s p ttl m := by
  have hop := m.opType_ne_rollback
  cases m with
  | put k x =>
      have hsplit : st.apply (Coordinator.stageBatch s p ttl (.put k x))
          = (st.apply [.insert .default (encode k s) x]).apply
              [.insert .lock k (Lock.mk p s ttl .put).toBytes] := rfl
      rw [hsplit, view_putLock _ _ hop, view_putData]
      rfl
  | delete k => exact view_putLock st k hop

lemma WF.stageBatch (h : WF U st) (s : UInt64) (p : Bytes) (ttl : UInt64) {m : Mutation}
    (hm : m.key ∈ U) : WF U (st.apply (Coordinator.stageBatch s p ttl m)) := by
  have hop := m.opType_ne_rollback
  cases m with
  | put k x => exact (h.insertDefault (encode k s) x).insertLock hm hop
  | delete k => exact h.insertLock hm hop

end

end AcidKv
