import AcidKv.Abstract.View
import AcidKv.Lib.Threads
import AcidKv.Node.Calls

/-!
# A node with many requests at once

The handlers of a node run as threads over its store, with no synchronisation other than that each
of their storage steps is atomic.  This module names the pool of handlers and what a reader of the
lock partition sees in an entry.
-/

namespace AcidKv

/-- The requests that a node is working on, and its store. -/
abbrev Workers := Pool Call Part Bytes Bytes UInt64 TxnError Reply

abbrev Schedule := List (Choice Call UInt64)

abbrev Trace := History Part Bytes Bytes UInt64

/-- No request yet. -/
def Workers.idle (st : Store) : Workers := ⟨[], st⟩

/-- What becomes of a node under a schedule. -/
def Workers.after (P : Workers) (cs : Schedule) : Workers := cs.foldl (Pool.next Call.handler) P

/-- The lock in an entry of the lock partition. -/
def entryLock (entry : Option Bytes) : Option Lock := entry.bind fun b => (Lock.fromBytes b).toOption

@[simp] lemma entryLock_none : entryLock none = none := rfl

lemma entryLock_read {b : Bytes} {l : Lock} (hl : Lock.fromBytes b = .ok l) :
    entryLock (some b) = some l := by
  simp [entryLock, hl, Except.toOption]

lemma entryLock_error {b : Bytes} {e : LockError} (hl : Lock.fromBytes b = .error e) :
    entryLock (some b) = none := by
  simp [entryLock, hl, Except.toOption]

lemma entryLock_some {entry : Option Bytes} {l : Lock} (hl : entryLock entry = some l) :
    ∃ b, entry = some b ∧ Lock.fromBytes b = .ok l := by
  cases entry with
  | none => cases hl
  | some b =>
      cases hb : Lock.fromBytes b with
      | error e =>
          rw [entryLock_error hb] at hl
          cases hl
      | ok l' =>
          rw [entryLock_read hb] at hl
          cases hl
          exact ⟨b, rfl, hb⟩

/-- An entry of the lock partition that holds a lock of transaction `u`. -/
def Shows (u : UInt64) (entry : Option Bytes) : Prop :=
  ∃ b l, entry = some b ∧ Lock.fromBytes b = .ok l ∧ l.startTs = u

lemma Shows.unique {u u' : UInt64} {entry : Option Bytes} (h : Shows u entry)
    (h' : Shows u' entry) : u = u' := by
  obtain ⟨b, l, rfl, hl, rfl⟩ := h
  obtain ⟨b', l', ⟨⟩, hl', rfl⟩ := h'
  rw [hl] at hl'
  cases hl'
  rfl

lemma shows_of_lock {entry : Option Bytes} {l : Lock} (hl : entryLock entry = some l) :
    Shows l.startTs entry := by
  obtain ⟨b, rfl, hb⟩ := entryLock_some hl
  exact ⟨b, l, rfl, hb, rfl⟩

lemma not_shows_none (u : UInt64) : ¬ Shows u none := by
  rintro ⟨b, l, ⟨⟩, -, -⟩

/-- The transaction that an item of a batch is about. -/
def itemTxn : BatchItem Part Bytes Bytes → Option UInt64
  | .insert .lock _ bytes => ((Lock.fromBytes bytes).toOption).map Lock.startTs
  | .insert .write _ bytes => (WriteRecord.fromBytes bytes).map WriteRecord.startTs
  | _ => none

/-- A batch that prewrites, commits, heartbeats, rolls back or resolves transaction `u`, and no
other one. -/
def ActsFor (b : Batch) (u : UInt64) : Prop := ∀ u', (∃ i ∈ b, itemTxn i = some u') ↔ u' = u

@[simp] lemma itemTxn_record (e : Bytes) (w : WriteRecord) :
    itemTxn (.insert .write e w.toBytes) = some w.startTs := by
  simp [itemTxn, WriteRecord.fromBytes_toBytes]

lemma itemTxn_lock (k : Bytes) {l : Lock} (hop : l.op ≠ .rollback) :
    itemTxn (.insert .lock k l.toBytes) = some l.startTs := by
  simp [itemTxn, Lock.fromBytes_toBytes hop, Except.toOption]

@[simp] lemma itemTxn_value (e x : Bytes) : itemTxn (.insert .default e x) = none := rfl

@[simp] lemma itemTxn_remove (p : Part) (k : Bytes) : itemTxn (.remove p k) = none := by
  cases p <;> rfl

/-- A batch whose items are all about `u`, or about no transaction, acts for `u`. -/
lemma actsFor_of_forall {b : Batch} {u : UInt64} (hall : ∀ i ∈ b, ∀ u', itemTxn i = some u' → u' = u)
    (hsome : ∃ i ∈ b, itemTxn i = some u) : ActsFor b u := by
  refine fun u' => ⟨fun ⟨i, hi, hu'⟩ => hall i hi u' hu', ?_⟩
  rintro rfl
  exact hsome

lemma batchLeaves_settle (k : Bytes) (ts : UInt64) (w : WriteRecord) (k' : Bytes) :
    batchLeaves (LockResolver.settleBatch k ts w) .lock k' = if k' = k then some none else none := by
  simp only [LockResolver.settleBatch, batchLeaves_cons, batchLeaves_nil, BatchItem.entry,
    BatchItem.value]
  by_cases hk : k' = k
  · simp [hk]
  · simp [hk, Ne.symm hk]

/-- The choice lets a handler of request `c` that has seen `h` commit the batch `b`. -/
def CommitsBatch (P : Workers) (choice : Choice Call UInt64) (c : Call) (h : Trace) (b : Batch) :
    Prop :=
  ∃ i t next, choice = .step i t ∧ P.threads[i]? = some ⟨c, h, .commit b next⟩

end AcidKv
