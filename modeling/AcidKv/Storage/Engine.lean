import AcidKv.Lib.Prog
import AcidKv.Lib.Sift
import AcidKv.Storage.Record
import Mathlib.Data.List.Destutter
import Mathlib.Data.List.Sort

/-!
# The storage engine

One Fjall keyspace with three partitions.  `default` holds values under the encoded key of
their start timestamp, `lock` holds one lock per user key, `write` holds the write records under
the encoded key of their commit timestamp.

What is taken from Fjall is that a partition is a map ordered by the bytes of its keys, that a
range read sees one state of it, and that a batch applies as a whole with its last item for a
key winning.  I/O failures are not modelled, so of the error enums only the variants that the
crate's own code raises appear.

In two respects Fjall differs.  It refuses the empty key and keys of more than 65535 bytes, which
are keys like any other here.  And its range is a live iterator: what is written in front of it
while a loop runs over it is seen, where here a walk is taken as a whole.
-/

namespace AcidKv

/-- The partition names of the keyspace. -/
inductive Part where
  | default
  | lock
  | write
  deriving DecidableEq, Repr

/-- The on-disk state of a node. -/
abbrev Store := Keyspace Part Bytes Bytes

/-- A request handler: storage steps, readings of the wall clock in milliseconds, and batches. -/
abbrev Handler (ε α : Type) := Prog Part Bytes Bytes UInt64 ε α

abbrev Batch := List (BatchItem Part Bytes Bytes)

/-- A walk over a whole partition. -/
lemma mem_range_nil {st : Store} {p : Part} {e b : Bytes} :
    (e, b) ∈ st.range p [] ↔ st.get p e = some b := by
  rw [Keyspace.mem_range]
  exact and_iff_left (BigEndian.compare_isLE_iff.mpr (List.nil_le e))

namespace StorageEngine

/-- The loop of `gc_keys_older_than`, with its two loop variables.  It collects the removals and
counts the removed versions. -/
def gcLoop (safePointTs : UInt64) : Option Bytes → Bool → List (Bytes × Bytes) → Batch × ℕ
  | _, _, [] => ([], 0)
  | lastUserKey, seenBelowSafePoint, (encKey, writeBytes) :: rest =>
      match KeyEncoder.decode encKey with
      | .error _ => gcLoop safePointTs lastUserKey seenBelowSafePoint rest
      | .ok (userKey, commitTs) =>
          let seen := if lastUserKey = some userKey then seenBelowSafePoint else false
          if commitTs < safePointTs then
            if !seen then gcLoop safePointTs (some userKey) true rest
            else
              let (batch, gcCount) := gcLoop safePointTs (some userKey) seen rest
              let removeData : Batch := match WriteRecord.fromBytes writeBytes with
                | some record => [.remove .default (KeyEncoder.encode userKey record.startTs)]
                | none => []
              (.remove .write encKey :: (removeData ++ batch), gcCount + 1)
          else gcLoop safePointTs (some userKey) seen rest

/-- The loop as a sift of the entries, whose state is the two loop variables. -/
def gcSift (safePointTs : UInt64) : Sift (Option Bytes × Bool) (Bytes × Bytes) where
  goes s x :=
    match KeyEncoder.decode x.1 with
    | .error _ => false
    | .ok (userKey, commitTs) => commitTs < safePointTs ∧ s = (some userKey, true)
  next s x :=
    match KeyEncoder.decode x.1 with
    | .error _ => s
    | .ok (userKey, commitTs) => (some userKey, commitTs < safePointTs ∨ s = (some userKey, true))

/-- What is removed with an entry. -/
def gcItems (x : Bytes × Bytes) : Batch :=
  .remove .write x.1 ::
    match KeyEncoder.decode x.1, WriteRecord.fromBytes x.2 with
    | .ok (userKey, _), some record =>
        [.remove .default (KeyEncoder.encode userKey record.startTs)]
    | _, _ => []

section

variable {safePointTs : UInt64} {lastUserKey : Option Bytes} {seenBelowSafePoint : Bool}
  {items : List (Bytes × Bytes)}

/-- The loop removes what the sift takes out, and counts it. -/
lemma gcLoop_eq (safePointTs : UInt64) (lastUserKey : Option Bytes) (seenBelowSafePoint : Bool)
    (items : List (Bytes × Bytes)) :
    gcLoop safePointTs lastUserKey seenBelowSafePoint items =
      (((gcSift safePointTs).gone (lastUserKey, seenBelowSafePoint) items).flatMap gcItems,
        ((gcSift safePointTs).gone (lastUserKey, seenBelowSafePoint) items).length) := by
  induction items generalizing lastUserKey seenBelowSafePoint with
  | nil => rfl
  | cons x items ih =>
      obtain ⟨e, b⟩ := x
      cases hdec : KeyEncoder.decode e with
      | error err => simp [gcLoop, Sift.gone, gcSift, hdec, ih]
      | ok kt =>
          obtain ⟨k, ts⟩ := kt
          by_cases hlast : lastUserKey = some k
          all_goals cases seenBelowSafePoint
          all_goals by_cases hts : ts < safePointTs
          all_goals cases hw : WriteRecord.fromBytes b
          all_goals simp [gcLoop, Sift.gone, gcSift, gcItems, hdec, hlast, hts, hw, ih]

lemma mem_gcItems {x : Bytes × Bytes} {i : BatchItem Part Bytes Bytes} :
    i ∈ gcItems x ↔ i = .remove .write x.1 ∨ ∃ userKey commitTs record,
      KeyEncoder.decode x.1 = .ok (userKey, commitTs) ∧ WriteRecord.fromBytes x.2 = some record ∧
        i = .remove .default (KeyEncoder.encode userKey record.startTs) := by
  rw [gcItems, List.mem_cons]
  refine or_congr_right ?_
  cases KeyEncoder.decode x.1 with
  | error e => simp
  | ok kt =>
      obtain ⟨k, ts⟩ := kt
      cases WriteRecord.fromBytes x.2 with
      | none => simp
      | some record => simp

/-- Every removal is of an entry of the walk, or of the value that the record there points to. -/
lemma mem_gcLoop {i : BatchItem Part Bytes Bytes}
    (hi : i ∈ (gcLoop safePointTs lastUserKey seenBelowSafePoint items).1) :
    ∃ x ∈ items, i = .remove .write x.1 ∨ ∃ userKey commitTs record,
      KeyEncoder.decode x.1 = .ok (userKey, commitTs) ∧ WriteRecord.fromBytes x.2 = some record ∧
        i = .remove .default (KeyEncoder.encode userKey record.startTs) := by
  rw [gcLoop_eq] at hi
  obtain ⟨x, hx, hi⟩ := List.mem_flatMap.mp hi
  exact ⟨x, Sift.gone_subset _ _ _ hx, mem_gcItems.mp hi⟩

lemma removes_flatMap (xs : List (Bytes × Bytes)) :
    ∀ i ∈ xs.flatMap gcItems, ∃ p k, i = .remove p k := by
  intro i hi
  obtain ⟨x, -, hx⟩ := List.mem_flatMap.mp hi
  rcases mem_gcItems.mp hx with rfl | ⟨_, _, _, -, -, rfl⟩
  · exact ⟨_, _, rfl⟩
  · exact ⟨_, _, rfl⟩

lemma remove_write_mem_flatMap {xs : List (Bytes × Bytes)} {e : Bytes} :
    .remove .write e ∈ xs.flatMap gcItems ↔ ∃ b, (e, b) ∈ xs := by
  simp only [List.mem_flatMap, mem_gcItems]
  constructor
  · rintro ⟨⟨_, b⟩, hx, heq | ⟨_, _, _, -, -, heq⟩⟩
    · cases heq
      exact ⟨b, hx⟩
    · cases heq
  · rintro ⟨b, hx⟩
    exact ⟨(e, b), hx, Or.inl rfl⟩

end

/-- Removes versions older than the safe point, keeping of each key the newest one below it. -/
def gcKeysOlderThan {ε : Type} (safePointTs : UInt64) : Handler ε ℕ := do
  let items ← Prog.walk .write []
  let (batch, gcCount) := gcLoop safePointTs none false items
  if gcCount > 0 then
    Prog.write batch
    return gcCount
  else
    return gcCount

/-- The entries of the write partition that a collection removes. -/
def collected (safePointTs : UInt64) (st : Store) : List (Bytes × Bytes) :=
  (gcSift safePointTs).gone (none, false) (st.range .write [])

/-- A collection removes these entries with their values, and returns their number. -/
lemma run_gcKeysOlderThan {ε : Type} (safePointTs : UInt64) (clock : ℕ → UInt64) (st : Store) :
    (gcKeysOlderThan safePointTs : Handler ε ℕ).run clock st =
      (.ok (collected safePointTs st).length,
        st.apply ((collected safePointTs st).flatMap gcItems)) := by
  simp only [gcKeysOlderThan, Prog.run_walk_bind, gcLoop_eq]
  split_ifs with hpos
  · rfl
  · have hnil : (gcSift safePointTs).gone (none, false) (st.range .write []) = [] :=
      List.eq_nil_of_length_eq_zero (by omega)
    rw [collected, hnil]
    rfl

/-- The loop of `get_keys_in_range`, with the key it has pushed last. -/
def keysLoop (startKey endKey : Bytes) : Option Bytes → List (Bytes × Bytes) → List Bytes
  | _, [] => []
  | lastSeen, (encKey, _) :: rest =>
      match KeyEncoder.decode encKey with
      | .error _ => keysLoop startKey endKey lastSeen rest
      | .ok (userKey, _) =>
          if startKey ≠ [] ∧ userKey < startKey then keysLoop startKey endKey lastSeen rest
          else if endKey ≠ [] ∧ endKey ≤ userKey then keysLoop startKey endKey lastSeen rest
          else if lastSeen ≠ some userKey then
            userKey :: keysLoop startKey endKey (some userKey) rest
          else keysLoop startKey endKey lastSeen rest

/-- The user keys from `startKey` up to `endKey` that have records, sorted and each once. -/
def getKeysInRange (startKey endKey : Bytes) (st : Store) : List Bytes :=
  ((keysLoop startKey endKey none (st.range .write [])).insertionSort (· ≤ ·)).destutter (· ≠ ·)

/-- The loop of `calculate_region_stats`, with the key it has counted last and the two counters.
These count what is on the disk, so they stay below `2 ^ 64`. -/
def statsLoop (startKey endKey : Bytes) : Option Bytes → ℕ → ℕ → List (Bytes × Bytes) → ℕ × ℕ
  | _, keyCount, totalBytes, [] => (keyCount, totalBytes)
  | lastSeen, keyCount, totalBytes, (encKey, valBytes) :: rest =>
      match KeyEncoder.decode encKey with
      | .error _ => statsLoop startKey endKey lastSeen keyCount totalBytes rest
      | .ok (userKey, _) =>
          if startKey ≠ [] ∧ userKey < startKey then
            statsLoop startKey endKey lastSeen keyCount totalBytes rest
          else if endKey ≠ [] ∧ endKey ≤ userKey then
            statsLoop startKey endKey lastSeen keyCount totalBytes rest
          else
            statsLoop startKey endKey (some userKey)
              (if lastSeen ≠ some userKey then keyCount + 1 else keyCount)
              (totalBytes + (encKey.length + valBytes.length)) rest

/-- The number of keys from `startKey` up to `endKey`, and the size of their records. -/
def calculateRegionStats (startKey endKey : Bytes) (st : Store) : ℕ × ℕ :=
  statsLoop startKey endKey none 0 0 (st.range .write [])

def findMedianKey (startKey endKey : Bytes) (st : Store) : Option Bytes :=
  let keys := getKeysInRange startKey endKey st
  if keys.length < 2 then none else keys[keys.length / 2]?

end StorageEngine

/-! ## Point reads -/

inductive MvccError where
  | keyIsLocked (primaryKey : Bytes) (lockTs : UInt64)
  | corruptedState
  deriving DecidableEq, Repr

namespace MvccReader

/-- The scan loop of `MvccReader::get` over the write records from `(user_key, read_ts)` on. -/
def getLoop (userKey : Bytes) (readTs : UInt64) :
    List (Bytes × Bytes) → Handler MvccError (Option Bytes)
  | [] => return none
  | (encKey, writeBytes) :: rest =>
      match KeyEncoder.decode encKey with
      | .error _ => .throw .corruptedState
      | .ok (currUserKey, commitTs) =>
          if currUserKey = userKey then
            if commitTs ≤ readTs then
              match WriteRecord.fromBytes writeBytes with
              | none => .throw .corruptedState
              | some ⟨startTs, .put⟩ => do
                  match ← Prog.lookup .default (KeyEncoder.encode userKey startTs) with
                  | some value => return some value
                  | none => .throw .corruptedState
              | some ⟨_, .delete⟩ => return none
              | some ⟨_, .rollback⟩ => getLoop userKey readTs rest
            else getLoop userKey readTs rest
          else return none

/-- Reads the value of `userKey` at `readTs`; fails on a lock with `start_ts <= read_ts`. -/
def get (userKey : Bytes) (readTs : UInt64) : Handler MvccError (Option Bytes) := do
  match ← Prog.lookup .lock userKey with
  | some lockBytes =>
      match Lock.fromBytes lockBytes with
      | .error _ => .throw .corruptedState
      | .ok lock =>
          if lock.startTs ≤ readTs then .throw (.keyIsLocked lock.primaryKey lock.startTs)
          else do
            let items ← Prog.walk .write (KeyEncoder.encode userKey readTs)
            getLoop userKey readTs items
  | none => do
      let items ← Prog.walk .write (KeyEncoder.encode userKey readTs)
      getLoop userKey readTs items

end MvccReader

end AcidKv
