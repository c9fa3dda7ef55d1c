import Mathlib.Data.Set.Basic
import Mathlib.Tactic.Common

/-!
# Snapshot isolation

What a transactional store with versions is for, without the store.  A database is the set of the
transactions that are committed, each with the interval from its start to its commit and with what
it writes: a value for each key it puts, and the absence of one for each key it deletes.

A read of a key at a time sees the last version committed by then (`ReadsAt`).  A set of reads and a
database are snapshot isolated if every read sees its snapshot, and no two transactions that write
the same key overlap.  The reads are judged by one database, that of the end: a commit that comes
after a read must not change what the read should have seen.
-/

/-- A committed transaction over times `τ`, keys `κ` and values `ν`. -/
structure CommittedTxn (τ κ ν : Type) where
  start : τ
  commit : τ
  writes : κ → Option (Option ν)

abbrev Database (τ κ ν : Type) := Set (CommittedTxn τ κ ν)

namespace Database

variable {τ κ ν : Type} [LE τ] [LT τ] {D : Database τ κ ν} {k : κ} {r ct : τ} {x : Option ν}

/-- A transaction of the database writes `x` to `k` and commits at `ct`. -/
def Version (D : Database τ κ ν) (k : κ) (ct : τ) (x : Option ν) : Prop :=
  ∃ T ∈ D, T.commit = ct ∧ T.writes k = some x

/-- The last version of `k` at or below `r` is `x`; without a version the key is absent. -/
def ReadsAt (D : Database τ κ ν) (k : κ) (r : τ) (x : Option ν) : Prop :=
  (∃ ct, D.Version k ct x ∧ ct ≤ r ∧ ∀ ct' y, D.Version k ct' y → ct' ≤ r → ct' ≤ ct) ∨
    (x = none ∧ ∀ ct y, D.Version k ct y → ¬ ct ≤ r)

/-- Two transactions that write the same key do not overlap. -/
def ConflictFree (D : Database τ κ ν) : Prop :=
  ∀ T ∈ D, ∀ T' ∈ D, T ≠ T' → (∃ k, (T.writes k).isSome ∧ (T'.writes k).isSome) →
    T.commit < T'.start ∨ T'.commit < T.start

/-- A database together with reads of keys at times. -/
structure SnapshotIsolated (D : Database τ κ ν) (reads : κ → τ → Option ν → Prop) : Prop where
  forward : ∀ T ∈ D, T.start < T.commit
  conflictFree : D.ConflictFree
  reads : ∀ k r x, reads k r x → D.ReadsAt k r x

end Database
