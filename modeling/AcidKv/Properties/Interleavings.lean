import AcidKv.Refine.Evidence

/-!
# Reads beside everything else

The handlers of a node run at the same time, and a reader may be at any point of its own when another
one commits a batch, rolls back what it has just read or collects garbage.  Some guarantees do not
need the requests to be served one after the other.

A read never returns what was not put and committed.  And where nothing is collected and no key is
both deleted and read, no handler ever finds an entry missing or unreadable, although a reader goes
from the lock to the records and from there to the value in steps of their own, and a commit writes
the record of a lock that it has read some time before.
-/

namespace AcidKv

abbrev Worker := Thread Call Part Bytes Bytes UInt64 TxnError Reply

/-- The handler has ended, and has read `x` on `k` at `r`. -/
inductive HasReturned (w : Worker) (k : Bytes) (r : UInt64) (x : Bytes) : Prop where
  | get (hjob : w.job = .get k r) (hend : w.prog = .pure (.value (some x)))
  | scan {a b : Bytes} {n : UInt32} {kvs : List (Bytes × Bytes)} (hjob : w.job = .scan a b n r)
      (hend : w.prog = .pure (.pairs kvs)) (hx : (k, x) ∈ kvs)

/-- The requests that a schedule starts. -/
def Started (cs : Schedule) (c : Call) : Prop := .start c ∈ cs

/-- Under every schedule the partitions are in order. -/
theorem accounted_after (cs : Schedule) :
    ((Workers.idle Keyspace.empty).after cs).Backed (Accounted (Started cs)) ∧
      ((Workers.idle Keyspace.empty).after cs).Verified
        (fun _ => Justified (Accounted (Started cs))) (ReplyEvidence (Started cs)) := by
  refine Pool.Backed.run ⟨?_, ?_, ?_⟩ ?_ fun c hc => handler_evidence hc
  · intro p k x hx
    simp [Workers.idle] at hx
  · intro w hw
    cases hw
  · intro w hw
    cases hw
  · intro w hw
    cases hw

/-- The value of a read was put by one request, and the transaction committed by another. -/
lemma ReadEvidence.origin {S : Call → Prop} {st : Store} {h : Trace} {k x : Bytes} {r : UInt64}
    (hs : ReadEvidence S k r (.ok (some x)) h)
    (hseen : ∀ p e b, Saw h p e b → Accounted S st p e b) :
    ∃ s, (∃ c, S c ∧ ∃ p, c.Prewrites s p (.put k x)) ∧
      ∃ c, S c ∧ ∃ ct ks, c.commitArgs = some (s, ct, ks) ∧ ct ≤ r := by
  obtain ⟨ct, s, e, b, hle, hsaw, hdec, hw, hsaw'⟩ := hs
  obtain ⟨k₁, ct₁, w, rfl, hw₁, hcommit, -⟩ := hseen _ _ _ hsaw
  obtain ⟨k₂, s₂, heq, hput⟩ := hseen _ _ _ hsaw'
  obtain ⟨rfl, rfl⟩ := KeyEncoder.encode_inj.mp heq
  rw [KeyEncoder.decode_encode] at hdec
  cases hdec
  rw [hw] at hw₁
  cases hw₁
  obtain ⟨c, hc, ks, hargs⟩ := hcommit OpType.noConfusion
  exact ⟨s, hput, c, hc, ct, ks, hargs, hle⟩

/-- **No dirty or invented reads under concurrency.**  Under every schedule of any requests, garbage
collection included: what a `get` or a `scan` at `r` has returned for `k` was put on `k` by a prewrite
that has been requested, and a commit of its transaction at or below `r` has been requested. -/
theorem interleaved_read_prewritten_and_committed (cs : Schedule) (w : Worker)
    (hw : w ∈ ((Workers.idle Keyspace.empty).after cs).threads) (k x : Bytes) (r : UInt64)
    (hread : HasReturned w k r x) :
    ∃ s, (∃ c, Started cs c ∧ ∃ p, c.Prewrites s p (.put k x)) ∧
      ∃ c, Started cs c ∧ ∃ ct ks, c.commitArgs = some (s, ct, ks) ∧ ct ≤ r := by
  obtain ⟨hbacked, hverified⟩ := accounted_after cs
  have hdone := hverified w hw
  cases hread with
  | get hjob hend =>
      rw [hend] at hdone
      exact (hdone.2.1 k r x hjob rfl).origin (hbacked.seen w hw)
  | scan hjob hend hx =>
      rw [hend] at hdone
      exact (hdone.2.2 _ _ _ r _ hjob rfl _ hx).origin (hbacked.seen w hw)

/-- A reader meets the lock before the commit goes on, and rolls it forward after. -/
def readerMeetsCommit : Schedule :=
  [.start (.prewrite 65536 [.put [1] [10]] [1] 3000), .step 0 0, .step 0 0, .step 0 0,
    .start (.commit 65536 65537 [[1]]), .start (.get [1] 70000),
    .step 2 0, .step 1 0, .step 1 0, .step 2 0, .step 2 0, .step 2 0, .step 2 0, .step 2 0]

theorem interleaved_read_prewritten_and_committed_meets :
    ∃ s, (∃ c, Started readerMeetsCommit c ∧ ∃ p, c.Prewrites s p (.put [1] [10])) ∧
      ∃ c, Started readerMeetsCommit c ∧ ∃ ct ks, c.commitArgs = some (s, ct, ks) ∧ ct ≤ 70000 :=
  interleaved_read_prewritten_and_committed readerMeetsCommit _
    (List.mem_cons_of_mem _ (List.mem_cons_of_mem _ List.mem_cons_self)) [1] [10] 70000
    (.get rfl rfl)

/-- **No handler finds corrupted state.**  Under every schedule, a request other than a read never
ends with it, and none does where nothing is collected and no key that is read is deleted. -/
theorem interleaved_not_corrupted (cs : Schedule) (w : Worker)
    (hw : w ∈ ((Workers.idle Keyspace.empty).after cs).threads) (e : TxnError)
    (hend : w.prog = .throw e) (hok : w.job.readTs = none ∨ Undisturbed (Started cs)) :
    ¬ e.Corrupted := by
  obtain ⟨hbacked, hverified⟩ := accounted_after cs
  have hdone := hverified w hw
  rw [hend] at hdone
  intro hcor
  obtain ⟨hreads, hdisturbed⟩ := hdone.1 e rfl (hbacked.lived w hw) hcor
  rcases hok with hnone | hundisturbed
  · rw [hnone] at hreads
    cases hreads
  · exact hdisturbed hundisturbed

/-- A reader that meets a lock and gives up while it is alive. -/
def readerMeetsLock : Schedule :=
  [.start (.prewrite 65536 [.put [1] [10]] [1] 3000), .step 0 0, .step 0 0, .step 0 0,
    .start (.get [1] 70000), .step 1 0, .step 1 0, .step 1 0, .step 1 0, .step 1 0]

theorem interleaved_not_corrupted_locked :
    ∃ w ∈ ((Workers.idle Keyspace.empty).after readerMeetsLock).threads, ∃ e,
      w.job = .get [1] 70000 ∧ w.prog = .throw e ∧ e = .keyLocked [1] ∧ ¬ e.Corrupted := by
  have hundisturbed : Undisturbed (Started readerMeetsLock) := by
    refine ⟨?_, ?_⟩
    · intro sp hsp
      simp [Started, readerMeetsLock] at hsp
    · rintro c c' s p k hc - ⟨ms, ttl, hargs, hm⟩
      simp only [Started, readerMeetsLock, List.mem_cons, Choice.start.injEq, reduceCtorEq,
        List.not_mem_nil, or_false, false_or] at hc
      rcases hc with rfl | rfl
      · cases hargs
        simp at hm
      · cases hargs
  refine ⟨_, List.mem_cons_of_mem _ List.mem_cons_self, .keyLocked [1], rfl, rfl, rfl, ?_⟩
  exact interleaved_not_corrupted readerMeetsLock _ (List.mem_cons_of_mem _ List.mem_cons_self) _
    rfl (Or.inr hundisturbed)

end AcidKv
