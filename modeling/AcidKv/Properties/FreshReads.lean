import AcidKv.Properties.Puts
import AcidKv.Refine.Reads

/-!
# Reads after an acknowledged put

A put takes its timestamps from the clock of its machine and a `get` from the hybrid clock of the
node, and even if both clocks are the same one the two need not be in order.  The first timestamp
that the hybrid clock gives out in a millisecond is the start timestamp of the puts of that
millisecond, one below their commit timestamp.  So a `get` that comes in the millisecond in which
the put has read the clock may read below it; in every later one it reads above.
-/

namespace AcidKv

open KeyEncoder LockResolver Coordinator Raft

variable {api : RawNodeApi} {pb : Protobuf} {ι : Type} {puts : ι → Put} {staged : List ι}
  {done : Set ι} {st : Store}

/-- The keys that are put. -/
def putKeys (puts : ι → Put) : Set Bytes := Set.range fun i => (puts i).key

/-- No put commits at a start timestamp. -/
lemma Put.commitTs_ne_startTs (p q : Put) : p.commitTs ≠ q.startTs := by
  intro h
  have hp := p.toNat_commitTs
  have hq := q.toNat_startTs
  rw [h, hq] at hp
  omega

lemma Put.startTs_eq_of_commitTs {p q : Put} (h : p.commitTs = q.commitTs) :
    p.startTs = q.startTs := by
  have hp := p.toNat_commitTs
  have hq := q.toNat_commitTs
  rw [h, hq] at hp
  refine UInt64.toNat_inj.mp ?_
  rw [p.toNat_startTs, q.toNat_startTs]
  exact (Nat.succ.inj hp).symm

/-! ## The store -/

/-- One of the staged puts has this key and start timestamp. -/
def StagedAt (puts : ι → Put) (staged : List ι) (k : Bytes) (s : UInt64) : Prop :=
  ∃ j ∈ staged, (puts j).key = k ∧ (puts j).startTs = s

/-- Locks and records are those of staged puts, and the record of a put that is done stays. -/
structure PutsOnly (puts : ι → Put) (staged : List ι) (done : Set ι) (st : Store) : Prop where
  wf : WF (putKeys puts) st
  locks : ∀ k l, (view st).lock k = some l → l.op = .put ∧ StagedAt puts staged k l.startTs
  records : ∀ k ts w, (view st).write k ts = some w → w.op ≠ .rollback →
    w.op = .put ∧ ts = w.startTs + 1 ∧ StagedAt puts staged k w.startTs
  kept : ∀ i ∈ done, (view st).write (puts i).key (puts i).commitTs =
    some ⟨(puts i).startTs, .put⟩

namespace PutsOnly

lemma mem_putKeys {k : Bytes} {s : UInt64} (h : StagedAt puts staged k s) : k ∈ putKeys puts := by
  obtain ⟨j, -, hk, -⟩ := h
  exact ⟨j, hk⟩

/-- Ending a lock with a record that is none of the puts that are done, or theirs. -/
lemma settle (h : PutsOnly puts staged done st) {k : Bytes} {ts : UInt64} {w : WriteRecord}
    (hk : k ∈ putKeys puts)
    (hw : w.op ≠ .rollback → w.op = .put ∧ ts = w.startTs + 1 ∧ StagedAt puts staged k w.startTs)
    (hkept : ∀ i ∈ done, (puts i).key = k → (puts i).commitTs = ts →
      w = ⟨(puts i).startTs, .put⟩) :
    PutsOnly puts staged done (st.apply (settleBatch k ts w)) where
  wf := h.wf.settleBatch hk ts w
  locks k' l hl := by
    rw [view_settleBatch, View.settle_lock] at hl
    split_ifs at hl
    exact h.locks k' l hl
  records k' ts' w' hw' hop := by
    rw [view_settleBatch, View.settle_write] at hw'
    split_ifs at hw' with heq
    · obtain rfl := Option.some.inj hw'
      rw [heq.1, heq.2]
      exact hw hop
    · exact h.records k' ts' w' hw' hop
  kept i hi := by
    rw [view_settleBatch, View.settle_write]
    split_ifs with heq
    · rw [hkept i hi heq.1 heq.2]
    · exact h.kept i hi

lemma settling (puts : ι → Put) (staged : List ι) (done : Set ι) :
    Settling (fun k s op => op = .put ∧ StagedAt puts staged k s) (PutsOnly puts staged done) where
  locked h hg hl := h.locks _ _ (view_lock_of_get hg hl)
  rolledBack {st k s op} h hs := by
    refine h.settle (mem_putKeys hs.2) (fun hop => absurd rfl hop) fun i _ _ hts => ?_
    obtain ⟨j, -, -, rfl⟩ := hs.2
    exact absurd hts (Put.commitTs_ne_startTs _ _)
  committed {st k s op c} h hs hrec := by
    obtain ⟨rfl, hstaged⟩ := hs
    -- the record that there is already has the commit timestamp of the transaction
    obtain ⟨e, b, p, w, hg, hdec, hw, rfl, hop⟩ := hrec
    have hwrite : (view st).write p c = some w := by
      rw [← encode_of_decode hdec] at hg
      exact view_write_of_get hg hw
    obtain ⟨-, rfl, -⟩ := h.records p c w hwrite hop
    refine h.settle (mem_putKeys hstaged) (fun _ => ⟨rfl, rfl, hstaged⟩) fun i _ _ hts => ?_
    obtain ⟨j, -, -, hj⟩ := hstaged
    rw [← hj] at hts ⊢
    rw [Put.startTs_eq_of_commitTs hts]

lemma mono (h : PutsOnly puts staged done st) {done' : Set ι} (hsub : done' ⊆ done) :
    PutsOnly puts staged done' st :=
  ⟨h.wf, h.locks, h.records, fun i hi => h.kept i (hsub hi)⟩

lemma stage (h : PutsOnly puts staged done st) (i : ι) :
    PutsOnly puts (staged ++ [i]) done (st.apply (stageBatch (puts i).startTs (puts i).key 3000
      (.put (puts i).key (puts i).value))) := by
  have hmore : ∀ {k s}, StagedAt puts staged k s → StagedAt puts (staged ++ [i]) k s := by
    rintro k s ⟨j, hj, hjk⟩
    exact ⟨j, List.mem_append_left _ hj, hjk⟩
  refine ⟨h.wf.stageBatch _ _ _ ⟨i, rfl⟩, fun k l hl => ?_, fun k ts w hw hop => ?_, fun j hj => ?_⟩
  · rw [view_stageBatch] at hl
    simp only [View.stage, View.putLock_lock, View.stageData_lock, Mutation.key] at hl
    split_ifs at hl with hk
    · obtain rfl := Option.some.inj hl
      exact ⟨rfl, i, List.mem_append_right _ List.mem_cons_self, hk.symm, rfl⟩
    · obtain ⟨hop, hstaged⟩ := h.locks k l hl
      exact ⟨hop, hmore hstaged⟩
  · rw [view_stageBatch] at hw
    obtain ⟨hput, hts, hstaged⟩ := h.records k ts w hw hop
    exact ⟨hput, hts, hmore hstaged⟩
  · rw [view_stageBatch]
    exact h.kept j hj

lemma prewrite_sat (h : PutsOnly puts staged done st) (i : ι) :
    (puts i).prewrite.Sat (fun _ => True) (fun _ => True) (fun out st' =>
      (out = .ok () → PutsOnly puts (staged ++ [i]) done st') ∧
        ∀ e, out = .error e → PutsOnly puts staged done st') st :=
  (puts i).prewrite_sat (settling puts staged done) h fun _ h' => h'.stage i

/-- A commit that succeeds is done. -/
lemma commit_ok (h : PutsOnly puts staged done st) {i : ι} {clock : ℕ → UInt64} {st' : Store}
    (hrun : (puts i).commit.run clock st = (.ok (), st')) :
    PutsOnly puts staged (insert i done) st' := by
  obtain ⟨l, hl, hs, rfl⟩ := (((puts i).commit_sat h.wf).post hrun).1 rfl
  obtain ⟨hop, hstaged⟩ := h.locks _ l hl
  rw [hs] at hstaged
  rw [hop]
  have hsettle : PutsOnly puts staged done (st.apply (settleBatch (puts i).key
      (puts i).commitTs ⟨(puts i).startTs, .put⟩)) := by
    refine h.settle ⟨i, rfl⟩ (fun _ => ⟨rfl, rfl, hstaged⟩) fun j _ _ hts => ?_
    rw [Put.startTs_eq_of_commitTs hts]
  refine ⟨hsettle.wf, hsettle.locks, hsettle.records, fun j hj => ?_⟩
  rcases hj with rfl | hj
  · rw [view_settleBatch, View.settle_write, if_pos ⟨rfl, rfl⟩]
  · exact hsettle.kept j hj

lemma commit_error (h : PutsOnly puts staged done st) {i : ι} {clock : ℕ → UInt64} {e : TxnError}
    {st' : Store} (hrun : (puts i).commit.run clock st = (.error e, st')) :
    PutsOnly puts staged done st' := by
  rw [(((puts i).commit_sat h.wf).post hrun).2 e rfl]
  exact h

lemma get (h : PutsOnly puts staged done st) {key : Bytes} {r : UInt64} {clock : ℕ → UInt64}
    {out : Except TxnError (Option Bytes)} {st' : Store}
    (hrun : (Coordinator.get key r).run clock st = (out, st')) : PutsOnly puts staged done st' :=
  (keeps_get (settling puts staged done) (fun h => h.wf) (fun hs => ⟨rfl, hs.2⟩) h key r).post hrun

end PutsOnly

/-! ## What a read returns -/

lemma latestPut_spec {i j : ι} (h : latestPut puts staged i = some j) :
    j ∈ staged ∧ (puts j).key = (puts i).key ∧ (puts j).startTs = (puts i).startTs := by
  have hmem := List.mem_of_getLast? h
  simpa using hmem

/-- A read of `k` at `r` on a node with puts alone, `i` among those that are done: it is kept off by
a lock, or returns the value of a put of the key that has committed no earlier than `i`. -/
inductive ReadsRecent (puts : ι → Put) (staged : List ι) (i : ι) (r : UInt64) (st st' : Store) :
    Except TxnError (Option Bytes) → Prop
  | blocked {l : Lock} (hl : (view st).lock (puts i).key = some l) (hle : l.startTs ≤ r) :
      ReadsRecent puts staged i r st st' (.error (.keyLocked (puts i).key))
  | value {j : ι} (hj : j ∈ staged) (hkey : (puts j).key = (puts i).key)
      (hlo : (puts i).commitTs ≤ (puts j).commitTs) (hhi : (puts j).commitTs ≤ r)
      (hrecord : (view st').write (puts i).key (puts j).commitTs =
        some ⟨(puts j).startTs, .put⟩) :
      ReadsRecent puts staged i r st st' (.ok (some (puts j).value))

/-- Where the record of `i` stands, a read of its key at or above it finds that or a newer one. -/
lemma PutsOnly.readsTo (hst : PutsStaged puts staged st) (h : PutsOnly puts staged done st) {i : ι}
    (hi : i ∈ done) {r : UInt64} (hle : (puts i).commitTs ≤ r) {x : Option Bytes}
    (hx : ReadsTo (view st) (puts i).key r x) :
    ∃ j ∈ staged, (puts j).key = (puts i).key ∧ (puts i).commitTs ≤ (puts j).commitTs ∧
      (puts j).commitTs ≤ r ∧ x = some (puts j).value ∧
      (view st).write (puts i).key (puts j).commitTs = some ⟨(puts j).startTs, .put⟩ := by
  have hown := h.kept i hi
  cases x with
  | none =>
      rcases hx with ⟨c, s, -, hw, hop, -⟩ | hnone
      · obtain ⟨hput, -⟩ := h.records _ _ _ hw hop
        cases hput
      · cases hnone _ _ hown hle
  | some x =>
      obtain ⟨c, s, ⟨hc, hw, hop, hnew⟩, hdata⟩ := hx
      obtain ⟨-, hcs, j, hj, hkey, rfl⟩ := h.records _ _ _ hw hop
      obtain ⟨m, hm, hvalue⟩ := hst.data j hj
      obtain ⟨hmem, hmkey, hms⟩ := latestPut_spec hm
      rw [hkey, hdata, Option.some.injEq] at hvalue
      have hcm : (puts m).commitTs = c := by
        rw [hcs, Put.commitTs, hms]
      rw [← hcm, ← hms] at hw
      refine ⟨m, hmem, hmkey.trans hkey, ?_, hcm ▸ hc, by rw [hvalue], hw⟩
      rw [hcm]
      by_contra hlt
      cases hnew _ _ hown (UInt64.not_le.mp hlt) hle

lemma get_readsRecent (hU : PrefixFree (putKeys puts)) (hst : PutsStaged puts staged st)
    (h : PutsOnly puts staged done st) {i : ι} (hi : i ∈ done) {r : UInt64}
    (hle : (puts i).commitTs ≤ r) (clock : ℕ → UInt64) :
    ReadsRecent puts staged i r st ((Coordinator.get (puts i).key r).run clock st).2
      ((Coordinator.get (puts i).key r).run clock st).1 := by
  have hreads : (Call.get (puts i).key r).Reads (view st) (puts i).key r :=
    ⟨rfl, fun l hl => ⟨rfl, hl, rfl⟩⟩
  have hsat : (Coordinator.get (puts i).key r).Sat (fun _ => True) _ _ st := get_sat h.wf hreads
  rcases hrun : (Coordinator.get (puts i).key r).run clock st with ⟨out, st'⟩
  have hout := (hsat.post hrun).2
  have hst' := hst.get hrun
  have h' := h.get hrun
  cases out with
  | ok x =>
      obtain ⟨-, hx⟩ := ReadOutcome.readsTo hU hout
      obtain ⟨j, hj, hkey, hlo, hhi, rfl, hrecord⟩ := h'.readsTo hst' hi hle hx
      exact .value hj hkey hlo hhi hrecord
  | error e =>
      cases e with
      | keyLocked k' =>
          obtain rfl : k' = (puts i).key := hout
          -- a read that meets no lock does not fail like this
          by_contra hnone
          have hfree : Unlocked (view st) (puts i).key r := by
            intro l hl
            by_contra hlt
            exact hnone (.blocked hl (UInt64.not_lt.mp hlt))
          obtain ⟨out, hreader, hy⟩ := @readerGet_yields _ st r _ hU h.wf clock hfree
          rw [get_of_unlocked hreader hy.not_locked] at hrun
          cases out <;> simp [Except.mapError] at hrun
      | mvcc e =>
          cases e with
          | corruptedState =>
              obtain ⟨c, s, -, hw, hnone⟩ := hout
              obtain ⟨-, -, j, hj, hkey, rfl⟩ := h'.records _ _ _ hw (by simp)
              obtain ⟨m, -, hdata⟩ := hst'.data j hj
              rw [hkey, hnone] at hdata
              cases hdata
          | keyIsLocked => exact hout.elim
      | _ => exact hout.elim

/-! ## Runs in time -/

variable [DecidableEq ι]

/-- One clock for all, which does not go back: a step is not before the last one, and a put does not
come to the node before it has read the clock. -/
def Punctual (puts : ι → Put) (c : CliRun api ι) : CliStep ι → Prop
  | .put i time _ => c.now ≤ time ∧ (puts i).physicalNow ≤ time
  | .get _ time _ => c.now ≤ time

/-- The puts that were acknowledged. -/
def CliRun.acked (c : CliRun api ι) : Set ι := {i | c.phase i = .acknowledged}

/-- A put that goes on or fails does not acknowledge another one. -/
lemma CliRun.acked_subset {c c' : CliRun api ι} {i : ι} {p : PutPhase}
    (h : c'.phase = Function.update c.phase i p) (hp : p ≠ .acknowledged) : c'.acked ⊆ c.acked := by
  intro j hj
  change c'.phase j = _ at hj
  rw [h] at hj
  exact (phase_of_update hj).resolve_left fun hack => hp hack.2

lemma CliRun.acked_subset_insert {c c' : CliRun api ι} {i : ι} {p : PutPhase}
    (h : c'.phase = Function.update c.phase i p) : c'.acked ⊆ insert i c.acked := by
  intro j hj
  change c'.phase j = _ at hj
  rw [h] at hj
  exact (phase_of_update hj).imp_left And.left

/-- What holds throughout a run of puts and reads in time. -/
structure Timely (puts : ι → Put) (c : CliRun api ι) : Prop extends PutsTracked puts c where
  only : PutsOnly puts c.staged c.acked c.node.storage
  acknowledged : ∀ i ∈ c.acked, i ∈ c.staged
  hlc : c.node.hlc.latestPhysical ≤ c.now
  read : ∀ i ∈ c.staged, (puts i).physicalNow ≤ c.now

/-- What `now` returns when the clock has not been ahead of the time. -/
lemma now_eq_of_le {inner : HlcInner} {time : UInt64} (h : inner.latestPhysical ≤ time) :
    (HybridLogicalClock.now time inner).2.latestPhysical = time ∧
      (HybridLogicalClock.now time inner).1 =
        Timestamp.encode ⟨time, (HybridLogicalClock.now time inner).2.logical⟩ := by
  unfold HybridLogicalClock.now
  split_ifs with hlt
  · exact ⟨rfl, rfl⟩
  · obtain rfl : inner.latestPhysical = time := UInt64.le_antisymm h (UInt64.not_lt.mp hlt)
    exact ⟨rfl, rfl⟩

namespace Timely

variable {c : CliRun api ι}

omit [DecidableEq ι] in
lemma start {nodeId nowMs : UInt64} {node : NodeState api}
    (hnew : NodeState.new api pb nodeId nowMs Keyspace.empty = .ok node) :
    Timely puts (CliRun.start node nowMs) := by
  obtain ⟨hstorage, hhlc, -⟩ := NodeState.fields_of_new hnew
  have hnone : ∀ i, i ∉ (CliRun.start node nowMs : CliRun api ι).acked := by
    intro i hi
    cases hi
  refine ⟨⟨⟨?_, by simp [CliRun.start], by simp [CliRun.start]⟩, by simp [CliRun.start]⟩,
    ⟨?_, ?_, ?_, fun i hi => absurd hi (hnone i)⟩, fun i hi => absurd hi (hnone i), ?_,
    by simp [CliRun.start]⟩
  · rw [CliRun.start, hstorage]
    exact wf_empty _
  · rw [CliRun.start, hstorage]
    exact wf_empty _
  · intro k l hl
    simp [CliRun.start, hstorage] at hl
  · intro k ts w hw
    simp [CliRun.start, hstorage] at hw
  · rw [CliRun.start, hhlc]
    exact UInt64.le_refl nowMs

lemma advance (h : Timely puts c) {i : ι} {time : UInt64} (hnow : c.now ≤ time)
    (hread : (puts i).physicalNow ≤ time) (clock : ℕ → UInt64) :
    Timely puts { c.advance puts i clock with now := time } := by
  have htracked := h.toPutsTracked.advance i clock
  have hhlc : c.node.hlc.latestPhysical ≤ time := UInt64.le_trans h.hlc hnow
  have hold : ∀ j ∈ c.staged, (puts j).physicalNow ≤ time :=
    fun j hj => UInt64.le_trans (h.read j hj) hnow
  have hadv := c.advances puts i clock
  generalize c.advance puts i clock = c' at hadv htracked
  have hputs : PutsTracked puts { c' with now := time } := ⟨htracked.store, htracked.prewritten⟩
  cases hadv with
  | ended _ => exact ⟨hputs, h.only, h.acknowledged, hhlc, hold⟩
  | prewritten _ hrun =>
      have honly := ((h.only.prewrite_sat i).post hrun).1 rfl
      refine ⟨hputs, honly.mono (CliRun.acked_subset rfl (by simp)), fun j hj => ?_, hhlc,
        fun j hj => ?_⟩
      · exact List.mem_append_left _ (h.acknowledged j (CliRun.acked_subset rfl (by simp) hj))
      · rcases List.mem_append.mp hj with hj | hj
        · exact hold j hj
        · rw [List.mem_singleton.mp hj]
          exact hread
  | refused _ hrun =>
      have honly := ((h.only.prewrite_sat i).post hrun).2 _ rfl
      exact ⟨hputs, honly.mono (CliRun.acked_subset rfl (by simp)),
        fun j hj => h.acknowledged j (CliRun.acked_subset rfl (by simp) hj), hhlc, hold⟩
  | acknowledged hpre hrun =>
      have honly := h.only.commit_ok hrun
      refine ⟨hputs, honly.mono (CliRun.acked_subset_insert rfl), fun j hj => ?_, hhlc, hold⟩
      rcases CliRun.acked_subset_insert rfl hj with rfl | hj
      · exact h.prewritten j hpre
      · exact h.acknowledged j hj
  | rejected _ hrun =>
      have honly := h.only.commit_error hrun
      exact ⟨hputs, honly.mono (CliRun.acked_subset rfl (by simp)),
        fun j hj => h.acknowledged j (CliRun.acked_subset rfl (by simp) hj), hhlc, hold⟩

lemma step (h : Timely puts c) {s : CliStep ι} (hs : Punctual puts c s) :
    Timely puts (c.step puts s) := by
  cases s with
  | put i time clock => exact h.advance hs.1 hs.2 clock
  | get key time clock =>
      have hputs := h.toPutsTracked.step (.get key time clock)
      rw [CliRun.step, NodeState.get_of_run rfl] at hputs ⊢
      have hlc := now_eq_of_le (UInt64.le_trans h.hlc hs)
      exact ⟨hputs, h.only.get rfl, h.acknowledged, UInt64.le_of_eq hlc.1,
        fun i hi => UInt64.le_trans (h.read i hi) hs⟩

end Timely

/-! ## The count of the hybrid clock -/

/-- A `get` in the millisecond `t`. -/
def CliStep.readsAt (t : UInt64) : CliStep ι → Bool
  | .put .. => false
  | .get _ time _ => time = t

/-- How often the hybrid clock was read in the millisecond `t`, its first reading at the start of
the node included. -/
def clockReadings (nowMs : UInt64) (steps : List (CliStep ι)) (t : UInt64) : ℕ :=
  steps.countP (·.readsAt t) + if nowMs = t then 1 else 0

omit [DecidableEq ι] in
lemma clockReadings_append (nowMs : UInt64) (steps : List (CliStep ι)) (s : CliStep ι)
    (t : UInt64) : clockReadings nowMs (steps ++ [s]) t =
      clockReadings nowMs steps t + if s.readsAt t then 1 else 0 := by
  simp only [clockReadings, List.countP_append, List.countP_singleton]
  omega

/-- The counter says how often the clock was read in the millisecond it stands at, and it was not
read in any later one. -/
structure Counts (nowMs : UInt64) (steps : List (CliStep ι)) (hlc : HlcInner) : Prop where
  later : ∀ t, hlc.latestPhysical < t → clockReadings nowMs steps t = 0
  read : 0 < clockReadings nowMs steps hlc.latestPhysical
  logical : hlc.logical.toNat = (clockReadings nowMs steps hlc.latestPhysical - 1) % 2 ^ 32

namespace Counts

variable {nowMs time : UInt64} {steps : List (CliStep ι)} {hlc : HlcInner}

omit [DecidableEq ι]

lemma put (h : Counts nowMs steps hlc) (i : ι) (clock : ℕ → UInt64) :
    Counts nowMs (steps ++ [.put i time clock]) hlc := by
  have hsame : clockReadings nowMs (steps ++ [.put i time clock]) = clockReadings nowMs steps :=
    funext fun t => clockReadings_append nowMs steps _ t
  exact ⟨hsame ▸ h.later, hsame ▸ h.read, hsame ▸ h.logical⟩

/-- The counter after one more reading. -/
lemma logical_now (h : Counts nowMs steps hlc) (hle : hlc.latestPhysical ≤ time) :
    (HybridLogicalClock.now time hlc).2.logical.toNat =
      clockReadings nowMs steps time % 2 ^ 32 := by
  unfold HybridLogicalClock.now
  split_ifs with hlt
  · rw [h.later time hlt]
    rfl
  · obtain rfl : hlc.latestPhysical = time := UInt64.le_antisymm hle (UInt64.not_lt.mp hlt)
    have hread := h.read
    have hlogical := h.logical
    simp only [UInt32.toNat_add, UInt32.toNat_one]
    omega

lemma get (h : Counts nowMs steps hlc) (hle : hlc.latestPhysical ≤ time) (key : Bytes)
    (clock : ℕ → UInt64) : Counts nowMs (steps ++ [.get key time clock])
      (HybridLogicalClock.now time hlc).2 := by
  have hphysical := (now_eq_of_le hle).1
  refine ⟨fun t ht => ?_, ?_, ?_⟩
  · rw [hphysical] at ht
    have hne : time ≠ t := fun heq => UInt64.lt_irrefl t (heq ▸ ht)
    rw [clockReadings_append, h.later t (UInt64.lt_of_le_of_lt hle ht)]
    simp [CliStep.readsAt, hne]
  · rw [hphysical, clockReadings_append]
    simp [CliStep.readsAt]
  · rw [h.logical_now hle, hphysical, clockReadings_append]
    simp [CliStep.readsAt]

end Counts

lemma counts_run {nodeId nowMs : UInt64} {node : NodeState api}
    (hnew : NodeState.new api pb nodeId nowMs Keyspace.empty = .ok node) (steps : List (CliStep ι))
    (hrun : Guarded (CliRun.step puts) (Punctual puts) (CliRun.start node nowMs) steps) :
    Counts nowMs steps (steps.foldl (CliRun.step puts) (CliRun.start node nowMs)).node.hlc := by
  induction steps using List.reverseRecOn with
  | nil =>
      obtain ⟨-, hhlc, -⟩ := NodeState.fields_of_new hnew
      rw [List.foldl_nil, CliRun.start, hhlc]
      refine ⟨fun t ht => ?_, by simp [clockReadings, HybridLogicalClock.new],
        by simp [clockReadings, HybridLogicalClock.new]⟩
      have hne : nowMs ≠ t := fun heq => UInt64.lt_irrefl t (heq ▸ ht)
      simp [clockReadings, hne]
  | append_singleton steps s ih =>
      obtain ⟨hrun, hs, -⟩ := guarded_append.mp hrun
      have hc : Timely puts (steps.foldl (CliRun.step puts) (CliRun.start node nowMs)) :=
        hrun.invariant (fun _ _ h hs => h.step hs) (.start hnew)
      have hcounts := ih hrun
      rw [List.foldl_append, List.foldl_cons, List.foldl_nil]
      generalize steps.foldl (CliRun.step puts) (CliRun.start node nowMs) = c at hc hcounts hs ⊢
      cases s with
      | put i time clock =>
          have hadv := c.advances puts i clock
          rw [CliRun.step]
          generalize c.advance puts i clock = c' at hadv ⊢
          cases hadv <;> exact hcounts.put i clock
      | get key time clock =>
          rw [CliRun.step, NodeState.get_of_run rfl]
          exact hcounts.get (UInt64.le_trans hc.hlc hs) key clock

/-- From a fresh start, with one clock for all that does not go back, and after a put was
acknowledged: a `get` of its key reads at or above its commit timestamp exactly if it comes in a
later millisecond than the put has started in, or if it comes in the same one and the hybrid clock
was read there before, though not a multiple of `2 ^ 16` times.  Then it returns the value of that
put or of one that has committed with a later timestamp, unless a lock keeps it off, provided that
no key is a prefix of another and no other put of the key has the same start timestamp and another
value. -/
theorem fresh_read_iff (puts : ι → Put) {nodeId nowMs : UInt64} {node : NodeState api}
    (hnew : NodeState.new api pb nodeId nowMs Keyspace.empty = .ok node) (steps : List (CliStep ι))
    (hrun : Guarded (CliRun.step puts) (Punctual puts) (CliRun.start node nowMs) steps) (i : ι)
    (hack : (steps.foldl (CliRun.step puts) (CliRun.start node nowMs)).phase i = .acknowledged)
    (time : UInt64)
    (htime : (steps.foldl (CliRun.step puts) (CliRun.start node nowMs)).now ≤ time)
    (clock : ℕ → UInt64) :
    let c := steps.foldl (CliRun.step puts) (CliRun.start node nowMs)
    let readTs := (c.node.readTs 0 time).1
    let get := c.node.get (puts i).key 0 time clock
    let begun := (puts i).physicalNow.toNat % 2 ^ 48
    ((puts i).commitTs ≤ readTs ↔ begun < time.toNat % 2 ^ 48 ∨
        (begun = time.toNat % 2 ^ 48 ∧ ¬ 2 ^ 16 ∣ clockReadings nowMs steps time)) ∧
      ((puts i).commitTs ≤ readTs → PrefixFree (putKeys puts) →
        (∀ j ∈ c.staged, (puts j).key = (puts i).key → (puts j).startTs = (puts i).startTs →
          (puts j).value = (puts i).value) →
        ((∃ l, (view c.node.storage).lock (puts i).key = some l ∧ l.startTs ≤ readTs) ∧
            get.1 = .error (.internal (.keyLocked (puts i).key))) ∨
          ∃ j ∈ c.staged, (puts j).key = (puts i).key ∧
            (puts i).commitTs ≤ (puts j).commitTs ∧ (puts j).commitTs ≤ readTs ∧
            (view get.2.storage).write (puts j).key (puts j).commitTs =
              some ⟨(puts j).startTs, .put⟩ ∧
            get.1 = .ok ⟨true, (puts j).value, ""⟩ ∧
            ((puts j).commitTs = (puts i).commitTs → (puts j).value = (puts i).value)) := by
  intro c readTs get begun
  have hc : Timely puts c := hrun.invariant (fun _ _ h hs => h.step hs) (.start hnew)
  have hle := UInt64.le_trans hc.hlc htime
  obtain ⟨-, hts⟩ := now_eq_of_le hle
  constructor
  · have hlogical : (HybridLogicalClock.now time c.node.hlc).2.logical.toNat =
        clockReadings nowMs steps time % 2 ^ 32 := (counts_run hnew steps hrun).logical_now hle
    have hnat : readTs.toNat = time.toNat % 2 ^ 48 * 2 ^ 16 +
        clockReadings nowMs steps time % 2 ^ 16 := by
      change (HybridLogicalClock.now time c.node.hlc).1.toNat = _
      rw [hts, Timestamp.toNat_encode_mod, hlogical]
      simp only [Nat.mod_mod_of_dvd _ (show 2 ^ 16 ∣ 2 ^ 32 by decide)]
    rw [UInt64.le_iff_toNat_le, (puts i).toNat_commitTs, hnat, Nat.dvd_iff_mod_eq_zero]
    change begun * 2 ^ 16 + 1 ≤ _ ↔ _
    have hlow : clockReadings nowMs steps time % 2 ^ 16 < 2 ^ 16 := Nat.mod_lt _ (by decide)
    omega
  · intro hle hU hsame
    rcases hcoord : (Coordinator.get (puts i).key readTs).run clock c.node.storage with ⟨out, st'⟩
    have hget : get = _ := NodeState.get_of_run hcoord
    have hrecent := get_readsRecent hU hc.store hc.only hack hle clock
    rw [hcoord] at hrecent
    rw [hget]
    cases hrecent with
    | @blocked l hl hbelow => exact Or.inl ⟨⟨l, hl, hbelow⟩, rfl⟩
    | @value j hj hkey hlo hhi hrecord =>
        rw [← hkey] at hrecord
        refine Or.inr ⟨j, hj, hkey, hlo, hhi, hrecord, rfl, fun heq => ?_⟩
        exact hsame j hj hkey (Put.startTs_eq_of_commitTs heq)

/-- A put in the millisecond 7. -/
def lonePut : Unit → Put := fun _ => ⟨[1], [10], 7⟩

/-- A read in the same millisecond returns its value, if another one came before it. -/
theorem fresh_read_second :
    let clock : ℕ → UInt64 := fun _ => 7
    let c := [CliStep.put () 7 clock, .put () 7 clock, .get [2] 7 clock].foldl
      (CliRun.step lonePut) (CliRun.start started 0)
    (lonePut ()).commitTs ≤ (c.node.readTs 0 7).1 ∧
      (c.node.get [1] 0 7 clock).1 = .ok ⟨true, [10], ""⟩ := by
  intro clock c
  have hU : PrefixFree (putKeys lonePut) := by
    rintro a ⟨_, rfl⟩ b ⟨_, rfl⟩ _
    rfl
  obtain ⟨hiff, hvalue⟩ := fresh_read_iff lonePut new_started
    [CliStep.put () 7 clock, .put () 7 clock, .get [2] 7 clock]
    ⟨⟨by decide, by decide⟩, ⟨by decide, by decide⟩, UInt64.le_refl 7, trivial⟩ () (by decide) 7
    (by decide) clock
  have hle := hiff.mpr (Or.inr ⟨by decide, by decide⟩)
  refine ⟨hle, ?_⟩
  rcases hvalue hle hU fun _ _ _ _ => rfl with ⟨-, hblocked⟩ | ⟨j, -, -, -, -, -, hread, -⟩
  · exact absurd hblocked (by decide)
  · exact hread

/-- A read in the same millisecond does not, if it is the first there. -/
theorem fresh_read_missed :
    let clock : ℕ → UInt64 := fun _ => 7
    let c := [CliStep.put () 7 clock, .put () 7 clock].foldl (CliRun.step lonePut)
      (CliRun.start started 0)
    c.phase () = .acknowledged ∧ (c.node.readTs 0 7).1 < (lonePut ()).commitTs ∧
      (c.node.get [1] 0 7 clock).1 = .ok ⟨false, [], ""⟩ := by
  decide

end AcidKv
