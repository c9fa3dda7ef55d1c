import AcidKv.Node.Cli
import AcidKv.Refine.PointReads
import AcidKv.Refine.Settling

/-!
# What an acknowledged put has installed

A put is identified on the node by its key and start timestamp alone.  Two puts of one key with the
same reading of the clock are one transaction: the prewrite of the second takes the lock of the
first for its own and replaces the value.  Whichever commits installs what was prewritten last
under that key and timestamp, and only if this is its own value does it read it back.
-/

namespace AcidKv

open KeyEncoder LockResolver Coordinator Raft

variable {api : RawNodeApi} {ι : Type} {puts : ι → Put} {staged : List ι} {st : Store}

/-- The put that was prewritten last with the key and start timestamp of `i`. -/
def latestPut (puts : ι → Put) (staged : List ι) (i : ι) : Option ι :=
  (staged.filter fun j => (puts j).key = (puts i).key ∧
    (puts j).startTs = (puts i).startTs).getLast?

lemma latestPut_append (puts : ι → Put) (staged : List ι) (i j : ι) :
    latestPut puts (staged ++ [j]) i =
      if (puts j).key = (puts i).key ∧ (puts j).startTs = (puts i).startTs then some j
      else latestPut puts staged i := by
  rw [latestPut, List.filter_append]
  split_ifs with h
  · simp [h]
  · simp [latestPut, h]

/-- A read at a version of the key itself stops there. -/
lemma sees_at {v : View} {k : Bytes} {c : UInt64} {w : WriteRecord} (hw : v.write k c = some w)
    (hop : w.op ≠ .rollback) : Sees v k c c w where
  le := UInt64.le_refl c
  write := hw
  holds := hop
  newest _ _ _ hlt hle := absurd (UInt64.lt_of_lt_of_le hlt hle) (UInt64.lt_irrefl c)
  clear _ _ _ _ hle hlt := absurd (Std.lt_of_le_of_lt hle hlt) (List.lt_irrefl _)

/-! ## One request -/

/-- A prewrite that fails has settled a lock at most; one that succeeds has staged the put. -/
lemma Put.prewrite_sat (p : Put) {S : Bytes → UInt64 → OpType → Prop} {I J : Store → Prop}
    (hI : Settling S I) (hst : I st)
    (hstage : ∀ st', I st' → J (st'.apply (stageBatch p.startTs p.key 3000 (.put p.key p.value)))) :
    p.prewrite.Sat (fun _ => True) (fun _ => True) (fun out st' =>
      (out = .ok () → J st') ∧ ∀ e, out = .error e → I st') st := by
  refine keeps_checked (fun _ _ => trivial) hst (keeps_clearLockThen hI hst _ _
    fun st' h' => keeps_recheckLock h' _ _) (fun e st' h' => ⟨by simp, fun _ _ => h'⟩)
    fun st' h' => ?_
  exact ⟨trivial, fun _ => hstage st' h', by simp⟩

/-- A commit that succeeds has found the lock of its transaction. -/
lemma Put.commit_sat (p : Put) {U : Set Bytes} (hwf : WF U st) :
    p.commit.Sat (fun _ => True) (fun _ => True) (fun out st' =>
      (out = .ok () → ∃ l, (view st).lock p.key = some l ∧ l.startTs = p.startTs ∧
        st' = st.apply (settleBatch p.key p.commitTs ⟨p.startTs, l.op⟩)) ∧
        ∀ e, out = .error e → st' = st) st := by
  simp only [Put.commit, Coordinator.commit, Prog.sat_bind, Prog.sat_lookup, Prog.then_ok]
  cases hg : st.get .lock p.key with
  | none => exact ⟨by simp, fun _ _ => rfl⟩
  | some b =>
      obtain ⟨-, l, hl⟩ := hwf.lock _ b hg
      simp only [hl]
      split_ifs with hs
      · exact ⟨trivial, fun _ => ⟨l, view_lock_of_get hg hl, hs, rfl⟩, by simp⟩
      · exact ⟨by simp, fun _ _ => rfl⟩

/-! ## The invariant -/

/-- The locks of the prewritten puts are those of puts, and under the key and start timestamp of
each stands the value that came last. -/
structure PutsStaged (puts : ι → Put) (staged : List ι) (st : Store) : Prop where
  wf : WF Set.univ st
  ops : ∀ i ∈ staged, ∀ l, (view st).lock (puts i).key = some l →
    l.startTs = (puts i).startTs → l.op = .put
  data : ∀ i ∈ staged, ∃ j, latestPut puts staged i = some j ∧
    (view st).data (puts i).key (puts i).startTs = some (puts j).value

namespace PutsStaged

lemma settle (h : PutsStaged puts staged st) (k : Bytes) (ts : UInt64) (w : WriteRecord) :
    PutsStaged puts staged (st.apply (settleBatch k ts w)) where
  wf := h.wf.settleBatch (Set.mem_univ k) ts w
  ops i hi l hl := by
    rw [view_settleBatch, View.settle_lock] at hl
    split_ifs at hl
    exact h.ops i hi l hl
  data i hi := by
    rw [view_settleBatch, View.settle_data]
    exact h.data i hi

lemma settling (puts : ι → Put) (staged : List ι) :
    Settling (fun _ _ _ => True) (PutsStaged puts staged) where
  locked _ _ _ := trivial
  rolledBack h _ := h.settle _ _ _
  committed h _ _ := h.settle _ _ _

lemma stage (h : PutsStaged puts staged st) (i : ι) :
    PutsStaged puts (staged ++ [i]) (st.apply (stageBatch (puts i).startTs (puts i).key 3000
      (.put (puts i).key (puts i).value))) := by
  refine ⟨h.wf.stageBatch _ _ _ (Set.mem_univ _), fun j hj l hl hs => ?_, fun j hj => ?_⟩
  · rw [view_stageBatch] at hl
    simp only [View.stage, View.putLock_lock, View.stageData_lock, Mutation.key] at hl
    split_ifs at hl with hk
    · cases hl
      rfl
    · rcases List.mem_append.mp hj with hj | hj
      · exact h.ops j hj l hl hs
      · rw [List.mem_singleton.mp hj] at hk
        exact absurd rfl hk
  · rw [latestPut_append, view_stageBatch]
    simp only [View.stage, View.putLock_data, View.stageData]
    by_cases hsame : (puts i).key = (puts j).key ∧ (puts i).startTs = (puts j).startTs
    · simp [hsame.1, hsame.2]
    · rcases List.mem_append.mp hj with hj | hj
      · obtain ⟨m, hm, hdata⟩ := h.data j hj
        refine ⟨m, by rw [if_neg hsame, hm], ?_⟩
        rw [if_neg fun heq => hsame ⟨heq.1.symm, heq.2.symm⟩, hdata]
      · rw [List.mem_singleton.mp hj] at hsame
        exact absurd ⟨rfl, rfl⟩ hsame

/-- A prewrite that fails leaves what is staged; one that succeeds adds to it. -/
lemma prewrite_sat (h : PutsStaged puts staged st) (i : ι) :
    (puts i).prewrite.Sat (fun _ => True) (fun _ => True) (fun out st' =>
      (out = .ok () → PutsStaged puts (staged ++ [i]) st') ∧
        ∀ e, out = .error e → PutsStaged puts staged st') st :=
  (puts i).prewrite_sat (settling puts staged) h fun _ h' => h'.stage i

lemma commit (h : PutsStaged puts staged st) {i : ι} {clock : ℕ → UInt64}
    {out : Except TxnError Unit} {st' : Store} (hrun : (puts i).commit.run clock st = (out, st')) :
    PutsStaged puts staged st' := by
  obtain ⟨hok, herror⟩ := ((puts i).commit_sat h.wf).post hrun
  cases out with
  | ok u =>
      obtain ⟨l, -, -, rfl⟩ := hok rfl
      exact h.settle _ _ _
  | error e =>
      rw [herror e rfl]
      exact h

lemma get (h : PutsStaged puts staged st) {key : Bytes} {r : UInt64} {clock : ℕ → UInt64}
    {out : Except TxnError (Option Bytes)} {st' : Store}
    (hrun : (Coordinator.get key r).run clock st = (out, st')) : PutsStaged puts staged st' :=
  (keeps_get (settling puts staged) (fun h => h.wf) (fun _ => trivial) h key r).post hrun

/-- After a commit that succeeds, a read at its timestamp returns what was staged last. -/
lemma reads_back (h : PutsStaged puts staged st) {i : ι} (hi : i ∈ staged) {st' : Store}
    {clock : ℕ → UInt64} (hrun : (puts i).commit.run clock st = (.ok (), st')) :
    ∃ j, latestPut puts staged i = some j ∧ ∀ clock',
      (Coordinator.get (puts i).key (puts i).commitTs).run clock' st' =
        (.ok (some (puts j).value), st') := by
  have hstaged := h.commit hrun
  obtain ⟨l, hl, hs, hst⟩ := (((puts i).commit_sat h.wf).post hrun).1 rfl
  obtain ⟨j, hj, hdata⟩ := h.data i hi
  refine ⟨j, hj, fun clock' => ?_⟩
  have hview := view_settleBatch st (puts i).key (puts i).commitTs ⟨(puts i).startTs, l.op⟩
  rw [← hst, h.ops i hi l hl hs] at hview
  have hfree : Unlocked (view st') (puts i).key (puts i).commitTs := by
    intro l' hl'
    rw [hview, View.settle_lock, if_pos rfl] at hl'
    cases hl'
  have hwrite : (view st').write (puts i).key (puts i).commitTs =
      some ⟨(puts i).startTs, .put⟩ := by
    rw [hview, View.settle_write, if_pos ⟨rfl, rfl⟩]
  have hread : (view st').readRecord (puts i).key ⟨(puts i).startTs, .put⟩ =
      .ok (some (puts j).value) := by
    rw [hview]
    simp only [View.readRecord, View.settle_data, hdata]
  have hreader := @readerGet_of_sees _ _ clock' hstaged.wf _ _ _ _ hfree
    (sees_at hwrite (by simp))
  rw [hread] at hreader
  exact get_of_unlocked hreader (by simp)

end PutsStaged

/-! ## Runs -/

variable [DecidableEq ι]

/-- What is staged on the node, and the puts that are prewritten are among it. -/
structure PutsTracked (puts : ι → Put) (c : CliRun api ι) : Prop where
  store : PutsStaged puts c.staged c.node.storage
  prewritten : ∀ i, c.phase i = .prewritten → i ∈ c.staged

namespace PutsTracked

variable {c : CliRun api ι}

lemma advance (h : PutsTracked puts c) (i : ι) (clock : ℕ → UInt64) :
    PutsTracked puts (c.advance puts i clock) := by
  have hold : ∀ {p : PutPhase} {j : ι}, p ≠ .prewritten →
      Function.update c.phase i p j = .prewritten → j ∈ c.staged := fun hp hj =>
    h.prewritten _ ((CliRun.phase_of_update hj).resolve_left fun heq => hp heq.2)
  have hadv := c.advances puts i clock
  generalize c.advance puts i clock = c' at hadv
  cases hadv with
  | ended _ => exact h
  | prewritten _ hrun =>
      have hsat := (h.store.prewrite_sat i).post hrun
      refine ⟨hsat.1 rfl, fun j hj => ?_⟩
      rcases CliRun.phase_of_update hj with ⟨rfl, -⟩ | hj
      · exact List.mem_append_right _ List.mem_cons_self
      · exact List.mem_append_left _ (h.prewritten j hj)
  | refused _ hrun =>
      have hsat := (h.store.prewrite_sat i).post hrun
      exact ⟨hsat.2 _ rfl, fun j hj => hold (by simp) hj⟩
  | acknowledged _ hrun => exact ⟨h.store.commit hrun, fun j hj => hold (by simp) hj⟩
  | rejected _ hrun => exact ⟨h.store.commit hrun, fun j hj => hold (by simp) hj⟩

lemma step (h : PutsTracked puts c) (s : CliStep ι) : PutsTracked puts (c.step puts s) := by
  cases s with
  | put i time clock =>
      have h' := h.advance i clock
      exact ⟨h'.store, h'.prewritten⟩
  | get key time clock =>
      refine ⟨?_, h.prewritten⟩
      rw [CliRun.step, NodeState.get_of_run rfl]
      exact h.store.get rfl

lemma run (h : PutsTracked puts c) (steps : List (CliStep ι)) :
    PutsTracked puts (steps.foldl (CliRun.step puts) c) :=
  List.foldlRecOn steps (CliRun.step puts) h fun _ hc s _ => hc.step s

end PutsTracked

/-- On any node, and in any run of puts and reads: when a put is acknowledged, a read at its commit
timestamp returns what was prewritten last under its key and start timestamp, hence the value of the
put exactly if that is the same. -/
theorem put_reads_back_iff (puts : ι → Put) {node : NodeState api} (hwf : WF Set.univ node.storage)
    (now : UInt64) (steps : List (CliStep ι)) (i : ι) (time : UInt64) (clock : ℕ → UInt64)
    (hpre : (steps.foldl (CliRun.step puts) (CliRun.start node now)).phase i = .prewritten)
    (hack : ((steps.foldl (CliRun.step puts) (CliRun.start node now)).step puts
      (.put i time clock)).phase i = .acknowledged) (time' : UInt64) (clock' : ℕ → UInt64) :
    let c := steps.foldl (CliRun.step puts) (CliRun.start node now)
    let c' := c.step puts (.put i time clock)
    let read := (c'.node.get (puts i).key (puts i).commitTs time' clock').1
    ∃ j, latestPut puts c.staged i = some j ∧ read = .ok ⟨true, (puts j).value, ""⟩ ∧
      (read = .ok ⟨true, (puts i).value, ""⟩ ↔ (puts j).value = (puts i).value) := by
  intro c c' read
  have hstart : PutsTracked puts (CliRun.start node now) :=
    ⟨⟨hwf, by simp [CliRun.start], by simp [CliRun.start]⟩, by simp [CliRun.start]⟩
  have hc : PutsTracked puts c := hstart.run steps
  obtain ⟨j, hj, hget⟩ := hc.store.reads_back (hc.prewritten i hpre)
    (CliRun.commit_of_acknowledged hpre hack)
  have hread : read = .ok ⟨true, (puts j).value, ""⟩ := by
    have hts : (c'.node.readTs (puts i).commitTs time').1 = (puts i).commitTs := by
      rw [NodeState.readTs, if_neg (puts i).commitTs_ne_zero]
    have hrun := hget clock'
    rw [← hts] at hrun
    simp only [read]
    rw [NodeState.get_of_run hrun]
    rfl
  refine ⟨j, hj, hread, ?_⟩
  rw [hread]
  simp

/-- Two puts of one key in one millisecond. -/
def samePuts : Bool → Put
  | false => ⟨[1], [10], 1⟩
  | true => ⟨[1], [20], 1⟩

/-- If its commit comes before the other prewrite, the first is read back. -/
theorem put_reads_back_alone :
    let clock : ℕ → UInt64 := fun _ => 1
    let c := [CliStep.put false 1 clock].foldl (CliRun.step samePuts) (CliRun.start started 1)
    let c' := c.step samePuts (.put false 1 clock)
    (c'.node.get [1] (samePuts false).commitTs 1 clock).1 = .ok ⟨true, [10], ""⟩ := by
  intro clock c c'
  have hwf : WF Set.univ started.storage := wf_empty Set.univ
  obtain ⟨j, hj, -, hiff⟩ := put_reads_back_iff samePuts hwf 1 [CliStep.put false 1 clock] false 1
    clock (by decide) (by decide) 1 clock
  have hfalse : latestPut samePuts c.staged false = some false := by decide
  refine hiff.mpr ?_
  rw [Option.some.inj (hj.symm.trans hfalse)]

/-- With both prewrites before the first commit, the first is acknowledged and reads back the value
of the second. -/
theorem put_reads_back_other :
    let clock : ℕ → UInt64 := fun _ => 1
    let c := [CliStep.put false 1 clock, .put true 1 clock].foldl (CliRun.step samePuts)
      (CliRun.start started 1)
    let c' := c.step samePuts (.put false 1 clock)
    c.phase false = .prewritten ∧ c'.phase false = .acknowledged ∧
      (c'.node.get [1] (samePuts false).commitTs 1 clock).1 = .ok ⟨true, [20], ""⟩ := by
  decide

end AcidKv
