import AcidKv.Lib.Runs
import AcidKv.Node.Server

/-!
# Puts from the command line

`kv-cli put` is a transaction of one key.  It takes its timestamps from the clock of the machine it
runs on: the start timestamp is the reading in milliseconds, shifted, and the commit timestamp the
one after it.  Any number of them talk to one node, each request being handled as a whole, in
between the `get` requests of others.
-/

namespace AcidKv

open Raft

/-- A put: what it writes, and the reading of the clock it starts with. -/
structure Put where
  key : Bytes
  value : Bytes
  physicalNow : UInt64
  deriving DecidableEq, Repr

namespace Put

def startTs (p : Put) : UInt64 := p.physicalNow <<< 16

def commitTs (p : Put) : UInt64 := p.startTs + 1

def prewrite (p : Put) : Handler TxnError Unit :=
  Coordinator.prewrite p.startTs [.put p.key p.value] p.key 3000

def commit (p : Put) : Handler TxnError Unit :=
  Coordinator.commit p.startTs p.commitTs [p.key]

lemma toNat_startTs (p : Put) : p.startTs.toNat = p.physicalNow.toNat % 2 ^ 48 * 2 ^ 16 := by
  have hshift : p.startTs.toNat = p.physicalNow.toNat <<< 16 % 2 ^ 64 := by
    rw [startTs, UInt64.toNat_shiftLeft]
    rfl
  rw [hshift, Nat.shiftLeft_eq]
  omega

lemma toNat_commitTs (p : Put) :
    p.commitTs.toNat = p.physicalNow.toNat % 2 ^ 48 * 2 ^ 16 + 1 := by
  rw [commitTs, UInt64.toNat_add, toNat_startTs, UInt64.toNat_one]
  omega

lemma commitTs_ne_zero (p : Put) : p.commitTs ≠ 0 := by
  intro h
  have hnat := p.toNat_commitTs
  rw [h, UInt64.toNat_zero] at hnat
  omega

end Put

/-- How far a put has come; it prints `OK` when its commit is acknowledged. -/
inductive PutPhase where
  | ready
  | prewritten
  | acknowledged
  | failed
  deriving DecidableEq, Repr

/-- The next request of a put, or a `get` without a version, with the time at which it is handled
and what the coordinator reads off the clock. -/
inductive CliStep (ι : Type) where
  | put (i : ι) (time : UInt64) (clock : ℕ → UInt64)
  | get (key : Bytes) (time : UInt64) (clock : ℕ → UInt64)

/-- A node with the puts that talk to it; `staged` are those whose prewrite has succeeded, in the
order in which it has, and `now` is the time of the last step. -/
structure CliRun (api : RawNodeApi) (ι : Type) where
  node : NodeState api
  phase : ι → PutPhase
  staged : List ι
  now : UInt64

namespace CliRun

variable {api : RawNodeApi} {ι : Type}

def start (node : NodeState api) (now : UInt64) : CliRun api ι := ⟨node, fun _ => .ready, [], now⟩

variable [DecidableEq ι]

lemma phase_of_update {phase : ι → PutPhase} {i j : ι} {p q : PutPhase}
    (h : Function.update phase i p j = q) : (j = i ∧ p = q) ∨ phase j = q := by
  by_cases heq : j = i
  · rw [heq, Function.update_self] at h
    exact Or.inl ⟨heq, h⟩
  · rw [Function.update_of_ne heq] at h
    exact Or.inr h

/-- The next request of a put and what becomes of it. -/
def advance (puts : ι → Put) (c : CliRun api ι) (i : ι) (clock : ℕ → UInt64) : CliRun api ι :=
  match c.phase i with
  | .ready =>
      match c.node.serve (puts i).prewrite clock with
      | (.ok (), node) =>
          { c with node, phase := Function.update c.phase i .prewritten, staged := c.staged ++ [i] }
      | (.error _, node) => { c with node, phase := Function.update c.phase i .failed }
  | .prewritten =>
      match c.node.serve (puts i).commit clock with
      | (.ok (), node) => { c with node, phase := Function.update c.phase i .acknowledged }
      | (.error _, node) => { c with node, phase := Function.update c.phase i .failed }
  | _ => c

/-- The ways in which a put can go on. -/
inductive Advances (puts : ι → Put) (c : CliRun api ι) (i : ι) (clock : ℕ → UInt64) :
    CliRun api ι → Prop
  | ended (h : c.phase i = .acknowledged ∨ c.phase i = .failed) : Advances puts c i clock c
  | prewritten {st : Store} (h : c.phase i = .ready)
      (hrun : (puts i).prewrite.run clock c.node.storage = (.ok (), st)) :
      Advances puts c i clock { c with
        node := { c.node with storage := st }
        phase := Function.update c.phase i .prewritten
        staged := c.staged ++ [i] }
  | refused {e : TxnError} {st : Store} (h : c.phase i = .ready)
      (hrun : (puts i).prewrite.run clock c.node.storage = (.error e, st)) :
      Advances puts c i clock { c with
        node := { c.node with storage := st }
        phase := Function.update c.phase i .failed }
  | acknowledged {st : Store} (h : c.phase i = .prewritten)
      (hrun : (puts i).commit.run clock c.node.storage = (.ok (), st)) :
      Advances puts c i clock { c with
        node := { c.node with storage := st }
        phase := Function.update c.phase i .acknowledged }
  | rejected {e : TxnError} {st : Store} (h : c.phase i = .prewritten)
      (hrun : (puts i).commit.run clock c.node.storage = (.error e, st)) :
      Advances puts c i clock { c with
        node := { c.node with storage := st }
        phase := Function.update c.phase i .failed }

lemma advances (puts : ι → Put) (c : CliRun api ι) (i : ι) (clock : ℕ → UInt64) :
    Advances puts c i clock (c.advance puts i clock) := by
  cases hphase : c.phase i with
  | ready =>
      rcases hrun : (puts i).prewrite.run clock c.node.storage with ⟨e | ⟨⟩, st⟩
      · simp only [advance, hphase, NodeState.serve, hrun]
        exact .refused hphase hrun
      · simp only [advance, hphase, NodeState.serve, hrun]
        exact .prewritten hphase hrun
  | prewritten =>
      rcases hrun : (puts i).commit.run clock c.node.storage with ⟨e | ⟨⟩, st⟩
      · simp only [advance, hphase, NodeState.serve, hrun]
        exact .rejected hphase hrun
      · simp only [advance, hphase, NodeState.serve, hrun]
        exact .acknowledged hphase hrun
  | acknowledged =>
      simp only [advance, hphase]
      exact .ended (Or.inl hphase)
  | failed =>
      simp only [advance, hphase]
      exact .ended (Or.inr hphase)

/-- A put is acknowledged when its commit has succeeded. -/
lemma commit_of_acknowledged {puts : ι → Put} {c : CliRun api ι} {i : ι} {clock : ℕ → UInt64}
    (hpre : c.phase i = .prewritten)
    (hack : (c.advance puts i clock).phase i = .acknowledged) :
    (puts i).commit.run clock c.node.storage =
      (.ok (), (c.advance puts i clock).node.storage) := by
  have hadv := c.advances puts i clock
  generalize c.advance puts i clock = c' at hadv hack
  cases hadv with
  | ended _ => simp [hpre] at hack
  | prewritten h => simp [hpre] at h
  | refused h => simp [hpre] at h
  | acknowledged _ hrun => exact hrun
  | rejected => simp at hack

def step (puts : ι → Put) (c : CliRun api ι) : CliStep ι → CliRun api ι
  | .put i time clock => { c.advance puts i clock with now := time }
  | .get key time clock => { c with node := (c.node.get key 0 time clock).2, now := time }

end CliRun

end AcidKv
