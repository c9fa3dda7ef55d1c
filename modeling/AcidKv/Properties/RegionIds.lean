import AcidKv.Properties.Regions
import AcidKv.Raft.Frames

/-!
# Region ids and what is on disk under them

A machine that is asked for splits, whose regions write Raft state, and that restarts over its data
directory.  The counter for region ids starts at 2 every time, while the Raft state of the regions
of earlier starts is still there.  A node itself writes only under the ids of its regions
(`Tracked`), so a new region starts from the empty log exactly if nothing under its id was found at
the last start.
-/

namespace AcidKv

open Raft NodeState RegionRouter

variable {api : RawNodeApi} {pb : Protobuf}

/-! ## What a Raft node writes -/

lemma persistEntries_writes (pb : Protobuf) (s : RaftStorage) (es : List Raft.Entry)
    (engine : Store) : (MultiRaftNode.persistEntries pb s es engine).2.1.regionId = s.regionId ∧
      WritesUnder s.regionId engine (MultiRaftNode.persistEntries pb s es engine).2.2 := by
  unfold MultiRaftNode.persistEntries
  split_ifs
  · exact ⟨rfl, .refl _ _⟩
  · exact append_writes pb s es engine

lemma persistHardState_writes (pb : Protobuf) (s : RaftStorage) (hs : Option HardState)
    (engine : Store) : (MultiRaftNode.persistHardState pb s hs engine).1.regionId = s.regionId ∧
      WritesUnder s.regionId engine (MultiRaftNode.persistHardState pb s hs engine).2 := by
  cases hs with
  | none => exact ⟨rfl, .refl _ _⟩
  | some hs => exact setHardState_writes pb s hs engine

lemma processReady_writes (pb : Protobuf) (node : MultiRaftNode api) (engine : Store) :
    (node.processReady pb engine).2.1.storage.regionId = node.storage.regionId ∧
      WritesUnder node.storage.regionId engine (node.processReady pb engine).2.2 := by
  have hcycle := MultiRaftNode.readyCycle_cycle pb node engine
  rw [MultiRaftNode.processReady]
  generalize MultiRaftNode.readyCycle pb node engine = out at hcycle ⊢
  cases hcycle with
  | idle => exact ⟨rfl, .refl _ _⟩
  | @failed ready _ _ _ _ _ hentries =>
      have hw := persistEntries_writes pb node.storage ready.entries engine
      rwa [hentries] at hw
  | @done ready _ _ _ storage _ engine' _ _ hentries hhard =>
      obtain ⟨hid, hw⟩ := persistEntries_writes pb node.storage ready.entries engine
      obtain ⟨hid', hw'⟩ := persistHardState_writes pb storage ready.hs engine'
      rw [hentries] at hid hw
      rw [hhard, hid] at hid' hw'
      exact ⟨hid', hw.trans hw'⟩

/-- An operation writes under the keys of the node's region. -/
lemma perform_writes (pb : Protobuf) (node : MultiRaftNode api) (engine : Store) (op : Op api) :
    (node.perform pb engine op).1.storage.regionId = node.storage.regionId ∧
      WritesUnder node.storage.regionId engine (node.perform pb engine op).2 := by
  cases op with
  | processReady => exact processReady_writes pb node engine
  | _ => exact ⟨rfl, .refl _ _⟩

/-- A region with nothing on disk starts from the empty log and the default hard state. -/
lemma Raft.FreshRegion.opens_empty {st : Store} {r : UInt64} (h : FreshRegion st r)
    (pb : Protobuf) : (RaftStorage.new pb st r).lastIndex = 0 ∧
      (RaftStorage.new pb st r).core.hardState = HardState.default := by
  constructor
  · simp only [RaftStorage.lastIndex, RaftStorage.last, h.entries_eq pb, List.getLast_singleton]
    rfl
  · simp only [RaftStorage.new, h _ (Or.inl rfl)]
    rfl

/-! ## The machine -/

inductive MachineOp (api : RawNodeApi) where
  | askSplit (req : AskSplitRequest)
  | raft (regionId : UInt64) (op : Op api)
  | restart (nowMs : UInt64)

/-- A node with the data directory as it was at the last start and the ids that were given to
regions since the first; no node if the start has failed. -/
structure Machine (api : RawNodeApi) where
  found : Store
  node : Option (NodeState api)
  given : List UInt64

namespace Machine

def disk (m : Machine api) : Store :=
  match m.node with
  | some st => st.storage
  | none => m.found

def start (pb : Protobuf) (nodeId nowMs : UInt64) (disk : Store) (given : List UInt64) :
    Machine api :=
  ⟨disk, (NodeState.new api pb nodeId nowMs disk).toOption, given⟩

lemma new_of_start {nodeId nowMs : UInt64} {disk : Store} {given : List UInt64}
    {st : NodeState api} (h : (start pb nodeId nowMs disk given).node = some st) :
    NodeState.new api pb nodeId nowMs disk = .ok st := by
  simp only [start] at h
  cases hnew : NodeState.new api pb nodeId nowMs disk with
  | error e =>
      rw [hnew] at h
      cases h
  | ok st' =>
      rw [hnew] at h
      cases h
      rfl

/-- The id of the region that a request creates, if it succeeds. -/
def creates (pb : Protobuf) (m : Machine api) (req : AskSplitRequest) : Option UInt64 :=
  m.node.bind fun st => (st.split pb req).1.toOption.map (·.1)

def step (pb : Protobuf) (nodeId : UInt64) (m : Machine api) : MachineOp api → Machine api
  | .askSplit req =>
      { m with
        node := m.node.map fun st => (st.askSplit pb req).2
        given := m.given ++ (m.creates pb req).toList }
  | .raft regionId op => { m with node := m.node.map fun st => st.raft pb regionId op }
  | .restart nowMs => start pb nodeId nowMs m.disk m.given

/-- If a request creates a region, no region of its id has left Raft state on disk, and it starts
from the empty log and the default hard state. -/
def OpensEmpty (pb : Protobuf) (m : Machine api) (op : MachineOp api) : Prop :=
  ∀ req n, op = .askSplit req → m.creates pb req = some n →
    ¬ (n ∈ m.given ∧ ¬ FreshRegion m.disk n) ∧
      (RaftStorage.new pb m.disk n).lastIndex = 0 ∧
      (RaftStorage.new pb m.disk n).core.hardState = HardState.default

/-- If a request creates a region, the node has no other of that id. -/
def NotInUse (pb : Protobuf) (m : Machine api) (op : MachineOp api) : Prop :=
  ∀ req n st, op = .askSplit req → m.creates pb req = some n → m.node = some st →
    st.router.getRegion n = none

/-- If a request creates a region, nothing under its id was on disk at the last start. -/
def NotFound (pb : Protobuf) (m : Machine api) (op : MachineOp api) : Prop :=
  ∀ req n, op = .askSplit req → m.creates pb req = some n → FreshRegion m.found n

end Machine

/-! ## Splits -/

namespace NodeState

/-- What a request for a split does to the state. -/
inductive SplitStep (pb : Protobuf) (st : NodeState api) : Option UInt64 → NodeState api → Prop
  | refused : SplitStep pb st none st
  | failed {call : UInt64 × Bytes} {e : RouterError} (h : st.splitResult call = .error e) :
      SplitStep pb st none (st.splitCall call)
  | created {call : UInt64 × Bytes} {halves : Region × Region}
      (h : st.splitResult call = .ok halves) :
      SplitStep pb st (some st.nextRegionId) ((st.splitCall call).addRaftNode pb st.nextRegionId)

lemma askSplit_snd (pb : Protobuf) (st : NodeState api) (req : AskSplitRequest) :
    (st.askSplit pb req).2 = (st.split pb req).2 := by
  unfold askSplit
  split <;> simp_all

lemma split_step (pb : Protobuf) (st : NodeState api) (req : AskSplitRequest) :
    SplitStep pb st ((st.split pb req).1.toOption.map (·.1)) (st.askSplit pb req).2 := by
  rw [askSplit_snd]
  cases hregion : st.router.getRegion req.regionId with
  | none =>
      simp only [split, hregion]
      exact .refused
  | some region =>
      cases hkey : st.splitKeyFor req region with
      | none =>
          simp only [split, hregion, hkey]
          exact .refused
      | some splitKey =>
          have hnext : st.splitNext req.regionId splitKey = (st.nextRegionId,
            st.splitResult (req.regionId, splitKey), st.splitCall (req.regionId, splitKey)) := rfl
          cases hres : st.splitResult (req.regionId, splitKey) with
          | error e =>
              simp only [split, hregion, hkey, hnext, hres]
              exact .failed hres
          | ok halves =>
              simp only [split, hregion, hkey, hnext, hres]
              exact .created hres

variable {st st' : NodeState api} {created : Option UInt64}

/-- What is in a map after an insertion is what was inserted or was there before. -/
lemma insert_origin {β : Type} {m : Std.ExtTreeMap UInt64 β compare} {r r' : UInt64} {x y : β}
    (h : (m.insert r x)[r']? = some y) : (r' = r ∧ y = x) ∨ m[r']? = some y := by
  rw [Std.ExtTreeMap.getElem?_insert] at h
  split_ifs at h with heq
  · exact Or.inl ⟨(Std.LawfulEqCmp.compare_eq_iff_eq.mp heq).symm, (Option.some.inj h).symm⟩
  · exact Or.inr h

lemma addRaftNode_eq (pb : Protobuf) (st : NodeState api) (r : UInt64) :
    ∃ raftNodes : Std.ExtTreeMap UInt64 (MultiRaftNode api) compare,
      st.addRaftNode pb r = { st with raftNodes } ∧
        ∀ (r' : UInt64) node, raftNodes[r']? = some node →
          (r' = r ∧ node.storage.regionId = r) ∨ st.raftNodes[r']? = some node := by
  unfold addRaftNode
  split
  · rename_i node hnew
    refine ⟨_, rfl, fun r' node' hnode => ?_⟩
    rcases insert_origin hnode with ⟨hr, rfl⟩ | hnode
    · refine Or.inl ⟨hr, ?_⟩
      rw [MultiRaftNode.storage_of_new hnew]
      rfl
    · exact Or.inr hnode
  · exact ⟨_, rfl, fun _ _ h => Or.inr h⟩

/-- The new region gets the next id. -/
lemma SplitStep.id_eq (h : SplitStep pb st created st') {id : UInt64} (hid : created = some id) :
    id = st.nextRegionId := by
  cases h with
  | refused => cases hid
  | failed => cases hid
  | created => exact (Option.some.inj hid).symm

lemma SplitStep.numbered {k : ℕ} (h : SplitStep pb st created st') (hnum : Numbered k st) :
    ∃ k' ≤ k + 1, Numbered k' st' := by
  cases h with
  | refused => exact ⟨k, by omega, hnum⟩
  | failed => exact ⟨k + 1, le_refl _, hnum.step _⟩
  | @created call =>
      obtain ⟨raftNodes, heq, -⟩ := addRaftNode_eq pb (st.splitCall call) st.nextRegionId
      have hnum' := hnum.step call
      rw [heq]
      exact ⟨k + 1, le_refl _, hnum'.idsMatch, hnum'.next, hnum'.used⟩

end NodeState

/-! ## What is on disk -/

/-- A node's Raft nodes are those of its regions, and only what was found at the start or belongs to
one of its regions is on disk. -/
structure Housed (found : Store) (given : List UInt64) (st : NodeState api) : Prop where
  idsMatch : st.router.IdsMatch
  nodes : ∀ (r : UInt64) node, st.raftNodes[r]? = some node →
    node.storage.regionId = r ∧ st.router.getRegion r ≠ none
  given : ∀ r, st.router.getRegion r ≠ none → r ∈ given
  before : ∀ r, FreshRegion st.storage r → FreshRegion found r
  after : ∀ r, FreshRegion found r → st.router.getRegion r = none → FreshRegion st.storage r

namespace Housed

variable {found : Store} {given : List UInt64} {st st' : NodeState api}

lemma of_new {nodeId nowMs : UInt64} (h : NodeState.new api pb nodeId nowMs found = .ok st)
    (hone : 1 ∈ given) : Housed found given st := by
  have hnum := numbered_new h
  have hused : ∀ r, st.router.getRegion r ≠ none → r = 1 := by
    intro r hr
    obtain ⟨region, hregion⟩ := Option.ne_none_iff_exists'.mp hr
    rcases hnum.used r region hregion with hr | ⟨m, hm, -⟩
    · exact hr
    · omega
  unfold NodeState.new at h
  split at h
  · cases h
  · rename_i raftNode hraft
    cases h
    refine ⟨hnum.idsMatch, fun r node hnode => ?_, fun r hr => hused r hr ▸ hone,
      fun r hf => hf, fun r hf _ => hf⟩
    rcases insert_origin hnode with ⟨rfl, rfl⟩ | hnode
    · rw [MultiRaftNode.storage_of_new hraft]
      refine ⟨rfl, ?_⟩
      simp [getRegion, insertRegion, Region.new]
    · simp at hnode

lemma split (h : Housed found given st) {created : Option UInt64}
    (hsplit : SplitStep pb st created st') : Housed found (given ++ created.toList) st' := by
  have hkeep : ∀ {r}, st.router.getRegion r ≠ none → r ∈ given ++ created.toList :=
    fun hr => List.mem_append_left _ (h.given _ hr)
  cases hsplit with
  | refused => exact ⟨h.idsMatch, h.nodes, fun r hr => hkeep hr, h.before, h.after⟩
  | failed hres =>
      have hrt := router_splitCall_of_error hres
      refine ⟨hrt ▸ h.idsMatch, fun r node hnode => ?_, fun r hr => ?_, h.before, fun r hf hr => ?_⟩
      · rw [hrt]
        exact h.nodes r node hnode
      · rw [hrt] at hr
        exact hkeep hr
      · rw [hrt] at hr
        exact h.after r hf hr
  | @created call halves hres =>
      obtain ⟨old, hsplits⟩ := splits_of_ok h.idsMatch hres
      obtain ⟨raftNodes, heq, hnodes⟩ :=
        addRaftNode_eq pb (st.splitCall call) st.nextRegionId
      have hregion := hsplits.getRegion_iff
      rw [heq]
      refine ⟨hsplits.idsMatch h.idsMatch, fun r node hnode => ?_, fun r hr => ?_, h.before,
        fun r hf hr => h.after r hf ?_⟩
      · rcases hnodes r node hnode with ⟨rfl, hid⟩ | hnode
        · exact ⟨hid, (hregion _).mpr (Or.inl rfl)⟩
        · obtain ⟨hid, hr⟩ := h.nodes r node hnode
          exact ⟨hid, (hregion r).mpr (Or.inr hr)⟩
      · rcases (hregion r).mp hr with rfl | hr
        · simp
        · exact hkeep hr
      · by_contra hne
        exact (hregion r).mpr (Or.inr hne) hr

lemma raft_writes (h : Housed found given st) (pb : Protobuf) (r : UInt64) (op : Op api) :
    WritesUnder r st.storage (st.raft pb r op).storage := by
  cases hnode : st.raftNodes[r]? with
  | none =>
      rw [raft_of_none pb hnode]
      exact .refl r _
  | some node =>
      rw [raft_of_some pb hnode]
      have hw := (perform_writes pb node st.storage op).2
      rwa [(h.nodes r node hnode).1] at hw

lemma raft (h : Housed found given st) (pb : Protobuf) (r : UInt64) (op : Op api) :
    Housed found given (st.raft pb r op) := by
  have hw := h.raft_writes pb r op
  cases hnode : st.raftNodes[r]? with
  | none => rwa [raft_of_none pb hnode]
  | some node =>
      rw [raft_of_some pb hnode] at hw ⊢
      obtain ⟨hid, hr⟩ := h.nodes r node hnode
      refine ⟨h.idsMatch, fun r' node' hnode' => ?_, h.given,
        fun r' hf => h.before r' (hw.fresh_before hf),
        fun r' hf hr' => hw.fresh ?_ (h.after r' hf hr')⟩
      · rcases insert_origin hnode' with ⟨rfl, rfl⟩ | hnode'
        · rw [(perform_writes pb node st.storage op).1]
          exact ⟨hid, hr⟩
        · exact h.nodes r' node' hnode'
      · rintro rfl
        exact hr hr'

end Housed

/-! ## Runs -/

/-- A running node is housed in what it has found, and whatever has left Raft state was given an
id. -/
structure Tracked (m : Machine api) : Prop where
  node : ∀ st, m.node = some st → Housed m.found m.given st
  one : 1 ∈ m.given
  found : ∀ r, ¬ FreshRegion m.found r → r ∈ m.given

namespace Tracked

variable {m : Machine api}

lemma disk_given (h : Tracked m) {r : UInt64} (hr : ¬ FreshRegion m.disk r) : r ∈ m.given := by
  cases hnode : m.node with
  | none =>
      rw [Machine.disk, hnode] at hr
      exact h.found r hr
  | some st =>
      rw [Machine.disk, hnode] at hr
      have hst := h.node st hnode
      by_cases hfound : FreshRegion m.found r
      · exact hst.given r fun hnone => hr (hst.after r hfound hnone)
      · exact h.found r hfound

lemma start {nodeId nowMs : UInt64} {disk : Store} {given : List UInt64} (hone : 1 ∈ given)
    (hdisk : ∀ r, ¬ FreshRegion disk r → r ∈ given) :
    Tracked (Machine.start pb nodeId nowMs disk given : Machine api) where
  node _ hst := .of_new (Machine.new_of_start hst) hone
  one := hone
  found := hdisk

lemma step (h : Tracked m) (pb : Protobuf) (nodeId : UInt64) (op : MachineOp api) :
    Tracked (m.step pb nodeId op) := by
  cases op with
  | restart nowMs => exact .start h.one fun r => h.disk_given
  | raft r op =>
      refine ⟨fun st hst => ?_, h.one, h.found⟩
      obtain ⟨st₀, hst₀, rfl⟩ := Option.map_eq_some_iff.mp hst
      exact (h.node st₀ hst₀).raft pb r op
  | askSplit req =>
      refine ⟨fun st hst => ?_, List.mem_append_left _ h.one,
        fun r hr => List.mem_append_left _ (h.found r hr)⟩
      obtain ⟨st₀, hst₀, rfl⟩ := Option.map_eq_some_iff.mp hst
      have hsplit := (h.node st₀ hst₀).split (split_step pb st₀ req)
      simpa [Machine.step, Machine.creates, hst₀] using hsplit

/-- What one region does leaves the others as they were. -/
lemma raft_fresh (h : Tracked m) (pb : Protobuf) (nodeId : UInt64) {r r' : UInt64} (op : Op api)
    (hne : r' ≠ r) (hfresh : FreshRegion m.disk r') :
    FreshRegion (m.step pb nodeId (.raft r op)).disk r' := by
  cases hnode : m.node with
  | none =>
      rw [Machine.disk, hnode] at hfresh
      simpa [Machine.disk, Machine.step, hnode] using hfresh
  | some st =>
      rw [Machine.disk, hnode] at hfresh
      simpa [Machine.disk, Machine.step, hnode] using
        ((h.node st hnode).raft_writes pb r op).fresh hne hfresh

lemma fresh_found (h : Tracked m) {r : UInt64} (hr : FreshRegion m.disk r) :
    FreshRegion m.found r := by
  cases hnode : m.node with
  | none =>
      rw [Machine.disk, hnode] at hr
      exact hr
  | some st =>
      rw [Machine.disk, hnode] at hr
      exact (h.node st hnode).before r hr

/-- A new region starts empty exactly if nothing under its id was found. -/
lemma opensEmpty_iff (h : Tracked m) {op : MachineOp api} (huse : m.NotInUse pb op) :
    m.OpensEmpty pb op ↔ m.NotFound pb op := by
  constructor
  · intro hopen req n hop hn
    by_contra hfound
    have hdisk : ¬ FreshRegion m.disk n := fun hd => hfound (h.fresh_found hd)
    exact (hopen req n hop hn).1 ⟨h.disk_given hdisk, hdisk⟩
  · intro hnot req n hop hn
    have hfound := hnot req n hop hn
    obtain ⟨st, hst, -⟩ := Option.bind_eq_some_iff.mp hn
    have hdisk : FreshRegion m.disk n := by
      rw [Machine.disk, hst]
      exact (h.node st hst).after n hfound (huse req n st hop hn hst)
    exact ⟨fun hbad => hbad.2 hdisk, hdisk.opens_empty pb⟩

end Tracked

/-- The counter of a running node after at most `n` requests. -/
def Counted (n : ℕ) (m : Machine api) : Prop :=
  ∀ st, m.node = some st → ∃ k ≤ n, Numbered k st

namespace Counted

variable {m : Machine api} {n : ℕ}

lemma start (pb : Protobuf) (nodeId nowMs : UInt64) (disk : Store) (given : List UInt64) :
    Counted n (Machine.start pb nodeId nowMs disk given : Machine api) :=
  fun _ hst => ⟨0, Nat.zero_le n, numbered_new (Machine.new_of_start hst)⟩

lemma step (h : Counted n m) (pb : Protobuf) (nodeId : UInt64) (op : MachineOp api) :
    Counted (n + 1) (m.step pb nodeId op) := by
  cases op with
  | restart nowMs => exact .start pb nodeId nowMs _ _
  | raft r op =>
      intro st hst
      obtain ⟨st₀, hst₀, rfl⟩ := Option.map_eq_some_iff.mp hst
      obtain ⟨k, hk, hnum⟩ := h st₀ hst₀
      refine ⟨k, by omega, ?_⟩
      unfold NodeState.raft
      split
      · exact hnum
      · exact ⟨hnum.idsMatch, hnum.next, hnum.used⟩
  | askSplit req =>
      intro st hst
      obtain ⟨st₀, hst₀, rfl⟩ := Option.map_eq_some_iff.mp hst
      obtain ⟨k, hk, hnum⟩ := h st₀ hst₀
      obtain ⟨k', hk', hnum'⟩ := (split_step pb st₀ req).numbered hnum
      exact ⟨k', by omega, hnum'⟩

lemma notInUse (h : Counted n m) (hn : n < 2 ^ 64 - 1) (op : MachineOp api) :
    m.NotInUse pb op := by
  intro req id st _ hcreates hst
  obtain ⟨k, hk, hnum⟩ := h st hst
  have hsplit := split_step pb st req
  rw [Machine.creates, hst, Option.bind_some] at hcreates
  rw [hsplit.id_eq hcreates]
  exact hnum.unused (by omega)

lemma guarded (h : Counted n m) (pb : Protobuf) (nodeId : UInt64) (ops : List (MachineOp api))
    (hn : n + ops.length ≤ 2 ^ 64 - 1) :
    Guarded (Machine.step pb nodeId) (Machine.NotInUse pb) m ops := by
  induction ops generalizing n m with
  | nil => trivial
  | cons op ops ih =>
      rw [List.length_cons] at hn
      exact ⟨h.notInUse (by omega) op, ih (h.step pb nodeId op) (by omega)⟩

end Counted

/-- From a first start on, a new region starts from the empty log in every split of a run exactly
if at the last start before it nothing was on disk under the id it gets, as long as no id comes
twice within one start, for which it takes more than `2 ^ 64 - 1` operations. -/
theorem newRegions_empty_iff (pb : Protobuf) (nodeId nowMs : UInt64) {disk : Store}
    (hdisk : ∀ r ≠ 1, FreshRegion disk r) (ops : List (MachineOp api)) :
    let m : Machine api := Machine.start pb nodeId nowMs disk [1]
    (ops.length ≤ 2 ^ 64 - 1 →
        Guarded (Machine.step pb nodeId) (Machine.NotInUse pb) m ops) ∧
      (Guarded (Machine.step pb nodeId) (Machine.NotInUse pb) m ops →
        (Guarded (Machine.step pb nodeId) (Machine.OpensEmpty pb) m ops ↔
          Guarded (Machine.step pb nodeId) (Machine.NotFound pb) m ops)) := by
  intro m
  have hm : Tracked m := by
    refine .start (by simp) fun r hr => ?_
    by_contra hne
    exact hr (hdisk r fun heq => hne (by simp [heq]))
  refine ⟨fun hlen => ?_, fun huse => ?_⟩
  · exact Counted.guarded (n := 0) (.start pb nodeId nowMs disk [1]) pb nodeId ops (by omega)
  · exact huse.congr (fun _ op htracked => htracked.step pb nodeId op)
      (fun _ _ htracked hok => htracked.opensEmpty_iff hok) hm

/-- A leader's message with one entry, which it has committed. -/
def appendOne : PeerMessage := .append 1 [blank 1 1] 1

/-- Region 3 has written an entry and a hard state, and region 2 nothing: that leaves its id to the
first region of the next start. -/
theorem newRegions_empty_restart :
    let m : Machine peerApi := Machine.start Protobuf.plain 1 0 Keyspace.empty [1]
    let ops : List (MachineOp peerApi) := [.askSplit ⟨1, [5]⟩, .askSplit ⟨1, [3]⟩,
      .raft 3 (.step appendOne), .raft 3 .processReady, .restart 0, .askSplit ⟨1, [5]⟩]
    (RaftStorage.new Protobuf.plain (ops.foldl (Machine.step Protobuf.plain 1) m).disk 3
        ).lastIndex = 1 ∧
      Guarded (Machine.step Protobuf.plain 1) (Machine.OpensEmpty Protobuf.plain) m ops := by
  intro m ops
  obtain ⟨hlen, hiff⟩ := newRegions_empty_iff Protobuf.plain 1 0
    (fun r _ => freshRegion_empty r) ops
  have htracked : Tracked m := .start (by simp) fun r hr => (hr (freshRegion_empty r)).elim
  have hsplits : Tracked ((ops.take 2).foldl (Machine.step Protobuf.plain 1) m) :=
    (htracked.step Protobuf.plain 1 (.askSplit ⟨1, [5]⟩)).step Protobuf.plain 1 (.askSplit ⟨1, [3]⟩)
  have hstepped : FreshRegion ((ops.take 3).foldl (Machine.step Protobuf.plain 1) m).disk 2 :=
    hsplits.raft_fresh Protobuf.plain 1 (r := 3) (.step appendOne) (by decide) (freshRegion_empty 2)
  have hfresh : FreshRegion ((ops.take 4).foldl (Machine.step Protobuf.plain 1) m).disk 2 :=
    (hsplits.step Protobuf.plain 1 (.raft 3 (.step appendOne))).raft_fresh Protobuf.plain 1 (r := 3)
      .processReady (by decide) hstepped
  refine ⟨by decide, (hiff (hlen (by decide))).mpr ⟨?_, ?_, ?_, ?_, ?_, ?_, trivial⟩⟩
  · exact fun _ n _ _ => freshRegion_empty n
  · exact fun _ n _ _ => freshRegion_empty n
  · intro _ _ hop
    cases hop
  · intro _ _ hop
    cases hop
  · intro _ _ hop
    cases hop
  · rintro req n hop hn
    cases hop
    obtain rfl : 2 = n := Option.some.inj hn
    exact hfresh

/-- Region 2 has taken an entry from a leader and persisted it; after the restart the next region is
given the id 2, and starts with that entry in its log and that hard state. -/
theorem newRegions_reused_log :
    let m : Machine peerApi := Machine.start Protobuf.plain 1 0 Keyspace.empty [1]
    let ops : List (MachineOp peerApi) :=
      [.askSplit ⟨1, [5]⟩, .raft 2 (.step appendOne), .raft 2 .processReady, .restart 0]
    let m' := ops.foldl (Machine.step Protobuf.plain 1) m
    m'.creates Protobuf.plain ⟨1, [5]⟩ = some 2 ∧ 2 ∈ m'.given ∧
      (RaftStorage.new Protobuf.plain m'.disk 2).lastIndex = 1 ∧
      (RaftStorage.new Protobuf.plain m'.disk 2).core.hardState = ⟨1, 0, 1⟩ := by
  decide

end AcidKv
