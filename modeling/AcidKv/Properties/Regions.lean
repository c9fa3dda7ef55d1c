import AcidKv.Lib.Runs
import AcidKv.Node.Server

/-!
# The regions partition the key space

Runs of `split_region` calls on a node that has just started, each with the next id of
`alloc_region_id`.  The two maps of the router stay consistent as long as no successful split gets
an id that is in use, and not beyond that.  The counter wraps around, so this is as many calls as
there are ids besides 1; call number `2 ^ 64` gets 1, the id of the first region.
-/

namespace AcidKv

open Raft NodeState RegionRouter

variable {api : RawNodeApi} {pb : Protobuf}

/-- Every key is in exactly one region of the map by id, the map by start key holds the same
regions, and keys are routed to where they are. -/
structure Partitioned (rt : RegionRouter) : Prop where
  cover : ∀ key, ∃! id, ∃ r, rt.getRegion id = some r ∧ r.containsKey key
  same : ∀ r, (∃ id : UInt64, rt.regionsById[id]? = some r) ↔
    ∃ k : Bytes, rt.regionsByKey[k]? = some r
  routed : ∀ key id r, rt.getRegion id = some r → r.containsKey key → rt.routeKey key = .ok r

lemma RegionRouter.Consistent.partitioned {rt : RegionRouter} (h : rt.Consistent) :
    Partitioned rt where
  cover key := by
    obtain ⟨r, ⟨hr, hkey⟩, huniq⟩ := h.partitions key
    refine ⟨r.id, ⟨r, h.idsMatch.mem_regions.mp hr, hkey⟩, ?_⟩
    rintro id ⟨r', hr', hkey'⟩
    rw [← huniq r' ⟨⟨id, hr'⟩, hkey'⟩]
    exact (h.idsMatch id r' hr').symm
  same r := by
    constructor
    · intro hr
      exact ⟨r.startKey, (h.same r).mp (h.idsMatch.mem_regions.mp hr)⟩
    · rintro ⟨k, hk⟩
      obtain rfl := h.keysMatch k r hk
      exact ⟨r.id, (h.same r).mpr hk⟩
  routed key id r hr hkey := h.routeKey_eq ⟨id, hr⟩ hkey

namespace NodeState

/-! ## One call -/

/-- What a call of `split_region` with the next id returns. -/
def splitResult (st : NodeState api) (call : UInt64 × Bytes) :
    Except RouterError (Region × Region) :=
  (st.splitNext call.1 call.2).2.1

/-- The state after it. -/
def splitCall (st : NodeState api) (call : UInt64 × Bytes) : NodeState api :=
  (st.splitNext call.1 call.2).2.2

/-- If the call splits a region, the next id is not in use. -/
def IdUnused (st : NodeState api) (call : UInt64 × Bytes) : Prop :=
  ∀ halves, st.splitResult call = .ok halves → st.router.getRegion st.nextRegionId = none

section

variable {st : NodeState api} {call : UInt64 × Bytes}

lemma router_splitCall_of_error {e : RouterError} (h : st.splitResult call = .error e) :
    (st.splitCall call).router = st.router := splitRegion_error h

lemma splits_of_ok (hid : st.router.IdsMatch) {halves : Region × Region}
    (h : st.splitResult call = .ok halves) :
    ∃ old, Splits st.router (st.splitCall call).router old halves.1 halves.2 call.2
      st.nextRegionId := splitRegion_ok hid h

lemma consistent_splitCall (hc : st.router.Consistent) (hok : st.IdUnused call) :
    (st.splitCall call).router.Consistent := by
  cases hres : st.splitResult call with
  | error e =>
      rw [router_splitCall_of_error hres]
      exact hc
  | ok halves =>
      obtain ⟨old, hsplits⟩ := splits_of_ok hc.idsMatch hres
      exact hc.split hsplits (hok halves hres)

/-- Where the id is in use, the two maps no longer hold the same regions. -/
lemma idUnused_of_partitioned (hc : st.router.Consistent)
    (hpart : Partitioned (st.splitCall call).router) : st.IdUnused call := by
  intro halves hres
  obtain ⟨old, hsplits⟩ := splits_of_ok hc.idsMatch hres
  cases htaken : st.router.getRegion st.nextRegionId with
  | none => rfl
  | some r =>
      obtain ⟨lost, hkey, hnot⟩ := hc.split_taken hsplits htaken
      exact absurd ((hpart.same lost).mpr ⟨lost.startKey, hkey⟩) hnot

end

/-! ## Runs -/

lemma partitioned_prefixes_iff {st : NodeState api} (hc : st.router.Consistent)
    (calls : List (UInt64 × Bytes)) :
    (∀ done, done <+: calls → Partitioned (done.foldl splitCall st).router) ↔
      Guarded splitCall IdUnused st calls :=
  forall_prefixes_iff_guarded (fun st : NodeState api => st.router.Consistent)
    (fun st : NodeState api => Partitioned st.router)
    (fun _ => Consistent.partitioned) (fun _ _ => consistent_splitCall)
    (fun _ _ => idUnused_of_partitioned) hc calls

/-- The ids in use after `n` calls are among 1 and the first `n` that the counter gives out. -/
structure Numbered (n : ℕ) (st : NodeState api) : Prop where
  idsMatch : st.router.IdsMatch
  next : st.nextRegionId.toNat = (2 + n) % 2 ^ 64
  used : ∀ id r, st.router.getRegion id = some r →
    id = 1 ∨ ∃ m < n, id.toNat = (2 + m) % 2 ^ 64

lemma Numbered.step {n : ℕ} {st : NodeState api} (h : Numbered n st)
    (call : UInt64 × Bytes) : Numbered (n + 1) (st.splitCall call) := by
  have hnext : (st.splitCall call).nextRegionId.toNat = (2 + (n + 1)) % 2 ^ 64 := by
    change (st.nextRegionId + 1).toNat = _
    rw [UInt64.toNat_add, h.next]
    simp only [UInt64.toNat_one]
    omega
  have hmono : ∀ {id : UInt64} {r : Region}, st.router.getRegion id = some r →
      id = 1 ∨ ∃ m < n + 1, id.toNat = (2 + m) % 2 ^ 64 := by
    intro id r hr
    rcases h.used id r hr with rfl | ⟨m, hm, hid⟩
    · exact Or.inl rfl
    · exact Or.inr ⟨m, by omega, hid⟩
  cases hres : st.splitResult call with
  | error e =>
      have hrt := router_splitCall_of_error hres
      exact ⟨hrt ▸ h.idsMatch, hnext, fun id r hr => hmono (hrt ▸ hr)⟩
  | ok halves =>
      obtain ⟨old, hsplits⟩ := splits_of_ok h.idsMatch hres
      refine ⟨hsplits.idsMatch h.idsMatch, hnext, fun id r hr => ?_⟩
      rw [getRegion, hsplits.byId] at hr
      split_ifs at hr with hnew hold
      · exact Or.inr ⟨n, by omega, hnew ▸ h.next⟩
      · exact hmono (hold ▸ hsplits.found)
      · exact hmono hr

/-- All ids but 1 come before an id does again. -/
lemma Numbered.unused {n : ℕ} {st : NodeState api} (h : Numbered n st) (hn : n < 2 ^ 64 - 1) :
    st.router.getRegion st.nextRegionId = none := by
  cases hr : st.router.getRegion st.nextRegionId with
  | none => rfl
  | some r =>
      have hnext := h.next
      rcases h.used _ r hr with hone | ⟨m, hm, hid⟩
      · rw [hone, UInt64.toNat_one] at hnext
        omega
      · omega

lemma Numbered.guarded {n : ℕ} {st : NodeState api} (h : Numbered n st)
    (calls : List (UInt64 × Bytes)) (hn : n + calls.length ≤ 2 ^ 64 - 1) :
    Guarded splitCall IdUnused st calls := by
  induction calls generalizing n st with
  | nil => trivial
  | cons call calls ih =>
      rw [List.length_cons] at hn
      exact ⟨fun _ _ => h.unused (by omega), ih (h.step call) (by omega)⟩

lemma numbered_new {nodeId nowMs : UInt64} {storage : Store} {st : NodeState api}
    (h : NodeState.new api pb nodeId nowMs storage = .ok st) : Numbered 0 st := by
  obtain ⟨-, -, hrt, hnext⟩ := fields_of_new h
  refine ⟨hrt ▸ (consistent_single nodeId).idsMatch, by rw [hnext]; rfl, fun id r hr => ?_⟩
  rw [hrt, getRegion] at hr
  simp only [insertRegion, RegionRouter.new, Region.new, Std.ExtTreeMap.getElem?_insert,
    Std.LawfulEqCmp.compare_eq_iff_eq] at hr
  split_ifs at hr with hid
  · exact Or.inl hid.symm
  · simp at hr

end NodeState

/-- From a start on, the regions partition the key space throughout a run of splits exactly if no
split that succeeds gets an id in use, which holds for the first `2 ^ 64 - 1` calls; a call that
fails never changes a map. -/
theorem regions_partition_iff {nodeId nowMs : UInt64} {storage : Store} {st : NodeState api}
    (hnew : NodeState.new api pb nodeId nowMs storage = .ok st) (calls : List (UInt64 × Bytes)) :
    ((∀ done, done <+: calls → Partitioned (done.foldl splitCall st).router) ↔
        Guarded splitCall IdUnused st calls) ∧
      (calls.length ≤ 2 ^ 64 - 1 → Guarded splitCall IdUnused st calls) ∧
      ∀ (st' : NodeState api) call e, st'.splitResult call = .error e →
        (st'.splitCall call).router = st'.router := by
  refine ⟨?_, fun hlen => ?_, fun st' call e => router_splitCall_of_error⟩
  · refine partitioned_prefixes_iff ?_ calls
    obtain ⟨-, -, hrt, -⟩ := fields_of_new hnew
    rw [hrt]
    exact consistent_single nodeId
  · exact (numbered_new hnew).guarded calls (by omega)

/-- Two splits, and one at a key that the region no longer has. -/
theorem regions_partition_split_twice :
    Partitioned ([(1, [5]), (1, [7]), (2, [7])].foldl splitCall started).router := by
  obtain ⟨hiff, hlen, -⟩ := regions_partition_iff new_started [(1, [5]), (1, [7]), (2, [7])]
  exact hiff.mpr (hlen (by decide)) _ (List.prefix_refl _)

/-- Calls for a region that does not exist use up ids and change nothing else. -/
lemma foldl_splitCall_missing {st : NodeState api} (h : st.router.getRegion 0 = none) (n : ℕ) :
    (List.replicate n (0, [])).foldl splitCall st =
      { st with nextRegionId := st.nextRegionId + UInt64.ofNat n } := by
  induction n generalizing st with
  | zero => simp
  | succ n ih =>
      have hcall : st.splitCall (0, []) = { st with nextRegionId := st.nextRegionId + 1 } := by
        rw [getRegion] at h
        simp [splitCall, splitNext, allocRegionId, splitRegion, h]
      have hnext : st.nextRegionId + 1 + UInt64.ofNat n =
          st.nextRegionId + UInt64.ofNat (n + 1) := by
        rw [UInt64.ofNat_add, UInt64.add_assoc, UInt64.add_comm 1]
        rfl
      rw [List.replicate_succ, List.foldl_cons, hcall, ih (by exact h), hnext]

/-- The node when its counter has come round. -/
def wrapped : NodeState peerApi := { started with nextRegionId := 1 }

/-- After `2 ^ 64 - 1` calls that fail, a split of region 1 gets the id 1, and the new region takes
the place of the lower half: the empty key is routed, and in no region of the map by id. -/
theorem regions_partition_wrapped :
    let calls : List (UInt64 × Bytes) := List.replicate (2 ^ 64 - 1) (0, []) ++ [(1, [5])]
    let st := calls.foldl splitCall started
    (∀ id r, st.router.getRegion id = some r → ¬ r.containsKey []) ∧
      (st.router.routeKey []).isOk ∧ ¬ Partitioned st.router := by
  intro calls st
  have hst : st = wrapped.splitCall (1, [5]) := by
    simp only [st, calls, List.foldl_append,
      foldl_splitCall_missing (show started.router.getRegion 0 = none by decide)]
    rfl
  have hnone : ∀ id r, st.router.getRegion id = some r → ¬ r.containsKey [] := by
    have hone : ∀ id r, started.router.getRegion id = some r → id = 1 := by
      intro id r hr
      rcases (numbered_new new_started).used id r hr with hid | ⟨m, hm, -⟩
      · exact hid
      · omega
    have hres : wrapped.splitResult (1, [5]) =
        .ok (⟨1, [], [5], [1], ⟨1, 2⟩⟩, ⟨1, [5], [], [1], ⟨1, 1⟩⟩) := by decide
    have hid : wrapped.router.IdsMatch := (numbered_new new_started).idsMatch
    obtain ⟨old, hsplits⟩ := splits_of_ok hid hres
    intro id r hr
    rw [hst, getRegion, hsplits.byId] at hr
    split_ifs at hr with hnew hold
    · rw [← Option.some.inj hr]
      decide
    · exact absurd (hold ▸ hone _ _ hsplits.found).symm hnew
    · exact absurd (hone _ _ hr).symm hnew
  refine ⟨hnone, ?_, fun hpart => ?_⟩
  · rw [hst]
    decide
  · obtain ⟨id, ⟨r, hr, hkey⟩, -⟩ := hpart.cover []
    exact hnone id r hr hkey

end AcidKv
