import AcidKv.Lib.Projection
import AcidKv.Properties.RegionIds
import AcidKv.Properties.RegionKeys
import Mathlib.Algebra.BigOperators.Group.List.Basic

/-!
# Splitting at medians

`ask_split` without a key splits a region at the median of its keys.  Over a run of such requests
the keys are shared out among the regions: a split gives the keys of one region to two, and at least
one key to each.  So there are never more regions than keys, and once there are as many, every
region has one key (`median_splits_bounded`).
-/

namespace AcidKv

open Raft NodeState StorageEngine

variable {api : RawNodeApi} {pb : Protobuf}

/-- The number of keys of a region. -/
def Region.keyCount (storage : Store) (r : Region) : ℕ :=
  (getKeysInRange r.startKey r.endKey storage).length

/-- A request for a split that names no key. -/
def NodeState.askMedian (pb : Protobuf) (st : NodeState api) (regionId : UInt64) :
    AskSplitResponse × NodeState api :=
  st.askSplit pb ⟨regionId, []⟩

/-! ## One request -/

/-- The halves at a median: each has a key, and together they have those of the region. -/
lemma keyCount_halves {storage : Store} {old : Region} {m : Bytes} (newRegionId : UInt64)
    (h : findMedianKey old.startKey old.endKey storage = some m) :
    0 < (RegionRouter.leftRegion old m).keyCount storage ∧
      0 < (RegionRouter.rightRegion old m newRegionId).keyCount storage ∧
      (RegionRouter.leftRegion old m).keyCount storage +
        (RegionRouter.rightRegion old m newRegionId).keyCount storage = old.keyCount storage := by
  obtain ⟨htwo, hm⟩ := findMedianKey_eq_some.mp h
  obtain ⟨-, hbetween⟩ := between_findMedianKey h
  have hsum := @Between.length_add _ _ _ storage hbetween
  have hlower : (getKeysInRange old.startKey m storage).length =
      (getKeysInRange old.startKey old.endKey storage).length / 2 := by
    rw [length_getKeysInRange_filter fun _ => hbetween.lower]
    exact length_filter_lt getKeysInRange_sorted hm
  simp only [Region.keyCount, RegionRouter.leftRegion, RegionRouter.rightRegion]
  omega

/-- What a request without a key does: it fails and changes nothing, or it splits the region at the
median. -/
inductive MedianStep (pb : Protobuf) (st : NodeState api) : AskSplitResponse × NodeState api → Prop
  | failed {text : String} (h : text ≠ "") : MedianStep pb st (⟨0, [], [], [], [], text⟩, st)
  | split {old left right : Region} {m : Bytes} {router : RegionRouter}
      {raftNodes : Std.ExtTreeMap UInt64 (MultiRaftNode api) compare}
      (hmedian : findMedianKey old.startKey old.endKey st.storage = some m)
      (hsplits : RegionRouter.Splits st.router router old left right m st.nextRegionId) :
      MedianStep pb st
        (⟨st.nextRegionId, left.startKey, left.endKey, right.startKey, right.endKey, ""⟩,
          { st with nextRegionId := st.nextRegionId + 1, router, raftNodes })

lemma notFound_ne_empty (regionId : UInt64) : s!"Region {regionId} not found" ≠ "" := by
  intro h
  have hlen := congrArg String.length h
  simp only [String.length_append] at hlen
  have hseven : (toString "Region ").length = 7 := rfl
  have hzero : ("" : String).length = 0 := rfl
  omega

lemma askMedian_step (pb : Protobuf) {st : NodeState api} (hid : st.router.IdsMatch)
    (regionId : UInt64) :
    MedianStep pb st (st.askMedian pb regionId) := by
  cases hregion : st.router.getRegion regionId with
  | none =>
      simp only [askMedian, askSplit, NodeState.split, hregion]
      exact .failed (notFound_ne_empty regionId)
  | some region =>
      have hkey : st.splitKeyFor ⟨regionId, []⟩ region =
          findMedianKey region.startKey region.endKey st.storage := by simp [splitKeyFor]
      cases hmedian : findMedianKey region.startKey region.endKey st.storage with
      | none =>
          simp only [askMedian, askSplit, NodeState.split, hregion, hkey, hmedian]
          exact .failed (by decide)
      | some m =>
          obtain ⟨hin, hbetween⟩ := between_findMedianKey hmedian
          have hok : region.containsKey m ∧ m ≠ region.startKey := by
            refine ⟨?_, fun heq => List.lt_irrefl m (heq ▸ hbetween.1)⟩
            simpa [Region.containsKey, InRange] using hin
          have hres : (st.router.splitRegion regionId m st.nextRegionId).1 =
              .ok (RegionRouter.leftRegion region m,
                RegionRouter.rightRegion region m st.nextRegionId) := by
            rw [RegionRouter.getRegion] at hregion
            simp [RegionRouter.splitRegion, hregion, hok]
          obtain ⟨old, hsplits⟩ := RegionRouter.splitRegion_ok hid hres
          -- the region that was split has the bounds of the one that was looked up
          have hleft := congrArg Region.startKey hsplits.left_eq
          have hright := congrArg Region.endKey hsplits.right_eq
          have hstart : region.startKey = old.startKey := hleft
          have hend : region.endKey = old.endKey := hright
          rw [hstart, hend] at hmedian
          obtain ⟨raftNodes, heq, -⟩ := addRaftNode_eq pb (st.splitCall (regionId, m))
            st.nextRegionId
          have hnext : st.splitNext regionId m = (st.nextRegionId,
              (st.router.splitRegion regionId m st.nextRegionId).1,
              st.splitCall (regionId, m)) := rfl
          rw [hstart, hend, hmedian] at hkey
          simp only [askMedian, askSplit, NodeState.split, hregion, hkey, hnext, hres, heq]
          exact .split hmedian hsplits

/-! ## The regions with their keys -/

/-- The regions after a split with an unused id. -/
lemma RegionRouter.Splits.mem_regions {rt rt' : RegionRouter} {old left right : Region} {m : Bytes}
    {newRegionId : UInt64} (h : Splits rt rt' old left right m newRegionId) (hid : rt.IdsMatch)
    (hnew : rt.getRegion newRegionId = none) (r : Region) :
    r ∈ rt'.regions ↔ r = left ∨ r = right ∨ (r ∈ rt.regions ∧ r ≠ old) := by
  have hne : newRegionId ≠ old.id := by
    rintro rfl
    rw [getRegion, h.found] at hnew
    cases hnew
  simp only [regions, Set.mem_ofPred_eq]
  constructor
  · rintro ⟨id, hr⟩
    rw [h.byId] at hr
    split_ifs at hr with hright hleft
    · exact Or.inr (Or.inl (Option.some.inj hr).symm)
    · exact Or.inl (Option.some.inj hr).symm
    · refine Or.inr (Or.inr ⟨⟨id, hr⟩, ?_⟩)
      rintro rfl
      exact hleft (hid id r hr)
  · rintro (rfl | rfl | ⟨⟨id, hr⟩, hold⟩)
    · exact ⟨old.id, by rw [h.byId, if_neg hne, if_pos rfl]⟩
    · exact ⟨newRegionId, by rw [h.byId, if_pos rfl]⟩
    · refine ⟨id, ?_⟩
      rw [h.byId, if_neg, if_neg, hr]
      · rintro rfl
        exact hold (Option.some.inj (hr.symm.trans h.found))
      · rintro rfl
        rw [getRegion, hr] at hnew
        cases hnew

/-- The keys of the store are shared out among `k + 1` regions, none of which is without keys unless
there are none. -/
structure Spread (storage : Store) (k : ℕ) (st : NodeState api) (rs : List Region) : Prop where
  storage_eq : st.storage = storage
  nodup : rs.Nodup
  length : rs.length = k + 1
  mem : ∀ r, r ∈ rs ↔ r ∈ st.router.regions
  total : (rs.map (Region.keyCount storage)).sum = (getKeysInRange [] [] storage).length
  some_key : 0 < (getKeysInRange [] [] storage).length → ∀ r ∈ rs, 0 < r.keyCount storage
  made : 0 < k → 0 < (getKeysInRange [] [] storage).length

lemma Spread.split {storage : Store} {k : ℕ} {st : NodeState api} {rs : List Region}
    (h : Spread storage k st rs) (hid : st.router.IdsMatch)
    (hnew : st.router.getRegion st.nextRegionId = none) {old left right : Region} {m : Bytes}
    {router : RegionRouter} {raftNodes : Std.ExtTreeMap UInt64 (MultiRaftNode api) compare}
    (hmedian : findMedianKey old.startKey old.endKey st.storage = some m)
    (hsplits : RegionRouter.Splits st.router router old left right m st.nextRegionId) :
    Spread storage (k + 1) { st with nextRegionId := st.nextRegionId + 1, router, raftNodes }
      (left :: right :: rs.erase old) := by
  rw [h.storage_eq] at hmedian
  obtain ⟨hleft, hright, hsum⟩ := keyCount_halves st.nextRegionId hmedian
  rw [← hsplits.left_eq] at hleft hsum
  rw [← hsplits.right_eq] at hright hsum
  have hold : old ∈ rs := (h.mem old).mpr ⟨old.id, hsplits.found⟩
  have hleftId : left.id = old.id := by rw [hsplits.left_eq]; rfl
  have hrightId : right.id = st.nextRegionId := by rw [hsplits.right_eq]; rfl
  have herase := List.sum_map_erase (Region.keyCount storage) hold
  have htotal := h.total
  -- ids tell regions apart, and the new one is not in use
  have hfresh : ∀ r ∈ rs, r.id ≠ st.nextRegionId := by
    intro r hr heq
    obtain ⟨id, hr⟩ := (h.mem r).mp hr
    rw [RegionRouter.getRegion, ← heq, hid id r hr, hr] at hnew
    cases hnew
  have hother : ∀ r ∈ rs.erase old, r ∈ rs ∧ r.id ≠ old.id := by
    intro r hr
    obtain ⟨hne, hr⟩ := (h.nodup.mem_erase_iff).mp hr
    refine ⟨hr, fun heq => hne ?_⟩
    obtain ⟨id, hr⟩ := (h.mem r).mp hr
    have hfound := hsplits.found
    rw [← heq, hid id r hr, hr] at hfound
    exact Option.some.inj hfound
  refine ⟨h.storage_eq, ?_, ?_, fun r => ?_, ?_, fun hpos r hr => ?_, fun _ => by omega⟩
  · rw [List.nodup_cons, List.nodup_cons, List.mem_cons, not_or]
    refine ⟨⟨fun heq => ?_, fun hin => ?_⟩, fun hin => ?_, h.nodup.erase old⟩
    · exact hfresh old hold (hleftId.symm.trans ((congrArg Region.id heq).trans hrightId))
    · exact (hother left hin).2 hleftId
    · exact hfresh right (hother right hin).1 hrightId
  · rw [List.length_cons, List.length_cons, List.length_erase_of_mem hold, h.length]
    omega
  · rw [hsplits.mem_regions hid hnew, List.mem_cons, List.mem_cons, h.nodup.mem_erase_iff, h.mem]
    tauto
  · simp only [List.map_cons, List.sum_cons]
    omega
  · rcases List.mem_cons.mp hr with rfl | hr
    · exact hleft
    · rcases List.mem_cons.mp hr with rfl | hr
      · exact hright
      · exact h.some_key hpos r (hother r hr).1

/-! ## Runs -/

/-- The answers of a run that report a split. -/
def splitsMade (pb : Protobuf) (st : NodeState api) (ids : List UInt64) :
    List (Σ _ : UInt64, AskSplitResponse) :=
  (answers (askMedian pb) st ids).filter fun x => x.2.error = ""

lemma spread_run (pb : Protobuf) {storage : Store} {k n : ℕ} {st : NodeState api} {rs : List Region}
    (h : Spread storage k st rs) (hnum : Numbered n st) (ids : List UInt64)
    (hlen : n + ids.length ≤ 2 ^ 64 - 1) :
    ∃ rs', Spread storage (k + (splitsMade pb st ids).length) (after (askMedian pb) st ids)
      rs' := by
  induction ids generalizing k n st rs with
  | nil => exact ⟨rs, h⟩
  | cons id ids ih =>
      rw [List.length_cons] at hlen
      have hstep := askMedian_step pb hnum.idsMatch id
      obtain ⟨n', hn', hnum'⟩ := (split_step pb st ⟨id, []⟩).numbered hnum
      have hnum' : Numbered n' (st.askMedian pb id).2 := hnum'
      have hcons : splitsMade pb st (id :: ids) =
          (if (st.askMedian pb id).1.error = "" then [⟨id, (st.askMedian pb id).1⟩] else []) ++
            splitsMade pb (st.askMedian pb id).2 ids := by
        simp only [splitsMade, answers, List.filter_cons, decide_eq_true_eq]
        split_ifs <;> rfl
      have hafter : after (askMedian pb) st (id :: ids) =
          after (askMedian pb) (st.askMedian pb id).2 ids := rfl
      rw [hcons, hafter]
      generalize st.askMedian pb id = out at hstep hnum' ⊢
      cases hstep with
      | failed htext =>
          rw [if_neg htext, List.nil_append]
          exact ih h hnum' (by omega)
      | split hmedian hsplits =>
          rw [if_pos rfl, List.length_append, List.length_singleton, ← Nat.add_assoc]
          exact ih (h.split hnum.idsMatch (hnum.unused (by omega)) hmedian hsplits) hnum' (by omega)

lemma spread_new {nodeId nowMs : UInt64} {storage : Store} {st : NodeState api}
    (h : NodeState.new api pb nodeId nowMs storage = .ok st) :
    Spread storage 0 st [Region.new 1 [] [] [nodeId]] := by
  obtain ⟨hstorage, -, hrouter, -⟩ := fields_of_new h
  refine ⟨hstorage, List.nodup_singleton _, rfl, fun r => ?_, by simp [Region.keyCount, Region.new],
    fun hpos r hr => ?_, fun h => absurd h (Nat.lt_irrefl 0)⟩
  · rw [hrouter, List.mem_singleton]
    simp only [RegionRouter.regions, RegionRouter.insertRegion, RegionRouter.new, Region.new,
      Std.ExtTreeMap.getElem?_insert, Std.LawfulEqCmp.compare_eq_iff_eq, Set.mem_ofPred_eq]
    constructor
    · rintro rfl
      exact ⟨1, by simp⟩
    · rintro ⟨id, hr⟩
      split_ifs at hr
      · exact (Option.some.inj hr).symm
      · simp at hr
  · rw [List.mem_singleton.mp hr]
    exact hpos

/-- There are at least as many keys as regions with keys. -/
lemma length_le_keys {f : Region → ℕ} {rs : List Region} (hpos : ∀ r ∈ rs, 0 < f r) :
    rs.length ≤ (rs.map f).sum := by
  have hle := List.length_le_sum_of_one_le (rs.map f) (by
    intro c hc
    obtain ⟨r, hr, rfl⟩ := List.mem_map.mp hc
    exact hpos r hr)
  rwa [List.length_map] at hle

/-- As many regions as keys have one key each. -/
lemma keyCount_eq_one {f : Region → ℕ} {rs : List Region} (hpos : ∀ r ∈ rs, 0 < f r)
    (hsum : (rs.map f).sum ≤ rs.length) : ∀ r ∈ rs, f r = 1 := by
  induction rs with
  | nil => simp
  | cons r rs ih =>
      rw [List.forall_mem_cons] at hpos ⊢
      have hrest := length_le_keys hpos.2
      simp only [List.map_cons, List.sum_cons, List.length_cons] at hsum
      exact ⟨by omega, ih hpos.2 (by omega)⟩

/-- **Median splits are bounded.**  From a start over a store with `n` keys, in any run of requests
for splits that name no key, for any regions: at most `n - 1` of them succeed, and if there are
keys, no region is ever without one, and after `n - 1` successes every region has exactly one. -/
theorem median_splits_bounded {nodeId nowMs : UInt64} {storage : Store} {st : NodeState api}
    (hnew : NodeState.new api pb nodeId nowMs storage = .ok st) (ids : List UInt64)
    (hlen : ids.length ≤ 2 ^ 64 - 1) :
    let n := (getKeysInRange [] [] storage).length
    let run := after (askMedian pb) st ids
    (splitsMade pb st ids).length ≤ n - 1 ∧
      (0 < n → ∀ id r, run.router.getRegion id = some r → 0 < r.keyCount storage) ∧
      (0 < n → (splitsMade pb st ids).length = n - 1 →
        ∀ id r, run.router.getRegion id = some r → r.keyCount storage = 1) := by
  intro n run
  obtain ⟨rs, hspread⟩ := spread_run pb (spread_new hnew) (numbered_new hnew) ids (by omega)
  rw [Nat.zero_add] at hspread
  have hmem : ∀ id r, run.router.getRegion id = some r → r ∈ rs :=
    fun id r hr => (hspread.mem r).mpr ⟨id, hr⟩
  have hlength := hspread.length
  have htotal : (rs.map (Region.keyCount storage)).sum = n := hspread.total
  refine ⟨?_, fun hpos id r hr => hspread.some_key hpos r (hmem id r hr),
    fun hpos hall id r hr => ?_⟩
  · by_cases hpos : 0 < n
    · have hcount := length_le_keys (hspread.some_key hpos)
      omega
    · by_contra hmade
      exact hpos (hspread.made (by omega))
  · exact keyCount_eq_one (hspread.some_key hpos) (by omega) r (hmem id r hr)

/-- Of three requests over a store with two keys one succeeds, and then each region has one. -/
theorem median_splits_bounded_enclosed :
    ∃ st, NodeState.new peerApi Protobuf.plain 1 0 enclosed = .ok st ∧
      (splitsMade Protobuf.plain st [1, 1, 2]).length = 1 ∧
      (after (askMedian Protobuf.plain) st [1, 1, 2]).router.getRegion 2 ≠ none ∧
      ∀ id r, (after (askMedian Protobuf.plain) st [1, 1, 2]).router.getRegion id = some r →
        r.keyCount enclosed = 1 := by
  have hnew : NodeState.new peerApi Protobuf.plain 1 0 enclosed =
      .ok { started with storage := enclosed } := by rfl
  have htwo : (getKeysInRange [] [] enclosed).length = 2 := by decide +kernel
  have hmade : (splitsMade Protobuf.plain { started with storage := enclosed } [1, 1, 2]).length =
      1 := by decide +kernel
  obtain ⟨-, -, hone⟩ := median_splits_bounded hnew [1, 1, 2] (by decide)
  rw [htwo, hmade] at hone
  exact ⟨_, hnew, hmade, by decide +kernel, hone (by decide) rfl⟩

end AcidKv
