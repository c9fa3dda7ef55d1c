import AcidKv.Lib.Runs
import AcidKv.Lib.TwoIndexes
import AcidKv.Raft.Router

/-!
# Registering regions again

The router keeps a region under its id and under its start key.  Registering a region overwrites
what stands under either, so a region that comes with a known id and another start key, or with the
start key of another region, leaves an entry behind in one of the maps.  A split registers its two
halves: the lower one in the place of the old region, the upper one as a new region.
-/

namespace AcidKv

namespace RegionRouter

/-- The two maps as functions. -/
def indexes (rt : RegionRouter) : TwoIndexes UInt64 Bytes Region where
  byId := fun id => rt.regionsById[id]?
  byKey := fun k => rt.regionsByKey[k]?

/-- Every region is where its id and its start key say. -/
abbrev Matched (rt : RegionRouter) : Prop := rt.indexes.Matched Region.id Region.startKey

/-- What is registered is registered in both maps, and keys are routed to such regions only. -/
structure IndexesAgree (rt : RegionRouter) : Prop where
  byKey : ∀ (k : Bytes) (r : Region), rt.regionsByKey[k]? = some r → rt.getRegion r.id = some r
  byId : ∀ (id : UInt64) (r : Region), rt.regionsById[id]? = some r →
    rt.regionsByKey[r.startKey]? = some r
  routed : ∀ (key : Bytes) (r : Region), rt.routeKey key = .ok r → rt.getRegion r.id = some r

/-- A region with the id of `r` starts where `r` does, and one that starts there has its id. -/
def Registers (rt : RegionRouter) (r : Region) : Prop :=
  (∀ x : Region, rt.regionsById[r.id]? = some x → x.startKey = r.startKey) ∧
    ∀ x : Region, rt.regionsByKey[r.startKey]? = some x → x.id = r.id

section

variable {rt : RegionRouter} {r : Region}

lemma routeKey_mem {key : Bytes} (h : rt.routeKey key = .ok r) :
    ∃ k : Bytes, rt.regionsByKey[k]? = some r := by
  rw [routeKey] at h
  cases hfind : rt.byKeyValues.reverse.find? (·.containsKey key) with
  | none => simp [hfind] at h
  | some r' =>
      obtain rfl : r' = r := by simpa [hfind] using h
      have hmem := List.mem_reverse.mp (List.mem_of_find?_eq_some hfind)
      obtain ⟨⟨k, r''⟩, hm, rfl⟩ := List.mem_map.mp hmem
      exact ⟨k, Std.ExtTreeMap.mem_toList_iff_getElem?_eq_some.mp hm⟩

lemma indexesAgree_iff : rt.IndexesAgree ↔ rt.indexes.Agree Region.id Region.startKey := by
  constructor
  · intro h
    exact ⟨h.byKey _ _, h.byId _ _⟩
  · intro h
    refine ⟨fun k r => h.byKey, fun id r => h.byId, fun key r hroute => ?_⟩
    obtain ⟨k, hk⟩ := routeKey_mem hroute
    exact h.byKey hk

lemma indexes_insertRegion :
    (rt.insertRegion r).indexes = rt.indexes.insert Region.id Region.startKey r := by
  simp only [indexes, TwoIndexes.insert, TwoIndexes.mk.injEq]
  constructor
  · funext id
    simp [regionsById_insertRegion, Function.update_apply, eq_comm]
  · funext k
    simp [regionsByKey_insertRegion, Function.update_apply, eq_comm]

lemma insertRegion_agree_iff (hm : rt.Matched) (h : rt.IndexesAgree) :
    (rt.insertRegion r).IndexesAgree ↔ rt.Registers r := by
  rw [indexesAgree_iff, indexes_insertRegion, (indexesAgree_iff.mp h).insert_iff hm]
  rfl

lemma Matched.insertRegion (hm : rt.Matched) : (rt.insertRegion r).Matched := by
  rw [Matched, indexes_insertRegion]
  exact TwoIndexes.Matched.insert hm

end

/-! ## A split -/

section

variable {rt rt' : RegionRouter} {old left right : Region} {splitKey : Bytes} {newRegionId : UInt64}

/-- A split registers the lower half and then the upper one. -/
lemma Splits.indexes_eq (h : Splits rt rt' old left right splitKey newRegionId) :
    rt'.indexes = ((rt.insertRegion left).insertRegion right).indexes := by
  simp only [indexes, h.byId, h.byKey, regionsById_insertRegion, regionsByKey_insertRegion,
    h.left_eq, h.right_eq, leftRegion, rightRegion]

/-- The lower half takes the place of the old region. -/
lemma Splits.registers_left (h : Splits rt rt' old left right splitKey newRegionId)
    (hagree : rt.IndexesAgree) : rt.Registers left := by
  have hold := hagree.byId _ _ h.found
  rw [h.left_eq]
  constructor
  · intro x hx
    obtain rfl : old = x := by simpa [leftRegion, h.found] using hx
    rfl
  · intro x hx
    obtain rfl : old = x := by simpa [leftRegion, hold] using hx
    rfl

/-- The lower half does not matter to the upper one. -/
lemma Splits.registers_right_iff (h : Splits rt rt' old left right splitKey newRegionId) :
    (rt.insertRegion left).Registers right ↔ rt.Registers right := by
  have hkey : (rt.insertRegion left).regionsByKey[splitKey]? = rt.regionsByKey[splitKey]? := by
    simp [regionsByKey_insertRegion, h.left_eq, leftRegion, h.ne.symm]
  have hid : (∀ x, (rt.insertRegion left).regionsById[newRegionId]? = some x →
      x.startKey = splitKey) ↔
        ∀ x, rt.regionsById[newRegionId]? = some x → x.startKey = splitKey := by
    rw [regionsById_insertRegion]
    split_ifs with hsame
    · -- the id of the old region: neither the old nor the lower one starts at the split key
      have hfound : rt.regionsById[newRegionId]? = some old := by
        rw [← hsame, h.left_eq]
        exact h.found
      simp [hfound, h.left_eq, leftRegion]
    · exact Iff.rfl
  rw [Registers, Registers, h.right_eq]
  simp only [rightRegion, hkey]
  exact and_congr_left fun _ => hid

lemma Splits.agree_iff (h : Splits rt rt' old left right splitKey newRegionId)
    (hm : rt.Matched) (hagree : rt.IndexesAgree) : rt'.IndexesAgree ↔ rt.Registers right := by
  rw [indexesAgree_iff, h.indexes_eq, ← indexesAgree_iff,
    insertRegion_agree_iff hm.insertRegion ((insertRegion_agree_iff hm hagree).mpr
      (h.registers_left hagree)), h.registers_right_iff]

lemma Splits.matched (h : Splits rt rt' old left right splitKey newRegionId) (hm : rt.Matched) :
    rt'.Matched := by
  rw [Matched, h.indexes_eq]
  exact hm.insertRegion.insertRegion

end

/-! ## Runs of calls -/

end RegionRouter

/-- The calls that change a router. -/
inductive RouterCall where
  | insertRegion (region : Region)
  | splitRegion (regionId : UInt64) (splitKey : Bytes) (newRegionId : UInt64)

namespace RegionRouter

/-- The router after a call. -/
def call (rt : RegionRouter) : RouterCall → RegionRouter
  | .insertRegion region => rt.insertRegion region
  | .splitRegion regionId splitKey newRegionId =>
      (rt.splitRegion regionId splitKey newRegionId).2

/-- The new region of a call, if there is one, takes the place of a region with its id and start key
or of none. -/
def Admits (rt : RegionRouter) : RouterCall → Prop
  | .insertRegion region => rt.Registers region
  | .splitRegion regionId splitKey newRegionId =>
      ∀ left right, (rt.splitRegion regionId splitKey newRegionId).1 = .ok (left, right) →
        rt.Registers right

lemma call_agree_iff {rt : RegionRouter} (hm : rt.Matched) (h : rt.IndexesAgree) (c : RouterCall) :
    (rt.call c).Matched ∧ ((rt.call c).IndexesAgree ↔ rt.Admits c) := by
  cases c with
  | insertRegion region => exact ⟨hm.insertRegion, insertRegion_agree_iff hm h⟩
  | splitRegion regionId splitKey newRegionId =>
      rw [call, Admits]
      cases hres : (rt.splitRegion regionId splitKey newRegionId).1 with
      | error e =>
          rw [splitRegion_error hres]
          simp [hm, h]
      | ok halves =>
          obtain ⟨left, right⟩ := halves
          obtain ⟨old, hsplits⟩ := splitRegion_ok (fun _ _ => hm.id_eq) hres
          refine ⟨hsplits.matched hm, ?_⟩
          rw [hsplits.agree_iff hm h]
          simp

/-- **The maps agree along a run exactly if every region that is registered takes the place of one
with its id and start key, or of none.** -/
theorem indexes_agree_iff (calls : List RouterCall) :
    (∀ done, done <+: calls → (done.foldl call RegionRouter.new).IndexesAgree) ↔
      Guarded call Admits RegionRouter.new calls := by
  have hnew : RegionRouter.new.Matched ∧ RegionRouter.new.IndexesAgree := by
    rw [indexesAgree_iff]
    constructor <;> constructor <;> simp [indexes, RegionRouter.new]
  refine forall_prefixes_iff_guarded (fun rt => rt.Matched ∧ rt.IndexesAgree) IndexesAgree
    (fun _ h => h.2) (fun rt c h hok => ?_) (fun rt c h hagree => ?_) hnew calls
  · obtain ⟨hm, hiff⟩ := call_agree_iff h.1 h.2 c
    exact ⟨hm, hiff.mpr hok⟩
  · exact (call_agree_iff h.1 h.2 c).2.mp hagree

/-- Region 1 is registered again with another start key: the key `[0]` is still routed to what it
was before, which is not what the router has under the id 1. -/
theorem indexes_stale_region :
    ([RouterCall.insertRegion (Region.new 1 [] [] [1]),
        .insertRegion (Region.new 1 [5] [] [1])].foldl call RegionRouter.new).routeKey [0] =
          .ok (Region.new 1 [] [] [1]) ∧
      ([RouterCall.insertRegion (Region.new 1 [] [] [1]),
        .insertRegion (Region.new 1 [5] [] [1])].foldl call RegionRouter.new).getRegion 1 =
          some (Region.new 1 [5] [] [1]) := by
  decide +kernel

end RegionRouter

end AcidKv
