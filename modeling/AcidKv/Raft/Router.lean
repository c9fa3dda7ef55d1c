import AcidKv.Lib.Partition
import AcidKv.Storage.Key

/-!
# The region router

A region holds the user keys between two bounds, of which an empty one means that there is none.
The router keeps every region twice, by its id and by its start key, and a split replaces a region
by two halves in both maps.

`RegionRouter.Consistent` is what the two maps have to do with each other and with the key space.  A
split keeps it if the id of the new region is not in use (`Consistent.split`), and breaks the first
part of it otherwise (`Consistent.split_taken`).
-/

namespace AcidKv

inductive RouterError where
  | regionNotFound (key : Bytes)
  | regionIdNotFound (regionId : UInt64)
  | regionEpochNotMatch (regionId : UInt64)
  deriving DecidableEq, Repr

structure RegionEpoch where
  confVer : UInt64
  version : UInt64
  deriving DecidableEq, Repr

structure Region where
  id : UInt64
  startKey : Bytes
  endKey : Bytes
  peers : List UInt64
  epoch : RegionEpoch
  deriving DecidableEq, Repr

namespace Region

def new (id : UInt64) (startKey endKey : Bytes) (peers : List UInt64) : Region :=
  ⟨id, startKey, endKey, peers, ⟨1, 1⟩⟩

def containsKey (r : Region) (key : Bytes) : Bool :=
  (r.startKey = [] ∨ r.startKey ≤ key) ∧ (r.endKey = [] ∨ key < r.endKey)

/-- The keys of a region. -/
def keys (r : Region) : Set Bytes := {key | r.containsKey key}

lemma mem_keys {r : Region} {key : Bytes} :
    key ∈ r.keys ↔ r.startKey ≤ key ∧ (r.endKey = [] ∨ key < r.endKey) := by
  have hstart : r.startKey = [] ∨ r.startKey ≤ key ↔ r.startKey ≤ key := by
    refine or_iff_right_of_imp fun h => ?_
    rw [h]
    exact List.nil_le key
  simp [keys, containsKey, hstart]

end Region

/-- Every region by its id and by its start key. -/
structure RegionRouter where
  regionsById : Std.ExtTreeMap UInt64 Region compare
  regionsByKey : Std.ExtTreeMap Bytes Region compare

namespace RegionRouter

def new : RegionRouter := ⟨∅, ∅⟩

def insertRegion (rt : RegionRouter) (region : Region) : RegionRouter where
  regionsById := rt.regionsById.insert region.id region
  regionsByKey := rt.regionsByKey.insert region.startKey region

lemma regionsById_insertRegion (rt : RegionRouter) (r : Region) (id : UInt64) :
    (rt.insertRegion r).regionsById[id]? =
      if r.id = id then some r else rt.regionsById[id]? := by
  simp [insertRegion, Std.ExtTreeMap.getElem?_insert]

lemma regionsByKey_insertRegion (rt : RegionRouter) (r : Region) (k : Bytes) :
    (rt.insertRegion r).regionsByKey[k]? =
      if r.startKey = k then some r else rt.regionsByKey[k]? := by
  simp [insertRegion, Std.ExtTreeMap.getElem?_insert]

def getRegion (rt : RegionRouter) (regionId : UInt64) : Option Region := rt.regionsById[regionId]?

/-- The regions in the order of their start keys. -/
def byKeyValues (rt : RegionRouter) : List Region := rt.regionsByKey.toList.map (·.2)

/-- From the greatest start key down, the first region that contains the key. -/
def routeKey (rt : RegionRouter) (key : Bytes) : Except RouterError Region :=
  match rt.byKeyValues.reverse.find? (·.containsKey key) with
  | some region => .ok region
  | none => .error (.regionNotFound key)

/-- The lower half of a region that is split. -/
def leftRegion (old : Region) (splitKey : Bytes) : Region :=
  { old with endKey := splitKey, epoch := { old.epoch with version := old.epoch.version + 1 } }

/-- The upper half, a new region. -/
def rightRegion (old : Region) (splitKey : Bytes) (newRegionId : UInt64) : Region :=
  { old with id := newRegionId, startKey := splitKey, epoch := { old.epoch with version := 1 } }

def splitRegion (rt : RegionRouter) (regionId : UInt64) (splitKey : Bytes) (newRegionId : UInt64) :
    Except RouterError (Region × Region) × RegionRouter :=
  match rt.regionsById[regionId]? with
  | none => (.error (.regionIdNotFound regionId), rt)
  | some old =>
      if ¬ old.containsKey splitKey ∨ splitKey = old.startKey then
        (.error (.regionNotFound splitKey), rt)
      else
        let left := leftRegion old splitKey
        let right := rightRegion old splitKey newRegionId
        (.ok (left, right),
          { regionsById := (rt.regionsById.insert left.id left).insert right.id right
            regionsByKey := ((rt.regionsByKey.erase old.startKey).insert left.startKey left).insert
              right.startKey right })

/-- The regions of the router. -/
def regions (rt : RegionRouter) : Set Region := {r | ∃ id : UInt64, rt.regionsById[id]? = some r}

/-- A split that fails changes nothing. -/
lemma splitRegion_error {rt : RegionRouter} {regionId newRegionId : UInt64} {splitKey : Bytes}
    {e : RouterError} (h : (rt.splitRegion regionId splitKey newRegionId).1 = .error e) :
    (rt.splitRegion regionId splitKey newRegionId).2 = rt := by
  unfold splitRegion at h ⊢
  cases hold : rt.regionsById[regionId]? with
  | none => rfl
  | some old =>
      simp only [hold] at h ⊢
      split_ifs at h ⊢
      rfl

/-- A successful split: what it has checked, and what it leaves. -/
structure Splits (rt rt' : RegionRouter) (old left right : Region) (splitKey : Bytes)
    (newRegionId : UInt64) : Prop where
  found : rt.regionsById[old.id]? = some old
  mem : splitKey ∈ old.keys
  ne : splitKey ≠ old.startKey
  left_eq : left = leftRegion old splitKey
  right_eq : right = rightRegion old splitKey newRegionId
  byId : ∀ id : UInt64, rt'.regionsById[id]? =
    if newRegionId = id then some right else if old.id = id then some left
    else rt.regionsById[id]?
  byKey : ∀ k : Bytes, rt'.regionsByKey[k]? =
    if splitKey = k then some right else if old.startKey = k then some left
    else rt.regionsByKey[k]?

/-- Regions are found under their ids. -/
def IdsMatch (rt : RegionRouter) : Prop :=
  ∀ (id : UInt64) (r : Region), rt.regionsById[id]? = some r → r.id = id

lemma splitRegion_ok {rt : RegionRouter} (hid : rt.IdsMatch) {regionId newRegionId : UInt64}
    {splitKey : Bytes} {left right : Region}
    (h : (rt.splitRegion regionId splitKey newRegionId).1 = .ok (left, right)) :
    ∃ old, Splits rt (rt.splitRegion regionId splitKey newRegionId).2 old left right splitKey
      newRegionId := by
  unfold splitRegion at h ⊢
  cases hold : rt.regionsById[regionId]? with
  | none => simp [hold] at h
  | some old =>
      simp only [hold] at h ⊢
      split_ifs at h ⊢ with hbad
      simp only [Except.ok.injEq, Prod.mk.injEq] at h
      obtain ⟨rfl, rfl⟩ := h
      obtain ⟨hmem, hne⟩ := not_or.mp hbad
      obtain rfl := hid regionId old hold
      refine ⟨old, hold, not_not.mp hmem, hne, rfl, rfl, fun id => ?_, fun k => ?_⟩
      · simp [Std.ExtTreeMap.getElem?_insert, leftRegion, rightRegion]
      · simp only [Std.ExtTreeMap.getElem?_insert, Std.ExtTreeMap.getElem?_erase, leftRegion,
          rightRegion, Std.LawfulEqCmp.compare_eq_iff_eq]
        split_ifs <;> rfl

/-! ## The two maps -/

/-- The two maps hold the same regions, each under its own id and start key; no region is empty, and
every key is in exactly one. -/
structure Consistent (rt : RegionRouter) : Prop where
  idsMatch : rt.IdsMatch
  keysMatch : ∀ (k : Bytes) (r : Region), rt.regionsByKey[k]? = some r → r.startKey = k
  same : ∀ r : Region, rt.regionsById[r.id]? = some r ↔ rt.regionsByKey[r.startKey]? = some r
  start_mem : ∀ r ∈ rt.regions, r.startKey ∈ r.keys
  partitions : Partitions Region.keys rt.regions

section

variable {rt rt' : RegionRouter} {old left right : Region} {splitKey : Bytes} {newRegionId : UInt64}

lemma IdsMatch.mem_regions (h : rt.IdsMatch) {r : Region} :
    r ∈ rt.regions ↔ rt.regionsById[r.id]? = some r := by
  constructor
  · rintro ⟨id, hr⟩
    rw [h id r hr]
    exact hr
  · exact fun hr => ⟨r.id, hr⟩

/-- The split key is above the start key, so it is not empty. -/
lemma Splits.lt (h : Splits rt rt' old left right splitKey newRegionId) :
    old.startKey < splitKey ∧ splitKey ≠ [] := by
  have hlt : old.startKey < splitKey := by
    have hle := (Region.mem_keys.mp h.mem).1
    rcases List.le_iff_lt_or_eq.mp hle with hlt | heq
    · exact hlt
    · exact absurd heq.symm h.ne
  refine ⟨hlt, fun hnil => ?_⟩
  rw [hnil] at hlt
  exact List.not_lt_nil _ hlt

lemma Splits.mem_left (h : Splits rt rt' old left right splitKey newRegionId) {key : Bytes} :
    key ∈ left.keys ↔ old.startKey ≤ key ∧ key < splitKey := by
  rw [Region.mem_keys, h.left_eq]
  exact and_congr_right fun _ => or_iff_right h.lt.2

lemma Splits.mem_right (h : Splits rt rt' old left right splitKey newRegionId) {key : Bytes} :
    key ∈ right.keys ↔ splitKey ≤ key ∧ (old.endKey = [] ∨ key < old.endKey) := by
  rw [Region.mem_keys, h.right_eq]
  rfl

/-- The halves make up the region. -/
lemma Splits.union (h : Splits rt rt' old left right splitKey newRegionId) :
    old.keys = left.keys ∪ right.keys := by
  obtain ⟨hstart, hend⟩ := Region.mem_keys.mp h.mem
  ext key
  rw [Set.mem_union, h.mem_left, h.mem_right, Region.mem_keys]
  constructor
  · rintro ⟨hlo, hhi⟩
    by_cases hlt : key < splitKey
    · exact Or.inl ⟨hlo, hlt⟩
    · exact Or.inr ⟨List.not_lt.mp hlt, hhi⟩
  · rintro (⟨hlo, hlt⟩ | ⟨hle, hhi⟩)
    · exact ⟨hlo, hend.imp_right fun hsplit => List.lt_trans hlt hsplit⟩
    · exact ⟨List.le_trans hstart hle, hhi⟩

lemma Splits.disjoint (h : Splits rt rt' old left right splitKey newRegionId) :
    ∀ key ∈ left.keys, key ∉ right.keys := by
  intro key hl hr
  exact List.not_lt.mpr (h.mem_right.mp hr).1 (h.mem_left.mp hl).2

/-- The ids are those of before and the new one. -/
lemma Splits.getRegion_iff (h : Splits rt rt' old left right splitKey newRegionId) (id : UInt64) :
    rt'.getRegion id ≠ none ↔ newRegionId = id ∨ rt.getRegion id ≠ none := by
  rw [getRegion, h.byId]
  split_ifs with hnew hold
  · simp [hnew]
  · simp [getRegion, ← hold, h.found]
  · simp [hnew, getRegion]

/-- Another region starts neither at the split key nor where the one that is split does. -/
lemma Consistent.start_ne (hc : Consistent rt)
    (h : Splits rt rt' old left right splitKey newRegionId) {r : Region} (hr : r ∈ rt.regions)
    (hne : r ≠ old) : splitKey ≠ r.startKey ∧ old.startKey ≠ r.startKey := by
  constructor
  · intro heq
    have hmem := hc.start_mem r hr
    rw [← heq] at hmem
    exact hne (hc.partitions.unique hr hmem ⟨old.id, h.found⟩ h.mem)
  · intro heq
    have hkey := (hc.same r).mp (hc.idsMatch.mem_regions.mp hr)
    rw [← heq, (hc.same old).mp h.found, Option.some.injEq] at hkey
    exact hne hkey.symm

/-- The regions after a split, by id. -/
lemma Consistent.byId_iff (hc : Consistent rt)
    (h : Splits rt rt' old left right splitKey newRegionId)
    (hfresh : rt.regionsById[newRegionId]? = none) (r : Region) :
    rt'.regionsById[r.id]? = some r ↔ r = right ∨ r = left ∨ (r ∈ rt.regions ∧ r ≠ old) := by
  have hne : newRegionId ≠ old.id := by
    rintro rfl
    rw [h.found] at hfresh
    cases hfresh
  have hleft : left.id = old.id := by rw [h.left_eq]; rfl
  have hright : right.id = newRegionId := by rw [h.right_eq]; rfl
  rw [h.byId, hc.idsMatch.mem_regions]
  constructor
  · intro hr
    split_ifs at hr with hnew hold
    · exact Or.inl (Option.some.inj hr).symm
    · exact Or.inr (Or.inl (Option.some.inj hr).symm)
    · exact Or.inr (Or.inr ⟨hr, fun heq => hold (heq ▸ rfl)⟩)
  · rintro (rfl | rfl | ⟨hr, hro⟩)
    · rw [if_pos hright.symm]
    · rw [hleft, if_neg hne, if_pos rfl]
    · have hnew : newRegionId ≠ r.id := by
        rintro rfl
        rw [hr] at hfresh
        cases hfresh
      have hold : old.id ≠ r.id := by
        intro heq
        rw [← heq, h.found, Option.some.injEq] at hr
        exact hro hr.symm
      rw [if_neg hnew, if_neg hold, hr]

/-- The regions after a split, by start key. -/
lemma Consistent.byKey_iff (hc : Consistent rt)
    (h : Splits rt rt' old left right splitKey newRegionId) (r : Region) :
    rt'.regionsByKey[r.startKey]? = some r ↔
      r = right ∨ r = left ∨ (r ∈ rt.regions ∧ r ≠ old) := by
  have hleft : left.startKey = old.startKey := by rw [h.left_eq]; rfl
  have hright : right.startKey = splitKey := by rw [h.right_eq]; rfl
  rw [h.byKey, hc.idsMatch.mem_regions, hc.same]
  constructor
  · intro hr
    split_ifs at hr with hnew hold
    · exact Or.inl (Option.some.inj hr).symm
    · exact Or.inr (Or.inl (Option.some.inj hr).symm)
    · exact Or.inr (Or.inr ⟨hr, fun heq => hold (heq ▸ rfl)⟩)
  · rintro (rfl | rfl | ⟨hr, hro⟩)
    · rw [if_pos hright.symm]
    · rw [hleft, if_neg h.ne, if_pos rfl]
    · obtain ⟨hnew, hold⟩ := hc.start_ne h (hc.idsMatch.mem_regions.mpr ((hc.same r).mpr hr)) hro
      rw [if_neg hnew, if_neg hold, hr]

lemma Splits.idsMatch (h : Splits rt rt' old left right splitKey newRegionId) (hid : rt.IdsMatch) :
    rt'.IdsMatch := by
  intro id r hr
  rw [h.byId] at hr
  split_ifs at hr with hnew hold
  · rw [← Option.some.inj hr, h.right_eq, ← hnew]
    rfl
  · rw [← Option.some.inj hr, h.left_eq, ← hold]
    rfl
  · exact hid id r hr

/-- **A split keeps the maps consistent, if the new id is not in use.** -/
theorem Consistent.split (hc : Consistent rt)
    (h : Splits rt rt' old left right splitKey newRegionId)
    (hfresh : rt.regionsById[newRegionId]? = none) : Consistent rt' := by
  have hid' := h.idsMatch hc.idsMatch
  have hregions : rt'.regions = rt.regions \ {old} ∪ {left, right} := by
    ext r
    rw [hid'.mem_regions, hc.byId_iff h hfresh]
    simp only [Set.mem_union, Set.mem_sdiff, Set.mem_singleton_iff, Set.mem_insert_iff]
    tauto
  refine ⟨hid', fun k r hr => ?_, fun r => ?_, fun r hr => ?_, ?_⟩
  · rw [h.byKey] at hr
    split_ifs at hr with hnew hold
    · rw [← Option.some.inj hr, h.right_eq, ← hnew]
      rfl
    · rw [← Option.some.inj hr, h.left_eq, ← hold]
      rfl
    · exact hc.keysMatch k r hr
  · rw [hc.byId_iff h hfresh, hc.byKey_iff h]
  · rw [hregions] at hr
    rcases hr with ⟨hr, -⟩ | rfl | rfl
    · exact hc.start_mem r hr
    · rw [h.mem_left, h.left_eq]
      exact ⟨List.le_refl _, h.lt.1⟩
    · rw [h.mem_right, h.right_eq]
      exact ⟨List.le_refl _, (Region.mem_keys.mp h.mem).2⟩
  · rw [hregions]
    exact hc.partitions.split ⟨old.id, h.found⟩ h.union h.disjoint

/-- If the new id is in use, a region is lost from the one map and not from the other. -/
theorem Consistent.split_taken (hc : Consistent rt)
    (h : Splits rt rt' old left right splitKey newRegionId) {r : Region}
    (htaken : rt.regionsById[newRegionId]? = some r) :
    ∃ lost : Region, rt'.regionsByKey[lost.startKey]? = some lost ∧ lost ∉ rt'.regions := by
  have hid : r.id = newRegionId := hc.idsMatch _ r htaken
  have hid' := h.idsMatch hc.idsMatch
  have hright : right.startKey = splitKey := by rw [h.right_eq]; rfl
  -- the one that stood under the id, which may be the lower half itself
  by_cases hro : r = old
  · have hleft : left.startKey = old.startKey := by rw [h.left_eq]; rfl
    have hleftId : left.id = newRegionId := by rw [h.left_eq, ← hid, hro]; rfl
    refine ⟨left, (hc.byKey_iff h left).mpr (Or.inr (Or.inl rfl)), ?_⟩
    rw [hid'.mem_regions, h.byId, if_pos hleftId.symm, Option.some.injEq]
    intro heq
    rw [heq, hleft] at hright
    exact h.ne hright.symm
  · have hmem : r ∈ rt.regions := ⟨newRegionId, htaken⟩
    refine ⟨r, (hc.byKey_iff h r).mpr (Or.inr (Or.inr ⟨hmem, hro⟩)), ?_⟩
    rw [hid'.mem_regions, h.byId, if_pos hid.symm, Option.some.injEq]
    intro heq
    rw [heq] at hright
    exact (hc.start_ne h hmem hro).1 hright.symm

/-- Keys are routed to the region that contains them. -/
theorem Consistent.routeKey_eq (hc : Consistent rt) {r : Region} {key : Bytes}
    (hr : r ∈ rt.regions) (hkey : key ∈ r.keys) : rt.routeKey key = .ok r := by
  have hvalues : ∀ r, r ∈ rt.byKeyValues.reverse ↔ r ∈ rt.regions := by
    intro r
    rw [List.mem_reverse, byKeyValues, List.mem_map, hc.idsMatch.mem_regions, hc.same]
    constructor
    · rintro ⟨⟨k, r'⟩, hm, rfl⟩
      have hget := Std.ExtTreeMap.mem_toList_iff_getElem?_eq_some.mp hm
      rw [hc.keysMatch k r' hget]
      exact hget
    · intro hget
      exact ⟨(r.startKey, r), Std.ExtTreeMap.mem_toList_iff_getElem?_eq_some.mpr hget, rfl⟩
  rw [routeKey, hc.partitions.find?_eq hvalues (fun _ => Iff.rfl) hr hkey]

end

/-- The router of a node that has just started. -/
lemma consistent_single (nodeId : UInt64) :
    Consistent (RegionRouter.new.insertRegion (Region.new 1 [] [] [nodeId])) := by
  have hbyId : ∀ (id : UInt64) (r : Region),
      (RegionRouter.new.insertRegion (Region.new 1 [] [] [nodeId])).regionsById[id]? = some r ↔
        1 = id ∧ r = Region.new 1 [] [] [nodeId] := by
    intro id r
    simp only [regionsById_insertRegion, RegionRouter.new, Region.new]
    split_ifs with h <;> simp [h, eq_comm]
  have hbyKey : ∀ (k : Bytes) (r : Region),
      (RegionRouter.new.insertRegion (Region.new 1 [] [] [nodeId])).regionsByKey[k]? = some r ↔
        [] = k ∧ r = Region.new 1 [] [] [nodeId] := by
    intro k r
    simp only [regionsByKey_insertRegion, RegionRouter.new, Region.new]
    split_ifs with h <;> simp [h, eq_comm]
  have hregions : (RegionRouter.new.insertRegion (Region.new 1 [] [] [nodeId])).regions
      = {Region.new 1 [] [] [nodeId]} := by
    ext r
    simp [regions, hbyId]
  have hall : ∀ key, key ∈ (Region.new 1 [] [] [nodeId]).keys :=
    fun key => Region.mem_keys.mpr ⟨List.nil_le key, Or.inl rfl⟩
  refine ⟨fun id r hr => ?_, fun k r hr => ?_, fun r => ?_, fun r hr => ?_, ?_⟩
  · obtain ⟨rfl, rfl⟩ := (hbyId id r).mp hr
    rfl
  · obtain ⟨rfl, rfl⟩ := (hbyKey k r).mp hr
    rfl
  · rw [hbyId, hbyKey]
    constructor
    · rintro ⟨-, rfl⟩
      exact ⟨rfl, rfl⟩
    · rintro ⟨-, rfl⟩
      exact ⟨rfl, rfl⟩
  · rw [hregions] at hr
    rw [hr]
    exact hall _
  · rw [hregions]
    exact Partitions.single hall

end RegionRouter

end AcidKv
