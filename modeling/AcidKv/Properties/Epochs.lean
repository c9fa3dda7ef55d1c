import AcidKv.Properties.Regions

/-!
# The epoch version of a region

A split moves the end of the region that is split and raises its version; the new region starts at
version 1, under an id that no region had before.  So between any two moments of a run each region
has only been cut off at its end (`Narrows`), and it has not been cut at all if its version is the
same.  Ids and versions are both `u64`; `Counted` bounds them by the number of calls.
-/

namespace AcidKv

open Raft NodeState RegionRouter

variable {api : RawNodeApi} {pb : Protobuf}

/-! ## One region -/

/-- `r'` is the region `r` at a later moment. -/
structure Region.Narrows (r r' : Region) : Prop where
  startKey : r'.startKey = r.startKey
  keys : r'.keys ⊆ r.keys
  version : r.epoch.version ≤ r'.epoch.version
  endKey : r'.epoch.version = r.epoch.version → r'.endKey = r.endKey

namespace Region.Narrows

protected lemma refl (r : Region) : r.Narrows r :=
  ⟨rfl, subset_rfl, UInt64.le_rfl, fun _ => rfl⟩

protected lemma trans {r r' r'' : Region} (h : r.Narrows r') (h' : r'.Narrows r'') :
    r.Narrows r'' where
  startKey := h'.startKey.trans h.startKey
  keys := h'.keys.trans h.keys
  version := UInt64.le_trans h.version h'.version
  endKey hsame := by
    -- the version in between is the same as well
    have hle := h'.version
    rw [hsame] at hle
    have hmid : r'.epoch.version = r.epoch.version := UInt64.le_antisymm hle h.version
    rw [h'.endKey (hsame.trans hmid.symm), h.endKey hmid]

end Region.Narrows

/-- The lower half is the region that was split, with a higher version. -/
lemma RegionRouter.Splits.narrows {rt rt' : RegionRouter} {old left right : Region}
    {splitKey : Bytes} {newRegionId : UInt64}
    (h : Splits rt rt' old left right splitKey newRegionId)
    (hroom : old.epoch.version.toNat < 2 ^ 64 - 1) :
    old.Narrows left ∧ left.epoch.version.toNat = old.epoch.version.toNat + 1 := by
  have hversion : left.epoch.version.toNat = old.epoch.version.toNat + 1 := by
    have heq : left.epoch.version = old.epoch.version + 1 := by rw [h.left_eq]; rfl
    rw [heq, UInt64.toNat_add, UInt64.toNat_one]
    omega
  refine ⟨⟨by rw [h.left_eq]; rfl, ?_, ?_, fun hsame => ?_⟩, hversion⟩
  · rw [h.union]
    exact Set.subset_union_left
  · rw [UInt64.le_iff_toNat_le]
    omega
  · rw [hsame] at hversion
    omega

namespace NodeState

/-! ## One call -/

/-- Every region of `st` is there in `st'`, cut off at its end at most. -/
def Narrowed (st st' : NodeState api) : Prop :=
  ∀ id r, st.router.getRegion id = some r →
    ∃ r', st'.router.getRegion id = some r' ∧ r.Narrows r'

protected lemma Narrowed.trans {st st' st'' : NodeState api} (h : Narrowed st st')
    (h' : Narrowed st' st'') : Narrowed st st'' := by
  intro id r hr
  obtain ⟨r', hr', hle⟩ := h id r hr
  obtain ⟨r'', hr'', hle'⟩ := h' id r' hr'
  exact ⟨r'', hr'', hle.trans hle'⟩

/-- After `n` calls, no version is above `n + 1`. -/
structure Counted (n : ℕ) (st : NodeState api) : Prop where
  numbered : Numbered n st
  version_le : ∀ id r, st.router.getRegion id = some r → r.epoch.version.toNat ≤ n + 1

section

variable {n : ℕ} {st : NodeState api}

lemma Counted.step (h : Counted n st) (hn : n < 2 ^ 64 - 2) (call : UInt64 × Bytes) :
    Counted (n + 1) (st.splitCall call) ∧ Narrowed st (st.splitCall call) := by
  cases hres : st.splitResult call with
  | error e =>
      have hrt := router_splitCall_of_error hres
      refine ⟨⟨h.numbered.step call, fun id r hr => ?_⟩, fun id r hr => ?_⟩
      · rw [hrt] at hr
        exact Nat.le_succ_of_le (h.version_le id r hr)
      · rw [hrt]
        exact ⟨r, hr, .refl r⟩
  | ok halves =>
      obtain ⟨old, hsplits⟩ := splits_of_ok h.numbered.idsMatch hres
      have hold := h.version_le old.id old hsplits.found
      obtain ⟨hnarrows, hversion⟩ := hsplits.narrows (by omega)
      have hunused := h.numbered.unused (by omega)
      refine ⟨⟨h.numbered.step call, fun id r hr => ?_⟩, fun id r hr => ?_⟩
      · rw [getRegion, hsplits.byId] at hr
        split_ifs at hr
        · rw [← Option.some.inj hr, hsplits.right_eq]
          exact Nat.le_add_left 1 (n + 1)
        · rw [← Option.some.inj hr]
          omega
        · exact Nat.le_succ_of_le (h.version_le id r hr)
      · rw [getRegion, hsplits.byId]
        split_ifs with hnew hid
        · rw [hnew, hr] at hunused
          cases hunused
        · have heq : old = r := by
            rw [getRegion, ← hid, hsplits.found] at hr
            exact Option.some.inj hr
          exact ⟨halves.1, rfl, heq ▸ hnarrows⟩
        · exact ⟨r, hr, .refl r⟩

/-! ## Runs -/

lemma Counted.steps (h : Counted n st) (calls : List (UInt64 × Bytes))
    (hn : n + calls.length < 2 ^ 64 - 1) :
    Counted (n + calls.length) (calls.foldl splitCall st) ∧
      Narrowed st (calls.foldl splitCall st) := by
  induction calls generalizing n st with
  | nil => exact ⟨h, fun id r hr => ⟨r, hr, .refl r⟩⟩
  | cons call calls ih =>
      rw [List.length_cons] at hn ⊢
      obtain ⟨hcounted, hnarrowed⟩ := h.step (by omega) call
      obtain ⟨hcounted', hnarrowed'⟩ := ih hcounted (by omega)
      rw [Nat.add_right_comm] at hcounted'
      exact ⟨hcounted', hnarrowed.trans hnarrowed'⟩

lemma counted_new {nodeId nowMs : UInt64} {storage : Store}
    (h : NodeState.new api pb nodeId nowMs storage = .ok st) : Counted 0 st := by
  refine ⟨numbered_new h, fun id r hr => ?_⟩
  obtain ⟨-, -, hrt, -⟩ := fields_of_new h
  rw [hrt, getRegion, regionsById_insertRegion] at hr
  split_ifs at hr
  · rw [← Option.some.inj hr]
    exact Nat.le_refl 1
  · simp [RegionRouter.new] at hr

end

end NodeState

/-- **A region's version identifies its range.**  Between two moments of a run of splits from a
start on, a region keeps its start key, it loses keys at most, its version does not go down, and at
the same version it has the same bounds. -/
theorem version_identifies_range {nodeId nowMs : UInt64} {storage : Store} {st : NodeState api}
    (hnew : NodeState.new api pb nodeId nowMs storage = .ok st) (calls : List (UInt64 × Bytes))
    (hfew : calls.length < 2 ^ 64 - 1) {done₁ done₂ : List (UInt64 × Bytes)}
    (hfirst : done₁ <+: done₂) (hsecond : done₂ <+: calls) {id : UInt64} {r₁ : Region}
    (hr₁ : (done₁.foldl splitCall st).router.getRegion id = some r₁) :
    ∃ r₂, (done₂.foldl splitCall st).router.getRegion id = some r₂ ∧
      r₂.startKey = r₁.startKey ∧ r₂.keys ⊆ r₁.keys ∧ r₁.epoch.version ≤ r₂.epoch.version ∧
      (r₂.epoch.version = r₁.epoch.version →
        r₂.startKey = r₁.startKey ∧ r₂.endKey = r₁.endKey) := by
  obtain ⟨rest, rfl⟩ := hfirst
  have hlen := hsecond.length_le
  rw [List.length_append] at hlen
  obtain ⟨hcounted, -⟩ := (counted_new hnew).steps done₁ (by omega)
  obtain ⟨-, hnarrowed⟩ := hcounted.steps rest (by omega)
  obtain ⟨r₂, hr₂, hnarrows⟩ := hnarrowed id r₁ hr₁
  rw [List.foldl_append]
  exact ⟨r₂, hr₂, hnarrows.startKey, hnarrows.keys, hnarrows.version,
    fun hsame => ⟨hnarrows.startKey, hnarrows.endKey hsame⟩⟩

/-- Region 2, born in the first split, is split itself. -/
theorem version_identifies_range_born :
    ([(1, [5])].foldl splitCall started).router.getRegion 2 =
        some ⟨2, [5], [], [1], ⟨1, 1⟩⟩ ∧
      ∃ r₂, ([(1, [5]), (2, [7])].foldl splitCall started).router.getRegion 2 = some r₂ ∧
        r₂.startKey = [5] ∧ r₂.keys ⊆ Region.keys ⟨2, [5], [], [1], ⟨1, 1⟩⟩ ∧
        (1 : UInt64) ≤ r₂.epoch.version := by
  have hborn : ([(1, [5])].foldl splitCall started).router.getRegion 2 =
      some ⟨2, [5], [], [1], ⟨1, 1⟩⟩ := by decide
  obtain ⟨r₂, hr₂, hstart, hkeys, hversion, -⟩ := version_identifies_range new_started
    [(1, [5]), (2, [7])] (by decide) (List.prefix_append _ _) (List.prefix_refl _) hborn
  exact ⟨hborn, r₂, hr₂, hstart, hkeys, hversion⟩

end AcidKv
