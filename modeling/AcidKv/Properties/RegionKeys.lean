import AcidKv.Abstract.Moves
import AcidKv.Lib.Stutter
import AcidKv.Raft.Router

/-!
# The keys of a region

A region is split at the median of its keys.  The key listing sorts the user keys of all records and
keeps one of each, so it does not depend on how the versions of different keys are mixed in encoded
order, and neither does the median.  The statistics of a region count a key once more whenever it
comes back after a record of another key of the region, so they agree with the listing exactly if
the versions of each key stand together.
-/

namespace AcidKv

open KeyEncoder StorageEngine BigEndian

section

variable {startKey endKey : Bytes}

/-- The user key under which an entry of the write partition is listed. -/
def listedAs (startKey endKey : Bytes) (x : Bytes × Bytes) : Option Bytes :=
  match decode x.1 with
  | .error _ => none
  | .ok (k, _) => if InRange startKey endKey k then some k else none

lemma listedAs_eq_some {x : Bytes × Bytes} {k : Bytes} :
    listedAs startKey endKey x = some k ↔ InRange startKey endKey k ∧ ∃ ts, x.1 = encode k ts := by
  rw [listedAs]
  cases hd : decode x.1 with
  | error e =>
      simp only [reduceCtorEq, false_iff, not_and]
      rintro - ⟨ts, he⟩
      rw [he, decode_encode] at hd
      cases hd
  | ok r =>
      obtain ⟨k', ts'⟩ := r
      rw [← encode_of_decode hd]
      simp only [encode_inj]
      split_ifs with hin <;> grind

/-- The two tests that the loops make on a key. -/
lemma skipped_or_listed (k : Bytes) {α : Type} (a b : α) :
    (if startKey ≠ [] ∧ k < startKey then a else if endKey ≠ [] ∧ endKey ≤ k then a else b) =
      if InRange startKey endKey k then b else a := by
  simp only [inRange_iff]
  split_ifs <;> tauto

/-- The listing loop keeps one key of each run. -/
lemma keysLoop_some (last : Bytes) (items : List (Bytes × Bytes)) :
    last :: keysLoop startKey endKey (some last) items =
      (items.filterMap (listedAs startKey endKey)).destutter' (· ≠ ·) last := by
  induction items generalizing last with
  | nil => rfl
  | cons x items ih =>
      obtain ⟨e, b⟩ := x
      rw [keysLoop, List.filterMap_cons, listedAs]
      cases hd : decode e with
      | error _ => exact ih last
      | ok r =>
          simp only [skipped_or_listed]
          by_cases hin : InRange startKey endKey r.1
          · simp only [if_pos hin, List.destutter'_cons, ← ih, ne_eq, Option.some.injEq]
            split_ifs <;> rfl
          · simp only [if_neg hin]
            exact ih last

lemma keysLoop_none (items : List (Bytes × Bytes)) :
    keysLoop startKey endKey none items =
      (items.filterMap (listedAs startKey endKey)).destutter (· ≠ ·) := by
  induction items with
  | nil => rfl
  | cons x items ih =>
      obtain ⟨e, b⟩ := x
      rw [keysLoop, List.filterMap_cons, listedAs]
      cases hd : decode e with
      | error _ => exact ih
      | ok r =>
          simp only [skipped_or_listed]
          by_cases hin : InRange startKey endKey r.1
          · simp only [if_pos hin, List.destutter_cons', ← keysLoop_some]
            rfl
          · simp only [if_neg hin]
            exact ih

/-- The statistics count what the listing loop pushes, and the bytes of what it reads. -/
lemma statsLoop_eq (last : Option Bytes) (keyCount totalBytes : ℕ) (items : List (Bytes × Bytes)) :
    statsLoop startKey endKey last keyCount totalBytes items =
      (keyCount + (keysLoop startKey endKey last items).length,
        totalBytes + ((items.filter fun x => (listedAs startKey endKey x).isSome).map fun x =>
          x.1.length + x.2.length).sum) := by
  induction items generalizing last keyCount totalBytes with
  | nil => rfl
  | cons x items ih =>
      obtain ⟨e, b⟩ := x
      rw [statsLoop, keysLoop, List.filter_cons, listedAs]
      cases hd : decode e with
      | error _ => simpa using ih last keyCount totalBytes
      | ok r =>
          simp only [skipped_or_listed]
          by_cases hin : InRange startKey endKey r.1
          · simp only [if_pos hin, ih]
            by_cases hseen : last = some r.1
            · simp [hseen]
              omega
            · simp [hseen]
              omega
          · simpa [hin] using ih last keyCount totalBytes

/-- The user keys of the records in a range, in encoded order. -/
def listed (startKey endKey : Bytes) (st : Store) : List Bytes :=
  (st.range .write []).filterMap (listedAs startKey endKey)

/-- The versions of the keys in a range. -/
def versions (startKey endKey : Bytes) (st : Store) : Set (Bytes × UInt64) :=
  {v | InRange startKey endKey v.1 ∧ ∃ b, st.get .write (encode v.1 v.2) = some b}

variable {st : Store}

lemma mem_listed {k : Bytes} :
    k ∈ listed startKey endKey st ↔ ∃ ts, (k, ts) ∈ versions startKey endKey st := by
  simp only [listed, List.mem_filterMap, listedAs_eq_some, versions, Set.mem_ofPred_eq]
  constructor
  · rintro ⟨⟨e, b⟩, hx, hin, ts, rfl⟩
    exact ⟨ts, hin, b, mem_range_nil.mp hx⟩
  · rintro ⟨ts, hin, b, hb⟩
    exact ⟨(encode k ts, b), mem_range_nil.mpr hb, hin, ts, rfl⟩

/-! ## The listing -/

lemma mem_getKeysInRange {k : Bytes} :
    k ∈ getKeysInRange startKey endKey st ↔ ∃ ts, (k, ts) ∈ versions startKey endKey st := by
  rw [getKeysInRange, mem_destutter_ne, List.mem_insertionSort, keysLoop_none, mem_destutter_ne]
  exact mem_listed

lemma getKeysInRange_sorted : (getKeysInRange startKey endKey st).Pairwise (· < ·) := by
  have hsorted := List.pairwise_insertionSort (· ≤ ·)
    (keysLoop startKey endKey none (st.range .write []))
  rw [getKeysInRange, hsorted.destutter_eq_dedup]
  refine ((hsorted.sublist (List.dedup_sublist _)).and (List.nodup_dedup _)).imp fun h => ?_
  exact Std.lt_of_le_of_ne h.1 h.2

lemma nodup_getKeysInRange : (getKeysInRange startKey endKey st).Nodup :=
  getKeysInRange_sorted.imp Std.ne_of_lt

lemma length_getKeysInRange :
    (getKeysInRange startKey endKey st).length = (listed startKey endKey st).dedup.length := by
  refine List.Perm.length_eq ((List.perm_ext_iff_of_nodup nodup_getKeysInRange
    (List.nodup_dedup _)).mpr fun k => ?_)
  rw [mem_getKeysInRange, List.mem_dedup, mem_listed]

end

/-! ## Two parts of a range -/

/-- A key strictly between the bounds of a range. -/
def Between (startKey endKey m : Bytes) : Prop := startKey < m ∧ (endKey = [] ∨ m < endKey)

section

variable {startKey endKey m : Bytes}

lemma Between.lower (h : Between startKey endKey m) {k : Bytes} :
    InRange startKey m k ↔ InRange startKey endKey k ∧ k < m := by
  have hne : m ≠ [] := by
    rintro rfl
    exact List.not_lt_nil _ h.1
  have hend : k < m → endKey = [] ∨ k < endKey := fun hk => h.2.imp_right (List.lt_trans hk)
  simp only [InRange, hne, false_or]
  tauto

lemma Between.upper (h : Between startKey endKey m) {k : Bytes} :
    InRange m endKey k ↔ InRange startKey endKey k ∧ ¬ k < m := by
  have hstart : m ≤ k → startKey ≤ k := fun hk => Std.le_trans (Std.le_of_lt h.1) hk
  have hnil : m = [] → m ≤ k := by
    rintro rfl
    exact List.nil_le k
  simp only [InRange, List.not_lt]
  tauto

variable {st : Store}

section

variable {lo hi : Bytes} {p : Bytes → Prop} [DecidablePred p]

/-- An entry in a smaller range, of which the test is part of that of the greater. -/
lemma listedAs_eq_filter (hp : ∀ k, InRange lo hi k ↔ InRange startKey endKey k ∧ p k)
    (x : Bytes × Bytes) : listedAs lo hi x = (listedAs startKey endKey x).filter (p ·) := by
  ext k
  simp only [listedAs_eq_some, hp, Option.filter_eq_some_iff, decide_eq_true_eq]
  tauto

/-- The keys of the smaller range. -/
lemma listed_eq_filter (hp : ∀ k, InRange lo hi k ↔ InRange startKey endKey k ∧ p k) :
    listed lo hi st = (listed startKey endKey st).filter (p ·) := by
  rw [listed, listed, List.filter_filterMap]
  congr 1
  funext x
  exact listedAs_eq_filter hp x

/-- The same for the listing. -/
lemma length_getKeysInRange_filter
    (hp : ∀ k, InRange lo hi k ↔ InRange startKey endKey k ∧ p k) :
    (getKeysInRange lo hi st).length =
      ((getKeysInRange startKey endKey st).filter (p ·)).length := by
  refine List.Perm.length_eq ((List.perm_ext_iff_of_nodup nodup_getKeysInRange
    (nodup_getKeysInRange.filter _)).mpr fun k => ?_)
  simp only [mem_getKeysInRange, List.mem_filter, versions, Set.mem_ofPred_eq, hp,
    decide_eq_true_eq]
  grind

end

/-- **The listings of two parts make up that of the whole.** -/
lemma Between.length_add (h : Between startKey endKey m) :
    (getKeysInRange startKey endKey st).length =
      (getKeysInRange startKey m st).length + (getKeysInRange m endKey st).length := by
  rw [length_getKeysInRange_filter fun _ => h.lower, length_getKeysInRange_filter fun _ => h.upper]
  simp only [decide_not]
  exact List.length_eq_length_filter_add _

end

/-! ## The median -/

/-- In a strictly ascending list, the elements below the one at `i` are the first `i`. -/
lemma length_filter_lt {l : List Bytes} (hl : l.Pairwise (· < ·)) {i : ℕ} {m : Bytes}
    (hm : l[i]? = some m) : (l.filter (· < m)).length = i := by
  induction l generalizing i with
  | nil => simp at hm
  | cons a l ih =>
      obtain ⟨hhead, htail⟩ := List.pairwise_cons.mp hl
      cases i with
      | zero =>
          obtain rfl : a = m := by simpa using hm
          have hge : ∀ k ∈ l, ¬ k < a := fun k hk => List.lt_asymm (hhead k hk)
          simpa [List.lt_irrefl] using hge
      | succ i =>
          have hm : l[i]? = some m := by simpa using hm
          have hlt := hhead m (List.mem_of_getElem? hm)
          rw [List.filter_cons_of_pos (by simpa using hlt), List.length_cons, ih htail hm]

/-- What the median is. -/
lemma findMedianKey_eq_some {startKey endKey m : Bytes} {st : Store} :
    findMedianKey startKey endKey st = some m ↔ 2 ≤ (getKeysInRange startKey endKey st).length ∧
      (getKeysInRange startKey endKey st)[(getKeysInRange startKey endKey st).length / 2]? =
        some m := by
  simp only [findMedianKey]
  split_ifs with hfew
  · simp only [false_iff, not_and]
    omega
  · simp only [not_lt] at hfew
    simp [hfew]

/-- The median is a key of the range, and there is one below it. -/
lemma between_findMedianKey {startKey endKey m : Bytes} {st : Store}
    (h : findMedianKey startKey endKey st = some m) :
    InRange startKey endKey m ∧ Between startKey endKey m := by
  obtain ⟨htwo, hm⟩ := findMedianKey_eq_some.mp h
  obtain ⟨ts, hin, -⟩ := mem_getKeysInRange.mp (List.mem_of_getElem? hm)
  refine ⟨hin, ?_, hin.2⟩
  have hbelow : (getKeysInRange startKey endKey st).filter (· < m) ≠ [] := by
    rw [← List.length_pos_iff, length_filter_lt getKeysInRange_sorted hm]
    omega
  obtain ⟨k, hk⟩ := List.exists_mem_of_ne_nil _ hbelow
  obtain ⟨hk, hlt⟩ := List.mem_filter.mp hk
  obtain ⟨ts, hkin, -⟩ := mem_getKeysInRange.mp hk
  have hle : startKey ≤ k := hkin.1.elim (fun hnil => hnil ▸ List.nil_le k) id
  exact List.lt_of_le_of_lt hle (of_decide_eq_true hlt)

/-- **The median splits.**  The listing has each key of the range that has a record once and in
order.  There is a median as soon as there are two keys; then a region with these bounds is split at
it, and the halves have half of the keys each, the upper one the odd key. -/
theorem findMedianKey_splits (st : Store) (startKey endKey : Bytes) :
    (∀ k, k ∈ getKeysInRange startKey endKey st ↔
      InRange startKey endKey k ∧ ∃ ts b, st.get .write (encode k ts) = some b) ∧
    (getKeysInRange startKey endKey st).Pairwise (· < ·) ∧
    (findMedianKey startKey endKey st = none ↔ (getKeysInRange startKey endKey st).length < 2) ∧
    ∀ m, findMedianKey startKey endKey st = some m →
      startKey < m ∧ InRange startKey endKey m ∧
      ∀ (rt : RegionRouter) (regionId newRegionId : UInt64) (region : Region),
        rt.getRegion regionId = some region → region.startKey = startKey →
        region.endKey = endKey → ∃ left right,
          (rt.splitRegion regionId m newRegionId).1 = .ok (left, right) ∧
          (getKeysInRange left.startKey left.endKey st).length =
            (getKeysInRange startKey endKey st).length / 2 ∧
          (getKeysInRange right.startKey right.endKey st).length =
            ((getKeysInRange startKey endKey st).length + 1) / 2 := by
  refine ⟨fun k => ?_, getKeysInRange_sorted, ?_, fun m hm => ?_⟩
  · simp [mem_getKeysInRange, versions]
  · rw [findMedianKey]
    grind
  obtain ⟨hin, hbetween⟩ := between_findMedianKey hm
  refine ⟨hbetween.1, hin, fun rt regionId newRegionId region hregion hstart hend => ?_⟩
  subst hstart hend
  have hlower : (getKeysInRange region.startKey m st).length =
      (getKeysInRange region.startKey region.endKey st).length / 2 := by
    rw [length_getKeysInRange_filter fun _ => hbetween.lower]
    exact length_filter_lt getKeysInRange_sorted (findMedianKey_eq_some.mp hm).2
  have hsum := @Between.length_add _ _ _ st hbetween
  have hok : region.containsKey m ∧ m ≠ region.startKey := by
    refine ⟨?_, fun heq => List.lt_irrefl m (heq ▸ hbetween.1)⟩
    simpa [Region.containsKey, InRange] using hin
  refine ⟨RegionRouter.leftRegion region m, RegionRouter.rightRegion region m newRegionId, ?_,
    hlower, ?_⟩
  · rw [RegionRouter.getRegion] at hregion
    simp [RegionRouter.splitRegion, hregion, hok]
  · simp only [RegionRouter.rightRegion]
    omega

/-- Two versions of a key, in encoded order with a version of an extension between them. -/
def enclosed : Store :=
  Keyspace.empty.apply [.insert .write (encode [97] 131072) (WriteRecord.toBytes ⟨131072, .put⟩),
    .insert .write (encode [97, 255, 255, 255, 255, 255, 254] 1) (WriteRecord.toBytes ⟨1, .put⟩),
    .insert .write (encode [97] 1) (WriteRecord.toBytes ⟨1, .put⟩)]

/-- The region over all keys is split at the second of the two keys. -/
theorem findMedianKey_splits_enclosed :
    findMedianKey [] [] enclosed = some [97, 255, 255, 255, 255, 255, 254] ∧
      ∃ left right, ((RegionRouter.new.insertRegion (Region.new 1 [] [] [1])).splitRegion 1
          [97, 255, 255, 255, 255, 255, 254] 2).1 = .ok (left, right) ∧
        (getKeysInRange left.startKey left.endKey enclosed).length =
          (getKeysInRange [] [] enclosed).length / 2 ∧
        (getKeysInRange right.startKey right.endKey enclosed).length =
          ((getKeysInRange [] [] enclosed).length + 1) / 2 := by
  have hmedian : findMedianKey [] [] enclosed = some [97, 255, 255, 255, 255, 255, 254] := by
    decide +kernel
  exact ⟨hmedian, ((findMedianKey_splits enclosed [] []).2.2.2 _ hmedian).2.2
    (RegionRouter.new.insertRegion (Region.new 1 [] [] [1])) 1 2 (Region.new 1 [] [] [1])
    (by decide +kernel) rfl rfl⟩

/-! ## The statistics -/

section

variable {startKey endKey : Bytes} {st : Store}

lemma keyCount_eq : (calculateRegionStats startKey endKey st).1 =
    ((listed startKey endKey st).destutter (· ≠ ·)).length := by
  rw [calculateRegionStats, statsLoop_eq, keysLoop_none, Nat.zero_add]
  rfl

/-- Runs of the listed keys, in terms of the versions. -/
lemma unbroken_listed_iff :
    Unbroken (listed startKey endKey st) ↔ ∀ k, Contiguous (versions startKey endKey st) k := by
  have hlisted : ∀ {k t b}, InRange startKey endKey k →
      listedAs startKey endKey (encode k t, b) = some k :=
    fun hin => listedAs_eq_some.mpr ⟨hin, _, rfl⟩
  constructor
  · rintro h k t₁ t₂ k' t' ⟨hk, b₁, hb₁⟩ ⟨-, b₂, hb₂⟩ ⟨hk', b', hb'⟩ hlt hlt'
    have hsub : [(encode k t₁, b₁), (encode k' t', b'), (encode k t₂, b₂)].Sublist
        (st.range .write []) := by
      refine Keyspace.sublist_range ?_ ?_
      · simp [compare_eq_lt_iff, hlt, hlt', List.lt_trans hlt hlt']
      · simp [mem_range_nil, hb₁, hb₂, hb']
    have hlist := hsub.filterMap (listedAs startKey endKey)
    rw [List.filterMap_cons_some (hlisted hk), List.filterMap_cons_some (hlisted hk'),
      List.filterMap_cons_some (hlisted hk)] at hlist
    exact h k k' hlist
  · intro h k k' hsub
    obtain ⟨xs, hxs, heq⟩ := sublist_filterMap_origin hsub
    simp only [List.map_cons, List.map_nil, List.map_eq_cons_iff, List.map_eq_nil_iff,
      listedAs_eq_some] at heq
    obtain ⟨⟨e₁, b₁⟩, -, rfl, ⟨hin, t₁, rfl⟩, ⟨e', b'⟩, -, rfl, ⟨hin', t', rfl⟩, ⟨e₂, b₂⟩, -, rfl,
      ⟨-, t₂, rfl⟩, rfl⟩ := heq
    have hsorted := (Keyspace.range_sorted st .write []).sublist hxs
    have hmem := hxs.subset
    simp only [List.pairwise_cons, List.forall_mem_cons, compare_eq_lt_iff] at hsorted
    simp only [List.cons_subset, mem_range_nil] at hmem
    exact h k t₁ t₂ k' t' ⟨hin, b₁, hmem.1⟩ ⟨hin, b₂, hmem.2.2.1⟩ ⟨hin', b', hmem.2.1⟩
      hsorted.1.1 hsorted.2.1.1

/-- The bytes of two parts make up those of the whole. -/
lemma Between.totalBytes_add {m : Bytes} (h : Between startKey endKey m) :
    (calculateRegionStats startKey endKey st).2 =
      (calculateRegionStats startKey m st).2 + (calculateRegionStats m endKey st).2 := by
  simp only [calculateRegionStats, statsLoop_eq, Nat.zero_add]
  induction st.range .write [] with
  | nil => rfl
  | cons x items ih =>
      simp only [List.filter_cons, listedAs_eq_filter fun _ => h.lower,
        listedAs_eq_filter fun _ => h.upper] at ih ⊢
      cases hx : listedAs startKey endKey x with
      | none => simpa using ih
      | some k =>
          by_cases hk : k < m
          · simp [hk, ih, -List.not_lt]
            omega
          · simp [hk, ih, -List.not_lt]
            omega

/-- **The statistics agree with the listing exactly if the versions of each key stand together.**
Then, and only then, they count every key once, and those of two parts of a range add up. -/
theorem regionStats_agree_iff (st : Store) (startKey endKey : Bytes) :
    ((calculateRegionStats startKey endKey st).1 = (getKeysInRange startKey endKey st).length ∧
      ∀ m, startKey < m → (endKey = [] ∨ m < endKey) →
        calculateRegionStats startKey endKey st =
          calculateRegionStats startKey m st + calculateRegionStats m endKey st) ↔
    ∀ k, Contiguous (versions startKey endKey st) k := by
  have hcount : ∀ {lo hi : Bytes}, (calculateRegionStats lo hi st).1 =
      (getKeysInRange lo hi st).length ↔ Unbroken (listed lo hi st) := by
    intro lo hi
    rw [keyCount_eq, length_getKeysInRange, length_destutter_ne_iff]
  rw [← unbroken_listed_iff, ← hcount]
  refine ⟨And.left, fun h => ⟨h, fun m hlo hhi => ?_⟩⟩
  have hm : Between startKey endKey m := ⟨hlo, hhi⟩
  -- a part of the range has no key whose runs are broken either
  have hlower : Unbroken (listed startKey m st) := by
    rw [listed_eq_filter fun _ => hm.lower]
    exact (hcount.mp h).sublist List.filter_sublist
  have hupper : Unbroken (listed m endKey st) := by
    rw [listed_eq_filter fun _ => hm.upper]
    exact (hcount.mp h).sublist List.filter_sublist
  refine Prod.ext ?_ hm.totalBytes_add
  rw [Prod.fst_add, h, hcount.mpr hlower, hcount.mpr hupper]
  exact hm.length_add

/-- Of the two keys the first is counted twice, and the parts below and from the second on have one
key each. -/
theorem regionStats_overcount :
    (calculateRegionStats [] [] enclosed).1 = 3 ∧ (getKeysInRange [] [] enclosed).length = 2 ∧
      (calculateRegionStats [] [97, 255, 255, 255, 255, 255, 254] enclosed).1 = 1 ∧
      (calculateRegionStats [97, 255, 255, 255, 255, 255, 254] [] enclosed).1 = 1 := by
  decide +kernel

end

end AcidKv
