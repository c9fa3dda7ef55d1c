import AcidKv.Lib.Layout
import AcidKv.Properties.RegionKeys
import AcidKv.Properties.UnlockedScans

/-!
# Range scans against the layout of the write partition

In a store without locks a scan ought to return the keys of the range that have a value, in
ascending order and cut to the limit.  It walks over the write partition, where the records stand in
the order of their encoded keys; for a key and an extension of it this is not the order of the keys,
and the records of the two may even alternate.  Whether a scan with a given limit is right depends
on how the records are laid out: those of the keys that are to be returned come soon enough, those
of greater keys come later, and no key comes back before the limit is reached (`LaidOut`).  Over
prefix-free keys they always are.
-/

namespace AcidKv

open KeyEncoder Coordinator StorageEngine BigEndian

/-! ## The layout of the records -/

/-- A record of `k` stands at the place `e`, not in front of the place where a scan begins, and no
record of a key behind the end of the range stands between them. -/
structure ComesTo (v : View) (startKey endKey : Bytes) (r : UInt64) (k e : Bytes) : Prop where
  record : ∃ ts w, v.write k ts = some w ∧ e = encode k ts
  behind : seekKey startKey r ≤ e
  within : ∀ k' ts' w', v.write k' ts' = some w' → seekKey startKey r ≤ encode k' ts' →
    encode k' ts' < e → endKey = [] ∨ k' < endKey

/-- A key of the range that has a value at `r`, and no record of another key stands between the
timestamp and this version. -/
def Shown (v : View) (startKey endKey : Bytes) (r : UInt64) (k : Bytes) : Prop :=
  InRange startKey endKey k ∧ ∃ ts s, Sees v k r ts ⟨s, .put⟩

/-- `limit` keys that are shown come before the place `e`. -/
def LimitBefore (v : View) (startKey endKey : Bytes) (r : UInt64) (limit : UInt32) (e : Bytes) :
    Prop :=
  limit ≠ 0 ∧ ∃ ks : List Bytes, ks.Nodup ∧ ks.length = limit.toNat ∧
    ∀ k ∈ ks, Shown v startKey endKey r k ∧ ∃ e', ComesTo v startKey endKey r k e' ∧ e' < e

/-- The records are laid out for a scan that is to return the first `limit` keys of `full`: a scan
comes to each of these keys and its version is clear of other keys, no greater key that is shown
comes before it, and no key that is shown comes back after another key of the range, unless the
limit has been reached by then. -/
structure LaidOut (v : View) (startKey endKey : Bytes) (r : UInt64) (limit : UInt32)
    (full : List (Bytes × Bytes)) : Prop where
  clear : ∀ x ∈ cut limit full, ∃ ts w, Sees v x.1 r ts w
  reached : ∀ x ∈ cut limit full, ∃ e, ComesTo v startKey endKey r x.1 e
  ahead : ∀ x ∈ cut limit full, ∀ k e', Shown v startKey endKey r k →
    ComesTo v startKey endKey r k e' → x.1 < k → ∃ e, ComesTo v startKey endKey r x.1 e ∧ e < e'
  once : ∀ k k' e₁ e e₂, Shown v startKey endKey r k → InRange startKey endKey k' → k' ≠ k →
    ComesTo v startKey endKey r k e₁ → ComesTo v startKey endKey r k' e →
    ComesTo v startKey endKey r k e₂ → e₁ < e → e < e₂ →
    LimitBefore v startKey endKey r limit e₂

section

variable {U : Set Bytes} {st : Store} {startKey endKey k e : Bytes} {r : UInt64}

/-- The places of the records that a scan may walk over. -/
def places (st : Store) (startKey : Bytes) (r : UInt64) : List Bytes :=
  (st.range .write (seekKey startKey r)).map Prod.fst

lemma places_sorted (h : WF U st) : (places st startKey r).Pairwise (· < ·) :=
  List.pairwise_map.mpr (walk_of_wf h _).sorted

lemma mem_places (h : WF U st) : e ∈ places st startKey r ↔
    (∃ ts w, (view st).write (userKey e) ts = some w ∧ e = encode (userKey e) ts) ∧
      seekKey startKey r ≤ e := by
  rw [places, List.mem_map]
  constructor
  · rintro ⟨⟨e, b⟩, hx, rfl⟩
    obtain ⟨hget, hle⟩ := Keyspace.mem_range.mp hx
    obtain ⟨k, -, ts, w, rfl, hw⟩ := h.write e b hget
    rw [userKey_encode]
    exact ⟨⟨ts, w, view_write_of_get hget hw, rfl⟩, compare_isLE_iff.mp hle⟩
  · rintro ⟨⟨ts, w, hw, he⟩, hle⟩
    obtain ⟨b, hb, -⟩ := view_write_some hw
    rw [← he] at hb
    exact ⟨(e, b), Keyspace.mem_range.mpr ⟨hb, compare_isLE_iff.mpr hle⟩, rfl⟩

lemma comesTo_iff (h : WF U st) : ComesTo (view st) startKey endKey r k e ↔
    e ∈ places st startKey r ∧ userKey e = k ∧
      ∀ e' ∈ places st startKey r, e' < e → endKey = [] ∨ userKey e' < endKey := by
  constructor
  · rintro ⟨⟨ts, w, hw, rfl⟩, hbehind, hwithin⟩
    refine ⟨(mem_places h).mpr ⟨⟨ts, w, ?_⟩, hbehind⟩, userKey_encode k ts, fun e' he' hlt => ?_⟩
    · rw [userKey_encode]
      exact ⟨hw, rfl⟩
    · obtain ⟨⟨ts', w', hw', heq⟩, hbehind'⟩ := (mem_places h).mp he'
      rw [heq] at hbehind' hlt
      exact hwithin _ ts' w' hw' hbehind' hlt
  · rintro ⟨hmem, rfl, hwithin⟩
    obtain ⟨hrecord, hbehind⟩ := (mem_places h).mp hmem
    refine ⟨hrecord, hbehind, fun k' ts' w' hw' hbehind' hlt => ?_⟩
    have hmem' : encode k' ts' ∈ places st startKey r := by
      rw [mem_places h, userKey_encode]
      exact ⟨⟨ts', w', hw', rfl⟩, hbehind'⟩
    have hend := hwithin _ hmem' hlt
    rwa [userKey_encode] at hend

/-- With a place a scan comes to every place in front of it. -/
lemma comesTo_of_lt (h : WF U st) {e' : Bytes} (he : ComesTo (view st) startKey endKey r k e)
    (he' : e' ∈ places st startKey r) (hle : e' = e ∨ e' < e) :
    ComesTo (view st) startKey endKey r (userKey e') e' := by
  obtain ⟨-, -, hwithin⟩ := (comesTo_iff h).mp he
  refine (comesTo_iff h).mpr ⟨he', rfl, fun e'' he'' hlt => hwithin e'' he'' ?_⟩
  rcases hle with rfl | hlt'
  · exact hlt
  · exact List.lt_trans hlt hlt'

/-! ## The places where a scan finds a value -/

/-- The places where a scan finds a value. -/
def sights (st : Store) (startKey endKey : Bytes) (r : UInt64) : List Bytes :=
  (halts startKey endKey none (places st startKey r)).filter
    fun e => (seenValue st (userKey e) r).isSome

lemma sights_sorted (h : WF U st) : (sights st startKey endKey r).Pairwise (· < ·) :=
  ((places_sorted h).sublist halts_sublist).sublist List.filter_sublist

lemma map_fst_findings {ks : List Bytes} : (findings st r ks).map Prod.fst =
    ks.filter fun k => (seenValue st k r).isSome := by
  induction ks with
  | nil => rfl
  | cons k ks ih =>
      rw [findings] at ih ⊢
      cases hvalue : seenValue st k r with
      | none => simp [hvalue, ih]
      | some x => simp [hvalue, ih]

lemma map_userKey_sights : (sights st startKey endKey r).map userKey =
    (findings st r (scanned st startKey endKey r)).map Prod.fst := by
  have hscanned : scanned st startKey endKey r =
      (halts startKey endKey none (places st startKey r)).map userKey := by
    rw [map_userKey_halts, places, List.map_map]
    rfl
  rw [map_fst_findings, hscanned, List.filter_map]
  rfl

lemma shown_iff (h : WF U st) (hdata : AllValued (view st)) :
    Shown (view st) startKey endKey r k ↔
      InRange startKey endKey k ∧ (seenValue st k r).isSome := by
  refine and_congr_right fun _ => ?_
  rw [Option.isSome_iff_exists]
  constructor
  · rintro ⟨ts, s, hsees⟩
    obtain ⟨x, hx⟩ := hdata k ts s hsees.write
    exact ⟨x, (seenValue_eq_some_iff h).mpr ⟨ts, s, hsees, hx⟩⟩
  · rintro ⟨x, hx⟩
    obtain ⟨ts, s, hsees, -⟩ := (seenValue_eq_some_iff h).mp hx
    exact ⟨ts, s, hsees⟩

lemma mem_sights (h : WF U st) (hdata : AllValued (view st)) :
    e ∈ sights st startKey endKey r ↔ Shown (view st) startKey endKey r (userKey e) ∧
      ComesTo (view st) startKey endKey r (userKey e) e ∧
      ∀ e' ∈ places st startKey r, e' < e → userKey e' = userKey e →
        Parted startKey endKey ((places st startKey r).filter (e' < ·)) e := by
  rw [sights, List.mem_filter, mem_halts (places_sorted h), shown_iff h hdata, comesTo_iff h]
  constructor
  · rintro ⟨hhalts, hvalue⟩
    exact ⟨⟨hhalts.inRange, hvalue⟩, ⟨hhalts.mem, rfl, hhalts.within⟩, hhalts.fresh⟩
  · rintro ⟨⟨hin, hvalue⟩, ⟨hmem, -, hwithin⟩, hfresh⟩
    exact ⟨⟨hmem, hin, hwithin, hfresh, nofun⟩, hvalue⟩

/-- The first place of a key that is shown. -/
lemma sight_of_comesTo (h : WF U st) (hdata : AllValued (view st))
    (hshown : Shown (view st) startKey endKey r k) (he : ComesTo (view st) startKey endKey r k e) :
    ∃ p ∈ sights st startKey endKey r, userKey p = k ∧ (p = e ∨ p < e) := by
  obtain ⟨hmem, hkey, -⟩ := (comesTo_iff h).mp he
  obtain ⟨p, hp, rfl, hle, hfirst⟩ := exists_first (p := fun e' => userKey e' = k)
    (places_sorted h) hmem hkey
  refine ⟨p, (mem_sights h hdata).mpr ⟨hshown, comesTo_of_lt h he hp hle, ?_⟩, rfl, hle⟩
  exact fun e' he' hlt heq => absurd heq (hfirst e' he' hlt)

/-- The first place of a key that is shown, behind a record of another key of the range. -/
lemma sight_behind (h : WF U st) (hdata : AllValued (view st)) {k' e' : Bytes}
    (hshown : Shown (view st) startKey endKey r k) (he : ComesTo (view st) startKey endKey r k e)
    (hin : InRange startKey endKey k') (hne : k' ≠ k)
    (he' : ComesTo (view st) startKey endKey r k' e') (hlt : e' < e) :
    ∃ q ∈ sights st startKey endKey r, userKey q = k ∧ e' < q ∧ (q = e ∨ q < e) := by
  obtain ⟨hmem, hkey, -⟩ := (comesTo_iff h).mp he
  obtain ⟨hmem', hkey', -⟩ := (comesTo_iff h).mp he'
  obtain ⟨q, hq, ⟨rfl, hbehind⟩, hle, hfirst⟩ := exists_first
    (p := fun e'' => userKey e'' = k ∧ e' < e'') (places_sorted h) hmem ⟨hkey, hlt⟩
  refine ⟨q, (mem_sights h hdata).mpr ⟨hshown, comesTo_of_lt h he hq hle, ?_⟩, rfl, hbehind, hle⟩
  -- an earlier record of the key stands in front of the other key
  intro e₁ he₁ hlt₁ heq
  have hfront : e₁ < e' := by
    have hnot : ¬ e' < e₁ := fun hbehind₁ => hfirst e₁ he₁ hlt₁ ⟨heq, hbehind₁⟩
    refine Std.lt_of_le_of_ne (List.not_lt.mp hnot) ?_
    rintro rfl
    exact hne (hkey'.symm.trans heq)
  refine ⟨e', List.mem_filter.mpr ⟨hmem', decide_eq_true hfront⟩, hbehind, ?_, ?_⟩
  · rwa [hkey']
  · rwa [hkey']

/-! ## Scans -/

lemma lt_of_or_lt {a b c : Bytes} (hab : a = b ∨ a < b) (hbc : b < c) : a < c := by
  rcases hab with rfl | hab
  · exact hbc
  · exact List.lt_trans hab hbc

lemma LimitBefore.mono {v : View} {limit : UInt32} {e' : Bytes}
    (h : LimitBefore v startKey endKey r limit e) (hle : e = e' ∨ e < e') :
    LimitBefore v startKey endKey r limit e' := by
  rcases hle with rfl | hlt
  · exact h
  · obtain ⟨hlimit, ks, hnodup, hlen, hks⟩ := h
    refine ⟨hlimit, ks, hnodup, hlen, fun k hk => ?_⟩
    obtain ⟨hshown, e₁, he₁, hlt₁⟩ := hks k hk
    exact ⟨hshown, e₁, he₁, List.lt_trans hlt₁ hlt⟩

/-- With a limit of zero there is always room for another key. -/
lemma filled_iff_limitBefore (h : WF U st) (hdata : AllValued (view st)) {limit : UInt32} {n : ℕ}
    (hzero : limit = 0 → (sights st startKey endKey r).length < n)
    (hpos : limit ≠ 0 → n = limit.toNat) (e : Bytes) :
    Filled (sights st startKey endKey r) userKey n e ↔
      LimitBefore (view st) startKey endKey r limit e := by
  constructor
  · rintro ⟨ks, hnodup, hlen, hks⟩
    have hlimit : limit ≠ 0 := by
      intro heq
      have hsub : ks ⊆ (sights st startKey endKey r).map userKey := by
        intro k hk
        obtain ⟨q, hq, -, rfl⟩ := hks k hk
        exact List.mem_map_of_mem hq
      have hle := (List.subperm_of_subset hnodup hsub).length_le
      rw [List.length_map] at hle
      exact absurd (hzero heq) (by omega)
    refine ⟨hlimit, ks, hnodup, hlen.trans (hpos hlimit), fun k hk => ?_⟩
    obtain ⟨q, hq, hlt, rfl⟩ := hks k hk
    obtain ⟨hshown, hcomes, -⟩ := (mem_sights h hdata).mp hq
    exact ⟨hshown, q, hcomes, hlt⟩
  · rintro ⟨hlimit, ks, hnodup, hlen, hks⟩
    refine ⟨ks, hnodup, hlen.trans (hpos hlimit).symm, fun k hk => ?_⟩
    obtain ⟨hshown, e', he', hlt⟩ := hks k hk
    obtain ⟨p, hp, hkey, hle⟩ := sight_of_comesTo h hdata hshown he'
    exact ⟨p, hp, lt_of_or_lt hle hlt, hkey⟩

/-- What stands at a place where a value is found. -/
lemma comesTo_of_mem_sights (h : WF U st) (hdata : AllValued (view st)) {p : Bytes}
    (hp : p ∈ sights st startKey endKey r) (hkey : userKey p = k) :
    Shown (view st) startKey endKey r k ∧ ComesTo (view st) startKey endKey r k p := by
  obtain ⟨hshown, hcomes, -⟩ := (mem_sights h hdata).mp hp
  rw [hkey] at hshown hcomes
  exact ⟨hshown, hcomes⟩

section

variable {limit : UInt32} {full : List (Bytes × Bytes)} {n : ℕ}

lemma mem_take_keys (hcut : cut limit full = full.take n) :
    k ∈ (full.map Prod.fst).take n ↔ ∃ x ∈ cut limit full, x.1 = k := by
  rw [← List.map_take, ← hcut, List.mem_map]

/-- A key that is to be returned is shown, if its version is clear. -/
lemma shown_of_clear (hfull : RangeAt (view st) startKey endKey r full)
    (hlaid : LaidOut (view st) startKey endKey r limit full) {x : Bytes × Bytes}
    (hx : x ∈ cut limit full) : Shown (view st) startKey endKey r x.1 := by
  obtain ⟨ts, w, hsees⟩ := hlaid.clear x hx
  obtain ⟨hin, ts', s, hcurrent, -⟩ := (hfull.mem x.1 x.2).mp (cut_subset hx)
  obtain ⟨rfl, rfl⟩ := hsees.toLatest.unique hcurrent
  exact ⟨hin, ts, s, hsees⟩

lemma laidOut_of_readsOff (h : WF U st) (hdata : AllValued (view st))
    (hcut : cut limit full = full.take n)
    (hfilled : ∀ e, Filled (sights st startKey endKey r) userKey n e →
      LimitBefore (view st) startKey endKey r limit e)
    (hreads : ReadsOff (sights st startKey endKey r) userKey (full.map Prod.fst) n) :
    LaidOut (view st) startKey endKey r limit full := by
  have hmem : ∀ x ∈ cut limit full, x.1 ∈ (full.map Prod.fst).take n :=
    fun x hx => (mem_take_keys hcut).mpr ⟨x, hx, rfl⟩
  refine ⟨fun x hx => ?_, fun x hx => ?_, fun x hx k e' hshown he' hlt => ?_,
    fun k k' e₁ e e₂ hshown hin hne he₁ he he₂ hlt₁ hlt₂ => ?_⟩
  · obtain ⟨p, hp, hkey⟩ := hreads.placed x.1 (hmem x hx)
    obtain ⟨⟨-, ts, s, hsees⟩, -⟩ := comesTo_of_mem_sights h hdata hp hkey
    exact ⟨ts, _, hsees⟩
  · obtain ⟨p, hp, hkey⟩ := hreads.placed x.1 (hmem x hx)
    exact ⟨p, (comesTo_of_mem_sights h hdata hp hkey).2⟩
  · obtain ⟨p', hp', rfl, hle⟩ := sight_of_comesTo h hdata hshown he'
    obtain ⟨p, hp, hlt', hkey⟩ := hreads.ahead x.1 (hmem x hx) p' hp' hlt
    refine ⟨p, (comesTo_of_mem_sights h hdata hp hkey).2, ?_⟩
    rcases hle with rfl | hlt''
    · exact hlt'
    · exact List.lt_trans hlt' hlt''
  · obtain ⟨p, hp, hkey, hle⟩ := sight_of_comesTo h hdata hshown he₁
    obtain ⟨q, hq, rfl, hbehind, hle₂⟩ := sight_behind h hdata hshown he₂ hin hne he hlt₂
    have hlt : p < q := List.lt_trans (lt_of_or_lt hle hlt₁) hbehind
    exact (hfilled q (hreads.once p hp q hq hlt hkey)).mono hle₂

lemma readsOff_of_laidOut (h : WF U st) (hdata : AllValued (view st))
    (hfull : RangeAt (view st) startKey endKey r full) (hcut : cut limit full = full.take n)
    (hfilled : ∀ e, LimitBefore (view st) startKey endKey r limit e →
      Filled (sights st startKey endKey r) userKey n e)
    (hlaid : LaidOut (view st) startKey endKey r limit full) :
    ReadsOff (sights st startKey endKey r) userKey (full.map Prod.fst) n := by
  refine ⟨fun k hk => ?_, fun k hk p' hp' hlt => ?_, fun p hp q hq hlt hkey => ?_⟩
  · obtain ⟨x, hx, rfl⟩ := (mem_take_keys hcut).mp hk
    obtain ⟨e, he⟩ := hlaid.reached x hx
    obtain ⟨p, hp, hkey, -⟩ := sight_of_comesTo h hdata (shown_of_clear hfull hlaid hx) he
    exact ⟨p, hp, hkey⟩
  · obtain ⟨x, hx, rfl⟩ := (mem_take_keys hcut).mp hk
    obtain ⟨hshown', hcomes'⟩ := comesTo_of_mem_sights h hdata hp' rfl
    obtain ⟨e, he, hlt'⟩ := hlaid.ahead x hx _ p' hshown' hcomes' hlt
    obtain ⟨p, hp, hkey, hle⟩ := sight_of_comesTo h hdata (shown_of_clear hfull hlaid hx) he
    exact ⟨p, hp, lt_of_or_lt hle hlt', hkey⟩
  · -- a key that comes again has been parted from its first place
    obtain ⟨hshown', hcomes', hfresh⟩ := (mem_sights h hdata).mp hq
    obtain ⟨-, hcomes⟩ := comesTo_of_mem_sights h hdata hp hkey
    obtain ⟨hmem', -, -⟩ := (comesTo_iff h).mp hcomes
    obtain ⟨e, he, hlt', hin, hne⟩ := hfresh p hmem' hlt hkey
    obtain ⟨he, hlt''⟩ := List.mem_filter.mp he
    exact hfilled q (hlaid.once _ _ p e q hshown' hin hne hcomes
      (comesTo_of_lt h hcomes' he (Or.inr hlt')) hcomes' (of_decide_eq_true hlt'') hlt')

/-- The keys are read off as they should be exactly if the records are laid out for it. -/
lemma readsOff_iff_laidOut (h : WF U st) (hdata : AllValued (view st))
    (hfull : RangeAt (view st) startKey endKey r full) (hcut : cut limit full = full.take n)
    (hzero : limit = 0 → (sights st startKey endKey r).length < n)
    (hpos : limit ≠ 0 → n = limit.toNat) :
    ReadsOff (sights st startKey endKey r) userKey (full.map Prod.fst) n ↔
      LaidOut (view st) startKey endKey r limit full :=
  have hfilled := filled_iff_limitBefore h hdata hzero hpos
  ⟨laidOut_of_readsOff h hdata hcut fun e => (hfilled e).mp,
    readsOff_of_laidOut h hdata hfull hcut fun e => (hfilled e).mpr⟩

end

end

lemma HasValue.unique {v : View} {k x y : Bytes} {r : UInt64} (hx : HasValue v k r x)
    (hy : HasValue v k r y) : x = y := by
  obtain ⟨ts, s, hcurrent, hdata⟩ := hx
  obtain ⟨ts', s', hcurrent', hdata'⟩ := hy
  obtain ⟨-, heq⟩ := hcurrent.unique hcurrent'
  rw [(WriteRecord.mk.inj heq).1, hdata'] at hdata
  exact (Option.some.inj hdata).symm

/-- Every range has its list. -/
lemma exists_rangeAt (st : Store) (startKey endKey : Bytes) (r : UInt64) :
    ∃ full, RangeAt (view st) startKey endKey r full := by
  classical
  have hvalues : ∀ k, ∃ value : Option Bytes, ∀ x, value = some x ↔ HasValue (view st) k r x := by
    intro k
    by_cases hk : ∃ x, HasValue (view st) k r x
    · obtain ⟨x, hx⟩ := hk
      exact ⟨some x, fun y => ⟨fun heq => Option.some.inj heq ▸ hx, fun hy => by rw [hx.unique hy]⟩⟩
    · exact ⟨none, fun x => ⟨nofun, fun hx => absurd ⟨x, hx⟩ hk⟩⟩
  choose value hvalue using hvalues
  refine ⟨(getKeysInRange startKey endKey st).filterMap fun k => (value k).map fun x => (k, x),
    ?_, ?_⟩
  · rw [List.pairwise_filterMap]
    refine getKeysInRange_sorted.imp fun {a b} hlt y hy z hz => ?_
    simp only [Option.map_eq_some_iff] at hy hz
    obtain ⟨x, -, rfl⟩ := hy
    obtain ⟨x', -, rfl⟩ := hz
    exact hlt
  · intro k x
    have hmem : (k, x) ∈ (getKeysInRange startKey endKey st).filterMap
        (fun k => (value k).map fun x => (k, x)) ↔
        k ∈ getKeysInRange startKey endKey st ∧ value k = some x := by simp
    rw [hmem, hvalue, mem_getKeysInRange]
    constructor
    · rintro ⟨⟨ts, hin, -⟩, hx⟩
      exact ⟨hin, hx⟩
    · rintro ⟨hin, hx⟩
      refine ⟨?_, hx⟩
      obtain ⟨ts, s, hcurrent, -⟩ := hx
      obtain ⟨b, hb, -⟩ := view_write_some hcurrent.write
      exact ⟨ts, hin, b, hb⟩

/-- Lists of pairs with the same first components, which determine the second ones. -/
lemma eq_of_map_fst_eq {l l' : List (Bytes × Bytes)} (heq : l.map Prod.fst = l'.map Prod.fst)
    (h : ∀ x ∈ l, ∀ y ∈ l', x.1 = y.1 → x = y) : l = l' := by
  induction l generalizing l' with
  | nil => rw [List.map_eq_nil_iff.mp heq.symm]
  | cons x l ih =>
      obtain ⟨y, l', rfl, hxy, hrest⟩ := List.map_eq_cons_iff.mp heq.symm
      rw [h x List.mem_cons_self y List.mem_cons_self hxy.symm, ih hrest.symm fun x hx y hy =>
        h x (List.mem_cons_of_mem _ hx) y (List.mem_cons_of_mem _ hy)]

/-- A limit is a number of results, for lists of bounded length. -/
lemma exists_cut_eq_take (limit : UInt32) (bound : ℕ) :
    ∃ n, (limit = 0 → bound < n) ∧ (limit ≠ 0 → n = limit.toNat) ∧
      ∀ l, l.length ≤ bound → cut limit l = l.take n := by
  by_cases hlimit : limit = 0
  · refine ⟨bound + 1, fun _ => Nat.lt_succ_self bound, absurd hlimit, fun l hl => ?_⟩
    rw [cut, if_pos hlimit, List.take_of_length_le (by omega)]
  · refine ⟨limit.toNat, fun h => absurd h hlimit, fun _ => rfl, fun l _ => ?_⟩
    rw [cut, if_neg hlimit]

/-- **Scans without locks.**  A scan with a limit returns the range as it is at the timestamp, cut
to the limit, exactly if the records are laid out for it. -/
theorem scan_eq_range_iff (st : Store) (hwf : WF Set.univ st) (hlock : ∀ k, st.get .lock k = none)
    (hdata : AllValued (view st)) (startKey endKey : Bytes) (r : UInt64) (clock : ℕ → UInt64) :
    ∃ full, RangeAt (view st) startKey endKey r full ∧ ∀ limit,
      ((Coordinator.scan startKey endKey limit r).run clock st = (.ok (cut limit full), st) ↔
        LaidOut (view st) startKey endKey r limit full) := by
  obtain ⟨full, hfull⟩ := exists_rangeAt st startKey endKey r
  refine ⟨full, hfull, fun limit => ?_⟩
  have hlen : (sights st startKey endKey r).length =
      (findings st r (scanned st startKey endKey r)).length := by
    rw [← List.length_map userKey, map_userKey_sights, List.length_map]
  obtain ⟨n, hzero, hpos, htake⟩ := exists_cut_eq_take limit
    ((sights st startKey endKey r).length + full.length)
  have hkeys : ∀ p ∈ sights st startKey endKey r, userKey p ∈ full.map Prod.fst := by
    intro p hp
    obtain ⟨⟨hin, ts, s, hsees⟩, -⟩ := (mem_sights hwf hdata).mp hp
    obtain ⟨x, hx⟩ := hdata _ ts s hsees.write
    exact List.mem_map_of_mem (f := Prod.fst)
      ((hfull.mem (userKey p) x).mpr ⟨hin, ts, s, hsees.toLatest, hx⟩)
  rw [scan_run hwf hlock hdata, ← readsOff_iff_laidOut hwf hdata hfull (htake full (by omega))
    (fun h => by have := hzero h; omega) hpos,
    ← take_map_eq_iff (sights_sorted hwf) (List.pairwise_map.mpr hfull.sorted) hkeys,
    map_userKey_sights, ← List.map_take, ← List.map_take, ← htake full (by omega),
    ← htake _ (by omega), Prod.mk.injEq, Except.ok.injEq, and_iff_left rfl]
  constructor
  · intro heq
    rw [heq]
  · refine fun heq => eq_of_map_fst_eq heq ?_
    rintro ⟨k, x⟩ hx ⟨k', y⟩ hy rfl
    have hx' := seenValue_hasValue hwf (mem_findings.mp (cut_subset hx)).2
    rw [hx'.unique ((hfull.mem _ y).mp (cut_subset hy)).2]

/-! ## Prefix-free keys -/

/-- A scan that does not start at a proper prefix of a key begins in front of the versions that it
is to read. -/
lemma seekKey_le_encode {U : Set Bytes} {startKey endKey k : Bytes} {r ts : UInt64}
    (hstart : startKey = [] ∨ ∀ k ∈ U, startKey <+: k → startKey = k) (hk : k ∈ U)
    (hin : InRange startKey endKey k) (hts : ts ≤ r) : seekKey startKey r ≤ encode k ts := by
  rw [seekKey]
  split_ifs with hnil
  · exact List.nil_le _
  · by_cases heq : startKey = k
    · subst heq
      rwa [← List.not_lt, encode_lt_encode_same, UInt64.not_lt]
    · have hlt : startKey < k := Std.lt_of_le_of_ne (hin.1.resolve_left hnil) heq
      have hpre : ¬ startKey <+: k := fun hpre => heq (hstart.resolve_left hnil k hk hpre)
      have hpre' : ¬ k <+: startKey := fun hpre' =>
        List.lt_asymm hlt (lt_of_extends hpre' (Ne.symm heq))
      exact Std.le_of_lt ((encode_lt_encode_of_unrelated hpre hpre').mpr hlt)

/-- Over prefix-free keys the records are laid out for every scan that does not start at a proper
prefix of a key. -/
theorem laidOut_of_prefixFree {U : Set Bytes} (hU : PrefixFree U) {st : Store} (h : WF U st)
    {startKey endKey : Bytes} {r : UInt64}
    (hstart : startKey = [] ∨ ∀ k ∈ U, startKey <+: k → startKey = k) {limit : UInt32}
    {full : List (Bytes × Bytes)} (hfull : RangeAt (view st) startKey endKey r full) :
    LaidOut (view st) startKey endKey r limit full := by
  have hcurrent : ∀ x ∈ cut limit full, InRange startKey endKey x.1 ∧
      ∃ ts s, Current (view st) x.1 r ts ⟨s, .put⟩ := by
    rintro ⟨k, x⟩ hx
    obtain ⟨hin, ts, s, hcurrent, -⟩ := (hfull.mem k x).mp (cut_subset hx)
    exact ⟨hin, ts, s, hcurrent⟩
  have hreached : ∀ x ∈ cut limit full, ∃ e, ComesTo (view st) startKey endKey r x.1 e := by
    intro x hx
    obtain ⟨hin, ts, s, hcurrent⟩ := hcurrent x hx
    have hmem := h.write_mem hcurrent.write
    refine ⟨_, ⟨ts, _, hcurrent.write, rfl⟩, ?_, fun k' ts' w' hw' _ hlt => hin.2.imp_right ?_⟩
    · exact seekKey_le_encode hstart hmem hin hcurrent.le
    · by_cases heq : k' = x.1
      · rw [heq]
        exact id
      · exact List.lt_trans ((hU.encode_lt_iff (h.write_mem hw') hmem heq).mp hlt)
  refine ⟨fun x hx => ?_, hreached, fun x hx k e' _ he' hlt => ?_, ?_⟩
  · obtain ⟨-, ts, s, hcurrent⟩ := hcurrent x hx
    exact ⟨ts, _, (hit_iff_latest hU h).mpr hcurrent⟩
  · obtain ⟨e, he⟩ := hreached x hx
    obtain ⟨ts, w, hw, rfl⟩ := he.record
    obtain ⟨ts', w', hw', rfl⟩ := he'.record
    refine ⟨_, he, (hU.encode_lt_iff (h.write_mem hw) (h.write_mem hw') ?_).mpr hlt⟩
    exact Std.ne_of_lt hlt
  · -- the records of a key stand together
    rintro k k' e₁ e e₂ - - hne he₁ he he₂ hlt₁ hlt₂
    obtain ⟨ts₁, w₁, hw₁, rfl⟩ := he₁.record
    obtain ⟨ts, w, hw, rfl⟩ := he.record
    obtain ⟨ts₂, w₂, hw₂, rfl⟩ := he₂.record
    exact absurd (hU.eq_of_between (h.write_mem hw₁) (h.write_mem hw) (Std.le_of_lt hlt₁) hlt₂) hne

/-- The records of a store can be checked for their values one by one. -/
def entryValued (st : Store) (x : Bytes × Bytes) : Bool :=
  match decode x.1, WriteRecord.fromBytes x.2 with
  | .ok (k, _), some ⟨s, .put⟩ => ((view st).data k s).isSome
  | _, _ => true

lemma allValued_of_entries {st : Store} (h : ∀ x ∈ st.range .write [], entryValued st x) :
    AllValued (view st) := by
  intro k ts s hw
  obtain ⟨b, hb, hdec⟩ := view_write_some hw
  have hx := h (encode k ts, b) (mem_range_nil.mpr hb)
  simpa [entryValued, hdec, Option.isSome_iff_exists] using hx

/-- Two keys of one transaction, both committed. -/
def twoCommitted : List Event :=
  [{ call := .prewrite 65536 [.put [1] [10], .put [2] [20]] [1] 3000 },
   { call := .commit 65536 65537 [[1], [2]] }]

/-- Both are returned in order, and the first one only with a limit of one. -/
theorem scan_eq_range_twoCommitted :
    ∃ full, RangeAt (view (Config.init.steps twoCommitted).store) [1] [3] 65540 full ∧ ∀ limit,
      (Coordinator.scan [1] [3] limit 65540).run (fun _ => 0) (Config.init.steps twoCommitted).store
        = (.ok (cut limit full), (Config.init.steps twoCommitted).store) := by
  have hU : PrefixFree (RunKeys twoCommitted) := prefixFree_runKeys (by decide)
  have hstart : ∀ k ∈ RunKeys twoCommitted, [1] <+: k → [1] = k := by
    have hall : ∀ e ∈ twoCommitted, ∀ k ∈ e.call.keys, [1] <+: k → [1] = k := by decide
    rintro k ⟨e, he, hk⟩
    exact hall e he k hk
  obtain ⟨full, hfull, hscan⟩ := scan_eq_range_iff _
    ((wf_runKeys twoCommitted).mono (Set.subset_univ _)) (unlocked_of_runKeys (by decide))
    (allValued_of_entries (by decide)) [1] [3] 65540 (fun _ => 0)
  exact ⟨full, hfull, fun limit => (hscan limit).mpr
    (laidOut_of_prefixFree hU (wf_runKeys twoCommitted) (Or.inr hstart) hfull)⟩

/-- `user10` comes before `user1`, both in a scan of all keys and as the end of a range that only
`user1` is in. -/
theorem scan_misordered :
    (∀ k, (Config.init.steps bothCommitted).store.get .lock k = none) ∧
      WF Set.univ (Config.init.steps bothCommitted).store ∧
      AllValued (view (Config.init.steps bothCommitted).store) ∧
      HasValue (view (Config.init.steps bothCommitted).store) user1 131073 [1] ∧
      InRange [] user10 user1 ∧
      ((Coordinator.scan [] [] 0 131073).run (fun _ => 0)
        (Config.init.steps bothCommitted).store).1 = .ok [(user10, [2]), (user1, [1])] ∧
      ((Coordinator.scan [] user10 0 131073).run (fun _ => 0)
        (Config.init.steps bothCommitted).store).1 = .ok [] := by
  have hwf : WF Set.univ (Config.init.steps bothCommitted).store :=
    (wf_runKeys bothCommitted).mono (Set.subset_univ _)
  have hsees : Sees (view (Config.init.steps bothCommitted).store) user1 131073 65537
      ⟨65536, .put⟩ := (findVersion_walk hwf).mp (by decide)
  exact ⟨unlocked_of_runKeys (by decide), hwf, allValued_of_entries (by decide),
    ⟨65537, 65536, hsees.toLatest, by decide⟩, ⟨Or.inl rfl, Or.inr (by decide)⟩, by decide,
    by decide⟩

end AcidKv
