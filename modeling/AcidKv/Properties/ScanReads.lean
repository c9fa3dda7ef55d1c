import AcidKv.Properties.Clients
import AcidKv.Properties.Finality
import AcidKv.Properties.Provenance
import AcidKv.Refine.PointReads

/-!
# Scans against point reads

A scan walks over the write partition and reads every user key that it comes across.  A key without
a record at or after the place where the walk begins is not among them, although it may carry a lock
that a point read would resolve, to a value or to an error; and with a start key that is a proper
prefix of user keys the walk may begin behind their records.  So a scan can agree with the point
reads only if these keys are blank.

The reads of a scan come one after the other, and each of them may settle locks.  For the keys that
it comes across the scan returns what point reads from the same store return, as long as the locks
are steady; they are if every transaction names one primary key and has its timestamps for itself
(`steady_of_calls`).
-/

namespace AcidKv

open KeyEncoder Coordinator BigEndian

/-! ## The keys that a scan reads -/

/-- The user key of an entry of the write partition. -/
def userKey (e : Bytes) : Bytes :=
  match decode e with
  | .ok (k, _) => k
  | .error _ => []

@[simp] lemma userKey_encode (k : Bytes) (ts : UInt64) : userKey (encode k ts) = k := by
  simp [userKey]

/-- The keys that a scan reads when it walks over entries of the keys `ks`. -/
def visits (startKey endKey : Bytes) : Option Bytes → List Bytes → List Bytes
  | _, [] => []
  | last, k :: ks =>
      if startKey ≠ [] ∧ k < startKey then visits startKey endKey last ks
      else if endKey ≠ [] ∧ endKey ≤ k then []
      else if last = some k then visits startKey endKey last ks
      else k :: visits startKey endKey (some k) ks

/-- Point reads one after the other. -/
def fetchAll (readTs : UInt64) : List (Bytes × Bytes) → List Bytes →
    Handler TxnError (List (Bytes × Bytes))
  | results, [] => return results
  | results, k :: ks => do
      match ← Coordinator.get k readTs with
      | some value => fetchAll readTs (results ++ [(k, value)]) ks
      | none => fetchAll readTs results ks

/-- A scan without a limit is a series of point reads. -/
theorem scanLoop_unlimited (startKey endKey : Bytes) (r : UInt64) (last : Option Bytes)
    (results : List (Bytes × Bytes)) {items : List (Bytes × Bytes)} (h : Walk items) :
    scanLoop startKey endKey 0 r last results items =
      fetchAll r results (visits startKey endKey last (items.map fun x => userKey x.1)) := by
  induction h using Walk.induction generalizing last results with
  | nil _ => rfl
  | cons k ts b w items h _ ih =>
      simp only [scanLoop, decode_encode, List.map_cons, userKey_encode, visits]
      split_ifs
      · exact ih last results
      · rfl
      · exact ih last results
      · rw [fetchAll]
        congr 1
        funext value
        cases value with
        | none => exact ih _ _
        | some value => simpa using ih _ _

section

variable {startKey endKey : Bytes}

/-- Sorted keys are read if they are in the range, each of them once. -/
lemma mem_visits {last : Option Bytes} {ks : List Bytes} (hsorted : ks.Pairwise (· ≤ ·))
    (hlast : ∀ k', last = some k' → ∀ k ∈ ks, k' ≤ k) {k : Bytes} :
    k ∈ visits startKey endKey last ks ↔ k ∈ ks ∧ InRange startKey endKey k ∧ last ≠ some k := by
  induction ks generalizing last with
  | nil => simp [visits]
  | cons k₀ ks ih =>
      obtain ⟨hhead, htail⟩ := List.pairwise_cons.mp hsorted
      have hlast' : ∀ k', last = some k' → ∀ k ∈ ks, k' ≤ k :=
        fun k' hk' k hk => hlast k' hk' k (List.mem_cons_of_mem k₀ hk)
      have hskip : ¬ (InRange startKey endKey k₀ ∧ last ≠ some k₀) →
          (k ∈ ks ∧ InRange startKey endKey k ∧ last ≠ some k ↔
            k ∈ k₀ :: ks ∧ InRange startKey endKey k ∧ last ≠ some k) := by
        intro hout
        refine ⟨fun hk => ⟨List.mem_cons_of_mem k₀ hk.1, hk.2⟩, ?_⟩
        rintro ⟨hk, hin⟩
        rcases List.mem_cons.mp hk with rfl | hk
        · exact absurd hin hout
        · exact ⟨hk, hin⟩
      simp only [visits]
      split_ifs with hstart hend hseen
      · rw [ih htail hlast', hskip]
        exact fun hin => (inRange_iff.mp hin.1).1 hstart
      · -- all that follows is past the end
        refine ⟨fun hk => (by cases hk), ?_⟩
        rintro ⟨hk, hin, -⟩
        have hle : k₀ ≤ k := by
          rcases List.mem_cons.mp hk with rfl | hk
          · exact List.le_refl k
          · exact hhead k hk
        exact absurd ⟨hend.1, Std.le_trans hend.2 hle⟩ (inRange_iff.mp hin).2
      · rw [ih htail hlast', hskip]
        exact fun hin => hin.2 hseen
      · have hin : InRange startKey endKey k₀ := inRange_iff.mpr ⟨hstart, hend⟩
        have hnext : ∀ k', some k₀ = some k' → ∀ k ∈ ks, k' ≤ k := by
          rintro k' ⟨⟩
          exact hhead
        rw [List.mem_cons, ih htail hnext, List.mem_cons]
        constructor
        · rintro (rfl | ⟨hk, hin', -⟩)
          · exact ⟨Or.inl rfl, hin, hseen⟩
          · refine ⟨Or.inr hk, hin', fun heq => hseen ?_⟩
            -- the last key lies between, and so is the head
            have hle := hlast k heq k₀ List.mem_cons_self
            rw [heq, List.le_antisymm hle (hhead k hk)]
        · rintro ⟨rfl | hk, hin', hne⟩
          · exact Or.inl rfl
          · by_cases heq : k = k₀
            · exact Or.inl heq
            · exact Or.inr ⟨hk, hin', fun hsome => heq (Option.some.inj hsome).symm⟩

lemma nodup_visits {last : Option Bytes} {ks : List Bytes} (hsorted : ks.Pairwise (· ≤ ·))
    (hlast : ∀ k', last = some k' → ∀ k ∈ ks, k' ≤ k) :
    (visits startKey endKey last ks).Nodup := by
  induction ks generalizing last with
  | nil => simp [visits]
  | cons k₀ ks ih =>
      obtain ⟨hhead, htail⟩ := List.pairwise_cons.mp hsorted
      have hlast' : ∀ k', last = some k' → ∀ k ∈ ks, k' ≤ k :=
        fun k' hk' k hk => hlast k' hk' k (List.mem_cons_of_mem k₀ hk)
      have hnext : ∀ k', some k₀ = some k' → ∀ k ∈ ks, k' ≤ k := by
        rintro k' ⟨⟩
        exact hhead
      simp only [visits]
      split_ifs
      · exact ih htail hlast'
      · exact List.nodup_nil
      · exact ih htail hlast'
      · refine List.nodup_cons.mpr ⟨fun hmem => ?_, ih htail hnext⟩
        exact ((mem_visits htail hnext).mp hmem).2.2 rfl

lemma visits_sublist {last : Option Bytes} {ks : List Bytes} :
    (visits startKey endKey last ks).Sublist ks := by
  induction ks generalizing last with
  | nil => exact List.Sublist.refl _
  | cons k ks ih =>
      rw [visits]
      split_ifs
      · exact ih.cons k
      · exact List.nil_sublist _
      · exact ih.cons k
      · exact ih.cons_cons k

/-- Sorted keys are read in ascending order. -/
lemma visits_sorted {ks : List Bytes} (hsorted : ks.Pairwise (· ≤ ·)) :
    (visits startKey endKey none ks).Pairwise (· < ·) := by
  have hnodup := @nodup_visits startKey endKey none ks hsorted (by simp)
  refine ((hsorted.sublist visits_sublist).and hnodup).imp fun hab => ?_
  exact Std.lt_of_le_of_ne hab.1 hab.2

end

/-! ## The walk -/

/-- Where the walk of a scan begins. -/
def seekKey (startKey : Bytes) (readTs : UInt64) : Bytes :=
  if startKey = [] then [] else encode startKey readTs

/-- A scan comes across `k`: a record of `k` stands at or after the place where the walk begins. -/
def Visited (v : View) (startKey : Bytes) (readTs : UInt64) (k : Bytes) : Prop :=
  ∃ ts w, v.write k ts = some w ∧ seekKey startKey readTs ≤ encode k ts

section

variable {U : Set Bytes} {st : Store}

/-- Over prefix-free keys a walk goes through the user keys in order. -/
lemma userKeys_sorted (hU : PrefixFree U) (h : WF U st) (lo : Bytes) :
    ((st.range .write lo).map fun x => userKey x.1).Pairwise (· ≤ ·) := by
  rw [List.pairwise_map]
  refine (walk_of_wf h lo).sorted.imp_of_mem ?_
  rintro ⟨e, b⟩ ⟨e', b'⟩ hx hx' hlt
  obtain ⟨k, hk, ts, w, rfl, -⟩ := h.write e b (Keyspace.mem_range.mp hx).1
  obtain ⟨k', hk', ts', w', rfl, -⟩ := h.write e' b' (Keyspace.mem_range.mp hx').1
  simp only [userKey_encode]
  by_cases hne : k = k'
  · rw [hne]
    exact List.le_refl k'
  · exact Std.le_of_lt ((hU.encode_lt_iff hk hk' hne).mp hlt)

lemma mem_userKeys (h : WF U st) {startKey k : Bytes} {r : UInt64} :
    k ∈ ((st.range .write (seekKey startKey r)).map fun x => userKey x.1) ↔
      Visited (view st) startKey r k := by
  rw [List.mem_map]
  constructor
  · rintro ⟨⟨e, b⟩, hx, rfl⟩
    obtain ⟨hget, hle⟩ := Keyspace.mem_range.mp hx
    obtain ⟨k, -, ts, w, rfl, hw⟩ := h.write e b hget
    rw [userKey_encode]
    exact ⟨ts, w, view_write_of_get hget hw, compare_isLE_iff.mp hle⟩
  · rintro ⟨ts, w, hw, hle⟩
    obtain ⟨b, hb, -⟩ := view_write_some hw
    exact ⟨(encode k ts, b), Keyspace.mem_range.mpr ⟨hb, compare_isLE_iff.mpr hle⟩,
      userKey_encode k ts⟩

/-! ## The reads of a scan -/

/-- What a list of results says about the keys that have been read. -/
def Found (v : View) (now r : UInt64) (ks : List Bytes) (found : List (Bytes × Bytes)) : Prop :=
  (∀ k x, (k, x) ∈ found → k ∈ ks) ∧
    ∀ k ∈ ks, (∀ x, (k, x) ∈ found → PointRead v now r k (.ok (some x))) ∧
      ((∀ x, (k, x) ∉ found) → PointRead v now r k (.ok none))

lemma Found.skip {v : View} {now r : UInt64} {k : Bytes} {ks : List Bytes}
    {found : List (Bytes × Bytes)} (h : Found v now r ks found) (hnew : k ∉ ks)
    (hread : PointRead v now r k (.ok none)) : Found v now r (k :: ks) found := by
  refine ⟨fun k' x hx => List.mem_cons_of_mem k (h.1 k' x hx), ?_⟩
  rw [List.forall_mem_cons]
  exact ⟨⟨fun x hx => absurd (h.1 k x hx) hnew, fun _ => hread⟩, h.2⟩

lemma Found.cons {v : View} {now r : UInt64} {k x : Bytes} {ks : List Bytes}
    {found : List (Bytes × Bytes)} (h : Found v now r ks found) (hnew : k ∉ ks)
    (hread : PointRead v now r k (.ok (some x))) : Found v now r (k :: ks) ((k, x) :: found) := by
  have hself : ∀ y, (k, y) ∈ (k, x) :: found → y = x := by
    intro y hy
    rcases List.mem_cons.mp hy with heq | hy
    · exact (Prod.mk.inj heq).2
    · exact absurd (h.1 k y hy) hnew
  have hother : ∀ k' ∈ ks, ∀ y, (k', y) ∈ (k, x) :: found ↔ (k', y) ∈ found := by
    intro k' hk' y
    have hne : k' ≠ k := fun heq => hnew (heq ▸ hk')
    simp [hne]
  refine ⟨?_, ?_⟩
  · intro k' y hy
    rcases List.mem_cons.mp hy with heq | hy
    · rw [(Prod.mk.inj heq).1]
      exact List.mem_cons_self
    · exact List.mem_cons_of_mem k (h.1 k' y hy)
  · rw [List.forall_mem_cons]
    refine ⟨⟨fun y hy => ?_, fun hnone => absurd List.mem_cons_self (hnone x)⟩, fun k' hk' => ?_⟩
    · rw [hself y hy]
      exact hread
    · simp only [hother k' hk']
      exact h.2 k' hk'

/-- Only keys that are read are in the list. -/
lemma fetchAll_keys {r : UInt64} {clock : ℕ → UInt64} {ks : List Bytes} {st : Store}
    {results list : List (Bytes × Bytes)}
    (hrun : ((fetchAll r results ks).run clock st).1 = .ok list) {x : Bytes × Bytes}
    (hx : x ∈ list) : x ∈ results ∨ x.1 ∈ ks := by
  induction ks generalizing clock st results with
  | nil =>
      cases hrun
      exact Or.inl hx
  | cons k ks ih =>
      rw [fetchAll] at hrun
      generalize hget : (Coordinator.get k r).run clock st = res at hrun
      obtain ⟨out, st'⟩ := res
      cases out with
      | error e =>
          rw [Prog.run_bind_error hget] at hrun
          cases hrun
      | ok value =>
          obtain ⟨n, hn⟩ := Prog.run_bind hget
          rw [hn] at hrun
          cases value with
          | none => exact (ih hrun).imp_right (List.mem_cons_of_mem k)
          | some value =>
              rcases ih hrun with hmem | hmem
              · rcases List.mem_append.mp hmem with hmem | hmem
                · exact Or.inl hmem
                · rw [List.mem_singleton.mp hmem]
                  exact Or.inr List.mem_cons_self
              · exact Or.inr (List.mem_cons_of_mem k hmem)

/-- Reads that are done one after the other return what they would return on their own. -/
theorem fetchAll_found (hU : PrefixFree U) {V D : Set Bytes} {now r : UInt64} {v : View}
    (hsteady : Steady r now V v) {ks : List Bytes} (hks : ∀ k ∈ ks, k ∈ V)
    (hsorted : ks.Pairwise (· < ·)) (hD : ∀ j ∈ D, j ∈ V ∧ ∀ k ∈ ks, j < k) {st : Store}
    (h : WF U st) (hprogress : Progress r now D v (view st)) {results list : List (Bytes × Bytes)}
    (hrun : ((fetchAll r results ks).run (fun _ => now) st).1 = .ok list)
    (hreads : ∀ k ∈ ks, ∃ out, PointRead v now r k out) :
    ∃ found, list = results ++ found ∧ Found v now r ks found := by
  induction ks generalizing D st results with
  | nil =>
      cases hrun
      exact ⟨[], by simp, by simp, by simp⟩
  | cons k ks ih =>
      obtain ⟨hk, hks⟩ := List.forall_mem_cons.mp hks
      obtain ⟨hhead, hsorted⟩ := List.pairwise_cons.mp hsorted
      have hnew : k ∉ ks := fun hmem => List.lt_irrefl k (hhead k hmem)
      have hbefore : D ⊆ {j | j ∈ V ∧ j < k} :=
        fun j hj => ⟨(hD j hj).1, (hD j hj).2 k List.mem_cons_self⟩
      obtain ⟨hread, hwf, hleaves⟩ := @get_pointRead U st now r k hU h
      generalize hget : (Coordinator.get k r).run (fun _ => now) st = res at hread hwf hleaves
      obtain ⟨out, st'⟩ := res
      -- the read at its turn is the one from the beginning
      have hread₀ : PointRead v now r k out := by
        obtain ⟨out₀, hread₀⟩ := hreads k List.mem_cons_self
        obtain rfl : out = out₀ :=
          hread.unique (hprogress.pointRead hsteady hbefore hk hread₀)
        exact hread₀
      have hprogress' : Progress r now (insert k D) v (view st') := by
        rcases hleaves with hsame | hleaves
        · rw [hsame]
          exact hprogress.mono (Set.subset_insert k D)
        · exact hprogress.leaves hsteady hbefore hk hleaves
      have hD' : ∀ j ∈ insert k D, j ∈ V ∧ ∀ k' ∈ ks, j < k' := by
        rintro j (rfl | hj)
        · exact ⟨hk, hhead⟩
        · exact ⟨(hD j hj).1, fun k' hk' => (hD j hj).2 k' (List.mem_cons_of_mem _ hk')⟩
      have hrest : ∀ {results' : List (Bytes × Bytes)},
          ((fetchAll r results' ks).run (fun _ => now) st').1 = .ok list →
          ∃ found, list = results' ++ found ∧ Found v now r ks found :=
        fun hrun' => ih hks hsorted hD' hwf hprogress' hrun'
          fun k' hk' => hreads k' (List.mem_cons_of_mem k hk')
      rw [fetchAll] at hrun
      cases out with
      | error e =>
          rw [Prog.run_bind_error hget] at hrun
          cases hrun
      | ok value =>
          rw [Prog.run_bind_ok hget] at hrun
          cases value with
          | none =>
              obtain ⟨found, rfl, hfound⟩ := hrest hrun
              exact ⟨found, rfl, hfound.skip hnew hread₀⟩
          | some value =>
              obtain ⟨found, rfl, hfound⟩ := hrest hrun
              exact ⟨(k, value) :: found, by simp, hfound.cons hnew hread₀⟩

end

/-- A list of results agrees with what point reads of the keys of a range return. -/
def MatchesReads (U : Set Bytes) (st : Store) (startKey endKey : Bytes) (r now : UInt64)
    (list : List (Bytes × Bytes)) : Prop :=
  ∀ k ∈ U, InRange startKey endKey k →
    (∀ x, (k, x) ∈ list → ((Coordinator.get k r).run (fun _ => now) st).1 = .ok (some x)) ∧
    ((∀ x, (k, x) ∉ list) → ((Coordinator.get k r).run (fun _ => now) st).1 = .ok none)

/-- No lock up to the timestamp on a key of a range is alive. -/
def NoneAlive (U : Set Bytes) (v : View) (startKey endKey : Bytes) (r now : UInt64) : Prop :=
  ∀ k ∈ U, InRange startKey endKey k → ∀ l, v.lock k = some l → l.startTs ≤ r →
    ¬ HasFate v now l.primaryKey l.startTs .stuck

/-- The keys of a range that a scan does not come across are blank. -/
def OthersBlank (U : Set Bytes) (v : View) (startKey endKey : Bytes) (r now : UInt64) : Prop :=
  ∀ k ∈ U, InRange startKey endKey k → ¬ Visited v startKey r k → Blank v now r k

section

variable {U : Set Bytes} {st : Store} {startKey endKey : Bytes} {r now : UInt64}
  {list : List (Bytes × Bytes)}

/-- The keys that a scan reads. -/
lemma mem_scanVisits (hU : PrefixFree U) (h : WF U st) {k : Bytes} :
    k ∈ visits startKey endKey none
      ((st.range .write (seekKey startKey r)).map fun x => userKey x.1) ↔
    Visited (view st) startKey r k ∧ InRange startKey endKey k := by
  rw [mem_visits (userKeys_sorted hU h (seekKey startKey r)) (by simp), mem_userKeys h]
  simp

lemma scan_fetchAll (h : WF U st)
    (hscan : ((Coordinator.scan startKey endKey 0 r).run (fun _ => now) st).1 = .ok list) :
    ((fetchAll r [] (visits startKey endKey none
      ((st.range .write (seekKey startKey r)).map fun x => userKey x.1))).run (fun _ => now) st).1
      = .ok list := by
  rw [← scanLoop_unlimited startKey endKey r none [] (walk_of_wf h (seekKey startKey r))]
  exact hscan

lemma visited_of_mem_scan (hU : PrefixFree U) (h : WF U st)
    (hscan : ((Coordinator.scan startKey endKey 0 r).run (fun _ => now) st).1 = .ok list)
    {k x : Bytes} (hx : (k, x) ∈ list) : Visited (view st) startKey r k := by
  rcases fetchAll_keys (scan_fetchAll h hscan) hx with hmem | hmem
  · cases hmem
  · exact ((mem_scanVisits hU h).mp hmem).1

lemma othersBlank_of_matchesReads (hU : PrefixFree U) (h : WF U st)
    (hscan : ((Coordinator.scan startKey endKey 0 r).run (fun _ => now) st).1 = .ok list)
    (hagree : MatchesReads U st startKey endKey r now list) :
    OthersBlank U (view st) startKey endKey r now := by
  intro k hk hin hskipped
  have hnone := (hagree k hk hin).2 fun x hx => hskipped (visited_of_mem_scan hU h hscan hx)
  rw [← pointRead_none_iff, ← hnone]
  exact (get_pointRead hU h).1

/-- A list of results agrees with no read that a lock turns away. -/
lemma noneAlive_of_matchesReads (hU : PrefixFree U) (h : WF U st)
    (hagree : MatchesReads U st startKey endKey r now list) :
    NoneAlive U (view st) startKey endKey r now := by
  intro k hk hin l hl hle hstuck
  have hblocked := (get_pointRead hU h).1.unique (PointRead.blocked hl hle hstuck)
  obtain ⟨hsome, hnone⟩ := hagree k hk hin
  by_cases hlisted : ∃ x, (k, x) ∈ list
  · obtain ⟨x, hx⟩ := hlisted
    cases hblocked.symm.trans (hsome x hx)
  · cases hblocked.symm.trans (hnone fun x hx => hlisted ⟨x, hx⟩)

lemma matchesReads_of_steady (hU : PrefixFree U) (h : WF U st)
    (hscan : ((Coordinator.scan startKey endKey 0 r).run (fun _ => now) st).1 = .ok list)
    (hsteady : Steady r now {k | Visited (view st) startKey r k ∧ InRange startKey endKey k}
      (view st)) (hblank : OthersBlank U (view st) startKey endKey r now) :
    MatchesReads U st startKey endKey r now list := by
  have hget : ∀ k, PointRead (view st) now r k ((Coordinator.get k r).run (fun _ => now) st).1 :=
    fun k => (get_pointRead hU h).1
  obtain ⟨found, rfl, -, hfound⟩ := fetchAll_found hU hsteady (fun k => (mem_scanVisits hU h).mp)
    (visits_sorted (userKeys_sorted hU h _)) (fun j hj => absurd hj (Set.notMem_empty j)) h
    (Progress.refl _) (scan_fetchAll h hscan) fun k _ => ⟨_, hget k⟩
  intro k hk hin
  by_cases hvisited : Visited (view st) startKey r k
  · obtain ⟨hsome, hnone⟩ := hfound k ((mem_scanVisits hU h).mpr ⟨hvisited, hin⟩)
    exact ⟨fun x hx => (hget k).unique (hsome x hx), fun hx => (hget k).unique (hnone hx)⟩
  · refine ⟨fun x hx => absurd (visited_of_mem_scan hU h hscan hx) hvisited, fun _ => ?_⟩
    exact (hget k).unique (pointRead_none_iff.mpr (hblank k hk hin hvisited))

end

/-! ## Steady locks -/

/-- Every timestamp belongs to one transaction: two of them do not commit at the same timestamp, nor
does one commit at the start of the other. -/
def OwnTimestamps (calls : List Call) : Prop :=
  ∃ owner : UInt64 → UInt64, ∀ c ∈ calls,
    (∀ s ms p ttl, c.prewriteArgs = some (s, ms, p, ttl) → owner s = s) ∧
      ∀ s ct ks, c.commitArgs = some (s, ct, ks) → owner ct = s

lemma rollbacksAtStart_steps (es : List Event) :
    RollbacksAtStart (view (Config.init.steps es).store) := by
  have hinit : WF Set.univ Config.init.store ∧ LockOps (view Config.init.store) ∧
      RollbacksAtStart (view Config.init.store) := by
    refine ⟨wf_empty _, view_lockOps _, fun k ts s hw => ?_⟩
    simp [Config.init] at hw
  exact (@run_invariant Set.univ _ (fun _ v => LockOps v ∧ RollbacksAtStart v)
    (fun _ _ _ _ _ => trivial) (fun _ _ _ h => h)
    (fun _ _ _ _ _ _ _ _ h hmove => ⟨h.1.move hmove, h.2.move h.1 hmove⟩) _ _
    (Guarded.of_forall fun _ _ => trivial) hinit).2.2

lemma owns_steps {es : List Event} (hown : OwnTimestamps (es.map Event.call)) :
    ∃ owner, Owns owner (view (Config.init.steps es).store) := by
  obtain ⟨owner, howner⟩ := hown
  have hstart : ∀ k l, (view (Config.init.steps es).store).lock k = some l →
      owner l.startTs = l.startTs := by
    intro k l hl
    obtain ⟨c, hc, p, m, ⟨ms, ttl, hargs, -⟩, -⟩ := (locksFrom_steps es).2 k l hl
    exact (howner c hc).1 _ ms p ttl hargs
  refine ⟨owner, hstart, ?_⟩
  rintro k l q ts ⟨s, op⟩ hl hw rfl
  by_cases hop : op = .rollback
  · subst hop
    rw [rollbacksAtStart_steps es q ts _ hw]
    exact hstart k l hl
  · obtain ⟨c, hc, ks, hargs⟩ := (traced_steps es).2.committed q l.startTs ts ⟨op, hop, hw⟩
    exact (howner c hc).2 _ ts ks hargs

theorem steady_of_calls {es : List Event} (hone : OnePrimary (es.map Event.call))
    (hown : OwnTimestamps (es.map Event.call)) (r now : UInt64) (V : Set Bytes) :
    Steady r now V (view (Config.init.steps es).store) := by
  obtain ⟨owner, howns⟩ := owns_steps hown
  refine howns.steady (fun k k' l l' hl hl' hs => ?_) r now V
  exact (locksFrom_steps es).2.primary_eq hone hl hl' hs

/-! ## Scans and point reads -/

/-- In every reachable store a scan that succeeds agrees with the point reads at the same time only
if the keys that it does not come across are blank, and no lock of the range is alive.  If the locks
are steady, the first of these is enough; and so it is after every run in which each transaction
names one primary key and has its timestamps for itself. -/
theorem scan_agrees_iff (es : List Event) (U : Set Bytes) (hU : PrefixFree U)
    (hkeys : RunKeys es ⊆ U) (startKey endKey : Bytes) (r now : UInt64)
    (list : List (Bytes × Bytes))
    (hscan : ((Coordinator.scan startKey endKey 0 r).run (fun _ => now)
      (Config.init.steps es).store).1 = .ok list) :
    let st := (Config.init.steps es).store
    (MatchesReads U st startKey endKey r now list →
      OthersBlank U (view st) startKey endKey r now ∧
        NoneAlive U (view st) startKey endKey r now) ∧
    (Steady r now {k | Visited (view st) startKey r k ∧ InRange startKey endKey k} (view st) →
      OthersBlank U (view st) startKey endKey r now →
      MatchesReads U st startKey endKey r now list) ∧
    (OnePrimary (es.map Event.call) → OwnTimestamps (es.map Event.call) →
      (MatchesReads U st startKey endKey r now list ↔
        OthersBlank U (view st) startKey endKey r now)) := by
  intro st
  have h : WF U st := (wf_runKeys es).mono hkeys
  have hblank := othersBlank_of_matchesReads hU h hscan
  have hmatch := matchesReads_of_steady hU h hscan
  refine ⟨fun hagree => ⟨hblank hagree, noneAlive_of_matchesReads hU h hagree⟩, hmatch, ?_⟩
  exact fun hone hown => ⟨hblank, hmatch (steady_of_calls hone hown r now _)⟩

/-- Two keys, and a second transaction on both of which only the primary is committed. -/
def secondaryLocked : List Event :=
  [{ call := .prewrite 65536 [.put [1] [10], .put [2] [20]] [1] 3000 },
   { call := .commit 65536 65537 [[1], [2]] },
   { call := .prewrite 65538 [.put [1] [11], .put [2] [21]] [1] 3000 },
   { call := .commit 65538 65539 [[1]] }]

lemma keys_secondaryLocked {k : Bytes} (hk : k ∈ RunKeys secondaryLocked) : k = [1] ∨ k = [2] := by
  have hall : ∀ k ∈ secondaryLocked.flatMap (fun e => e.call.keys), k = [1] ∨ k = [2] := by decide
  obtain ⟨e, he, hk⟩ := hk
  exact hall k (List.mem_flatMap.mpr ⟨e, he, hk⟩)

lemma calls_secondaryLocked : OnePrimary (secondaryLocked.map Event.call) ∧
    OwnTimestamps (secondaryLocked.map Event.call) := by
  have hargs : ∀ c ∈ secondaryLocked.map Event.call,
      (∀ s ms p ttl, c.prewriteArgs = some (s, ms, p, ttl) →
        p = [1] ∧ (s = 65536 ∨ s = 65538)) ∧
      ∀ s ct ks, c.commitArgs = some (s, ct, ks) →
        s = 65536 ∧ ct = 65537 ∨ s = 65538 ∧ ct = 65539 := by
    simp only [secondaryLocked, List.map_cons, List.map_nil, List.forall_mem_cons]
    simp [Call.prewriteArgs, Call.commitArgs]
    grind
  refine ⟨?_, fun t => if t = 65537 then 65536 else if t = 65539 then 65538 else t, ?_⟩
  · rintro c hc c' hc' s p p' m m' ⟨ms, ttl, hpre, -⟩ ⟨ms', ttl', hpre', -⟩
    rw [((hargs c hc).1 s ms p ttl hpre).1, ((hargs c' hc').1 s ms' p' ttl' hpre').1]
  · intro c hc
    refine ⟨fun s ms p ttl hpre => ?_, fun s ct ks hcommit => ?_⟩
    · rcases ((hargs c hc).1 s ms p ttl hpre).2 with rfl | rfl <;> decide
    · rcases (hargs c hc).2 s ct ks hcommit with ⟨rfl, rfl⟩ | ⟨rfl, rfl⟩ <;> decide

/-- The scan comes across the old version of the locked key and rolls the lock forward. -/
theorem scan_agrees_secondaryLocked :
    ((Coordinator.scan [] [] 0 65540).run (fun _ => 0) (Config.init.steps secondaryLocked).store).1
        = .ok [([1], [11]), ([2], [21])] ∧
      ((Coordinator.get [2] 65540).run (fun _ => 0) (Config.init.steps secondaryLocked).store).1
        = .ok (some [21]) := by
  have hscan : ((Coordinator.scan [] [] 0 65540).run (fun _ => 0)
      (Config.init.steps secondaryLocked).store).1 = .ok [([1], [11]), ([2], [21])] := by decide
  have hvisited : ∀ k ∈ RunKeys secondaryLocked,
      Visited (view (Config.init.steps secondaryLocked).store) [] 65540 k := by
    intro k hk
    rcases keys_secondaryLocked hk with rfl | rfl
    · exact ⟨65537, ⟨65536, .put⟩, by decide, by decide⟩
    · exact ⟨65537, ⟨65536, .put⟩, by decide, by decide⟩
  obtain ⟨-, hsteady, -⟩ := scan_agrees_iff secondaryLocked (RunKeys secondaryLocked)
    (prefixFree_runKeys (by decide)) (fun _ hk => hk) [] [] 65540 0 _ hscan
  have hagree := hsteady (steady_of_calls calls_secondaryLocked.1 calls_secondaryLocked.2 _ _ _)
    fun k hk _ hskipped => absurd (hvisited k hk) hskipped
  have hmem : [2] ∈ RunKeys secondaryLocked :=
    ⟨_, List.mem_cons_self, List.mem_cons_of_mem _ (List.mem_cons_of_mem _ List.mem_cons_self)⟩
  exact ⟨hscan, (hagree [2] hmem ⟨Or.inl rfl, Or.inl rfl⟩).1 [21] (by decide)⟩

/-- A transaction on two new keys of which only the primary is committed. -/
def onlyLocked : List Event :=
  [{ call := .prewrite 65536 [.put [1] [10], .put [2] [20]] [1] 3000 },
   { call := .commit 65536 65537 [[1]] }]

/-- A second transaction whose locks name two primary keys, `[3]` and `[1]`. -/
def twoPrimaries : List Event :=
  [{ call := .prewrite 65536 [.put [1] [10], .put [2] [20], .put [3] [30]] [1] 3000 },
   { call := .commit 65536 65537 [[1], [2], [3]] },
   { call := .prewrite 65538 [.put [3] [31], .put [1] [11]] [3] 3000 },
   { call := .prewrite 65538 [.put [2] [21]] [1] 3000 },
   { call := .commit 65538 65539 [[3]] }]

/-- A third transaction that commits at the timestamp of the second one. -/
def sharedTimestamp : List Event :=
  [{ call := .prewrite 65536 [.put [1] [10], .put [2] [20], .put [3] [30]] [1] 3000 },
   { call := .commit 65536 65537 [[1], [2], [3]] },
   { call := .prewrite 65538 [.put [2] [21], .put [3] [31]] [2] 3000 },
   { call := .commit 65538 65540 [[2]] },
   { call := .prewrite 65541 [.put [1] [12], .put [2] [22]] [1] 3000 },
   { call := .commit 65541 65540 [[1]] }]

/-- The scan misses the key that has a lock and no record.  It also reads another value than the
point read where it has settled the lock on a primary key before, by the status at yet another key,
or with a record in the place of the one that decides. -/
theorem scan_misses_locked_key :
    (PrefixFree (RunKeys onlyLocked) ∧ InRange [1] [3] [2] ∧
      ((Coordinator.scan [1] [3] 0 65540).run (fun _ => 0) (Config.init.steps onlyLocked).store).1
        = .ok [([1], [10])] ∧
      ((Coordinator.get [2] 65540).run (fun _ => 0) (Config.init.steps onlyLocked).store).1
        = .ok (some [20])) ∧
    (PrefixFree (RunKeys twoPrimaries) ∧
      ((Coordinator.scan [] [] 0 65542).run (fun _ => 0) (Config.init.steps twoPrimaries).store).1
        = .ok [([1], [11]), ([2], [21]), ([3], [31])] ∧
      ((Coordinator.get [2] 65542).run (fun _ => 0) (Config.init.steps twoPrimaries).store).1
        = .error (.keyLocked [2])) ∧
    (PrefixFree (RunKeys sharedTimestamp) ∧
      ((Coordinator.scan [] [] 0 65542).run (fun _ => 0)
        (Config.init.steps sharedTimestamp).store).1
        = .ok [([1], [12]), ([2], [22]), ([3], [30])] ∧
      ((Coordinator.get [3] 65542).run (fun _ => 0) (Config.init.steps sharedTimestamp).store).1
        = .ok (some [31])) :=
  ⟨⟨prefixFree_runKeys (by decide), ⟨Or.inr (by decide), Or.inr (by decide)⟩, by decide, by decide⟩,
    ⟨prefixFree_runKeys (by decide), by decide, by decide⟩,
    ⟨prefixFree_runKeys (by decide), by decide, by decide⟩⟩

end AcidKv
