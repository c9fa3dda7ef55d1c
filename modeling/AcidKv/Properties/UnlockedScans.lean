import AcidKv.Properties.ScanReads
import AcidKv.Properties.VersionReads

/-!
# Scans of a store without locks

In a store without locks a scan leaves everything as it is, so what it returns is a matter of the
keys that it reads, cut to the limit (`scan_run`).  It reads at an entry of the write partition that
is in the range, unless an entry of a key past the end has come before it or the key is the one that
was read last (`mem_halts`).
-/

namespace AcidKv

open KeyEncoder Coordinator

/-! ## Ranges -/

/-- The value of `k` at `r`. -/
def HasValue (v : View) (k : Bytes) (r : UInt64) (x : Bytes) : Prop :=
  ∃ ts s, Current v k r ts ⟨s, .put⟩ ∧ v.data k s = some x

/-- Every Put record has its value. -/
def AllValued (v : View) : Prop :=
  ∀ k ts s, v.write k ts = some ⟨s, .put⟩ → ∃ x, v.data k s = some x

/-- The keys of a range that have a value at `r`, in ascending order and with their values. -/
structure RangeAt (v : View) (startKey endKey : Bytes) (r : UInt64) (full : List (Bytes × Bytes)) :
    Prop where
  sorted : full.Pairwise fun a b => a.1 < b.1
  mem : ∀ k x, (k, x) ∈ full ↔ InRange startKey endKey k ∧ HasValue v k r x

/-- The first `limit` of a list, or all of it. -/
def cut (limit : UInt32) (l : List (Bytes × Bytes)) : List (Bytes × Bytes) :=
  if limit = 0 then l else l.take limit.toNat

lemma cut_subset {limit : UInt32} {l : List (Bytes × Bytes)} : cut limit l ⊆ l := by
  rw [cut]
  split_ifs
  · exact List.Subset.refl l
  · exact List.take_subset _ l

/-- There is room for another result. -/
def Room (limit : UInt32) (results : List (Bytes × Bytes)) : Prop :=
  limit = 0 ∨ results.length < limit.toNat

lemma Room.cut_eq {limit : UInt32} {results : List (Bytes × Bytes)} (h : Room limit results) :
    cut limit results = results := by
  rw [cut]
  split_ifs with hlimit
  · rfl
  · exact List.take_of_length_le (h.resolve_left hlimit).le

/-- A result that fills the last place. -/
lemma Room.cut_filled {limit : UInt32} {results rest : List (Bytes × Bytes)} {x : Bytes × Bytes}
    (h : Room limit results) (hpos : 0 < limit) (hfull : limit.toNat ≤ (results ++ [x]).length) :
    cut limit (results ++ x :: rest) = results ++ [x] := by
  have hlimit : limit ≠ 0 := fun heq => UInt32.lt_irrefl 0 (heq ▸ hpos)
  have hlen : limit.toNat = (results ++ [x]).length := by
    have hroom := h.resolve_left hlimit
    simp only [List.length_append, List.length_singleton] at hfull ⊢
    omega
  rw [cut, if_neg hlimit, List.append_cons, hlen, List.take_left]

/-- The test of the loop. -/
lemma room_of_not_full {limit : UInt32} {results : List (Bytes × Bytes)}
    (hfull : ¬ (0 < limit ∧ limit.toNat ≤ results.length)) : Room limit results := by
  by_cases hlimit : limit = 0
  · exact Or.inl hlimit
  · refine Or.inr (Nat.lt_of_not_le fun hle => hfull ⟨?_, hle⟩)
    rw [UInt32.lt_iff_toNat_lt]
    exact Nat.pos_of_ne_zero fun hzero => hlimit (UInt32.toNat_inj.mp hzero)

/-! ## Reads in a store without locks -/

/-- The keys that a scan reads, in order. -/
def scanned (st : Store) (startKey endKey : Bytes) (r : UInt64) : List Bytes :=
  visits startKey endKey none ((st.range .write (seekKey startKey r)).map fun x => userKey x.1)

/-- What a read of an unlocked key returns. -/
def seenValue (st : Store) (k : Bytes) (r : UInt64) : Option Bytes :=
  match findVersion k (fun w => w.op ≠ .rollback) (st.range .write (encode k r)) with
  | some (_, ⟨s, .put⟩) => (view st).data k s
  | _ => none

section

variable {U : Set Bytes} {st : Store} {r : UInt64}

lemma seenValue_eq_some_iff (h : WF U st) {k x : Bytes} : seenValue st k r = some x ↔
    ∃ ts s, Sees (view st) k r ts ⟨s, .put⟩ ∧ (view st).data k s = some x := by
  simp only [← findVersion_walk h, seenValue]
  cases hfind : findVersion k (fun w => w.op ≠ .rollback) (st.range .write (encode k r)) with
  | none => simp
  | some y =>
      obtain ⟨ts, s, op⟩ := y
      cases op <;> simp

lemma seenValue_hasValue (h : WF U st) {k x : Bytes} (hx : seenValue st k r = some x) :
    HasValue (view st) k r x := by
  obtain ⟨ts, s, hsees, hdata⟩ := (seenValue_eq_some_iff h).mp hx
  exact ⟨ts, s, hsees.toLatest, hdata⟩

/-- Where the read gets to a version, it is the one that counts. -/
lemma HasValue.seenValue (h : WF U st) {k x : Bytes} (hx : HasValue (view st) k r x)
    (hsees : ∃ ts w, Sees (view st) k r ts w) : seenValue st k r = some x := by
  obtain ⟨ts, s, hcurrent, hdata⟩ := hx
  obtain ⟨ts', w, hsees⟩ := hsees
  obtain ⟨rfl, rfl⟩ := hsees.toLatest.unique hcurrent
  exact (seenValue_eq_some_iff h).mpr ⟨ts', s, hsees, hdata⟩

lemma get_run (h : WF U st) (hlock : ∀ k, st.get .lock k = none) (hdata : AllValued (view st))
    (clock : ℕ → UInt64) (k : Bytes) :
    (Coordinator.get k r).run clock st = (.ok (seenValue st k r), st) := by
  have hfree : Unlocked (view st) k r := by simp [Unlocked, view_lock_none (hlock k)]
  have hrun := @readerGet_unlocked U st clock h k r hfree
  have hvalue : (view st).readVersion k
      (findVersion k (fun w => w.op ≠ .rollback) (st.range .write (encode k r)))
      = .ok (seenValue st k r) := by
    rw [seenValue]
    cases hfind : findVersion k (fun w => w.op ≠ .rollback) (st.range .write (encode k r)) with
    | none => rfl
    | some y =>
        obtain ⟨ts, s, op⟩ := y
        cases op with
        | put =>
            obtain ⟨x, hx⟩ := hdata k ts s ((findVersion_walk h).mp hfind).write
            simp [View.readVersion, View.readRecord, hx]
        | delete => rfl
        | rollback => rfl
  rw [hvalue] at hrun
  exact get_of_unlocked hrun (by simp)

/-- What a scan finds on the keys that it reads. -/
def findings (st : Store) (r : UInt64) (ks : List Bytes) : List (Bytes × Bytes) :=
  ks.filterMap fun k => (seenValue st k r).map fun x => (k, x)

lemma mem_findings {ks : List Bytes} {k x : Bytes} :
    (k, x) ∈ findings st r ks ↔ k ∈ ks ∧ seenValue st k r = some x := by
  simp [findings]

/-- The loop reads one key after the other until it has `limit` results. -/
lemma scanLoop_run (h : WF U st) (hlock : ∀ k, st.get .lock k = none)
    (hdata : AllValued (view st)) (clock : ℕ → UInt64) {startKey endKey : Bytes} {limit : UInt32}
    {last : Option Bytes} {results items : List (Bytes × Bytes)} (hwalk : Walk items)
    (hroom : Room limit results) :
    (scanLoop startKey endKey limit r last results items).run clock st =
      (.ok (cut limit (results ++ findings st r
        (visits startKey endKey last (items.map fun x => userKey x.1)))), st) := by
  induction hwalk using Walk.induction generalizing last results clock with
  | nil _ => simp [scanLoop, visits, findings, hroom.cut_eq]
  | cons k ts b w items hwalk _ ih =>
      simp only [scanLoop, decode_encode, List.map_cons, userKey_encode, visits]
      split_ifs
      · exact ih clock hroom
      · simp [findings, hroom.cut_eq]
      · exact ih clock hroom
      · have hget := @get_run U st r h hlock hdata clock k
        cases hvalue : seenValue st k r with
        | none =>
            rw [hvalue] at hget
            obtain ⟨n, hn⟩ := Prog.run_bind hget
            rw [hn, ih _ hroom]
            simp [findings, hvalue]
        | some x =>
            rw [hvalue] at hget
            obtain ⟨n, hn⟩ := Prog.run_bind hget
            rw [hn]
            simp only
            have hfound : ∀ ks, findings st r (k :: ks) = (k, x) :: findings st r ks := by
              simp [findings, hvalue]
            split_ifs with hfull
            · rw [hfound, hroom.cut_filled hfull.1 hfull.2]
              rfl
            · rw [ih _ (room_of_not_full hfull), hfound, List.append_assoc]
              rfl

theorem scan_run (h : WF U st) (hlock : ∀ k, st.get .lock k = none) (hdata : AllValued (view st))
    (clock : ℕ → UInt64) (startKey endKey : Bytes) (limit : UInt32) :
    (Coordinator.scan startKey endKey limit r).run clock st =
      (.ok (cut limit (findings st r (scanned st startKey endKey r))), st) := by
  have hroom : Room limit [] := by
    refine room_of_not_full fun ⟨hpos, hfull⟩ => ?_
    rw [UInt32.lt_iff_toNat_lt] at hpos
    exact absurd hpos (Nat.not_lt.mpr hfull)
  simp only [Coordinator.scan, Prog.run_walk_bind]
  exact scanLoop_run h hlock hdata _ (walk_of_wf h _) hroom

end

/-! ## The places where a scan reads -/

/-- The entries at which a scan reads a key, when it walks over the entries `es`. -/
def halts (startKey endKey : Bytes) : Option Bytes → List Bytes → List Bytes
  | _, [] => []
  | last, e :: es =>
      if startKey ≠ [] ∧ userKey e < startKey then halts startKey endKey last es
      else if endKey ≠ [] ∧ endKey ≤ userKey e then []
      else if last = some (userKey e) then halts startKey endKey last es
      else e :: halts startKey endKey (some (userKey e)) es

section

variable {startKey endKey : Bytes} {last : Option Bytes} {es : List Bytes} {e : Bytes}

lemma map_userKey_halts : (halts startKey endKey last es).map userKey =
    visits startKey endKey last (es.map userKey) := by
  induction es generalizing last with
  | nil => rfl
  | cons e es ih =>
      simp only [halts, List.map_cons, visits]
      split_ifs <;> simp [ih]

lemma halts_sublist : (halts startKey endKey last es).Sublist es := by
  induction es generalizing last with
  | nil => exact List.Sublist.refl _
  | cons e es ih =>
      rw [halts]
      split_ifs
      · exact ih.cons e
      · exact List.nil_sublist _
      · exact ih.cons e
      · exact ih.cons_cons e

/-- An entry of another key of the range stands in front of `e`, among those in `es`. -/
def Parted (startKey endKey : Bytes) (es : List Bytes) (e : Bytes) : Prop :=
  ∃ e' ∈ es, e' < e ∧ InRange startKey endKey (userKey e') ∧ userKey e' ≠ userKey e

/-- A scan that has read `last` halts at the entry `e`. -/
structure Halts (startKey endKey : Bytes) (last : Option Bytes) (es : List Bytes) (e : Bytes) :
    Prop where
  mem : e ∈ es
  inRange : InRange startKey endKey (userKey e)
  within : ∀ e' ∈ es, e' < e → endKey = [] ∨ userKey e' < endKey
  fresh : ∀ e' ∈ es, e' < e → userKey e' = userKey e →
    Parted startKey endKey (es.filter (e' < ·)) e
  next : last = some (userKey e) → Parted startKey endKey es e

/-- The first of the entries parts from those in front of it only. -/
lemma parted_filter_head {e₀ : Bytes} (hsorted : (e₀ :: es).Pairwise (· < ·)) :
    (e₀ :: es).filter (e₀ < ·) = es := by
  rw [List.filter_cons_of_neg (by simp [List.lt_irrefl]), List.filter_eq_self]
  intro e he
  exact decide_eq_true (List.rel_of_pairwise_cons hsorted he)

/-- An entry at which the scan does not halt, or halts before it comes to `e`. -/
lemma halts_cons_iff {e₀ : Bytes} {last' : Option Bytes} (hsorted : (e₀ :: es).Pairwise (· < ·))
    (hne : InRange startKey endKey (userKey e) → e ≠ e₀)
    (hend : endKey = [] ∨ userKey e₀ < endKey)
    (hnext : e ∈ es → InRange startKey endKey (userKey e) →
      ((userKey e₀ = userKey e → Parted startKey endKey es e) ∧
        (last = some (userKey e) → Parted startKey endKey (e₀ :: es) e) ↔
      (last' = some (userKey e) → Parted startKey endKey es e))) :
    Halts startKey endKey last (e₀ :: es) e ↔ Halts startKey endKey last' es e := by
  have hfilter : ∀ e' ∈ es, (e₀ :: es).filter (e' < ·) = es.filter (e' < ·) := by
    intro e' he'
    have hlt := List.rel_of_pairwise_cons hsorted he'
    exact List.filter_cons_of_neg (by simpa using List.lt_asymm hlt)
  constructor
  · rintro ⟨hmem, hin, hwithin, hfresh, hlast⟩
    have hes := (List.mem_cons.mp hmem).resolve_left (hne hin)
    have hlt := List.rel_of_pairwise_cons hsorted hes
    refine ⟨hes, hin, fun e' he' => hwithin e' (List.mem_cons_of_mem _ he'),
      fun e' he' hlt' heq => ?_, (hnext hes hin).mp ⟨fun heq => ?_, hlast⟩⟩
    · rw [← hfilter e' he']
      exact hfresh e' (List.mem_cons_of_mem _ he') hlt' heq
    · rw [← parted_filter_head hsorted]
      exact hfresh e₀ List.mem_cons_self hlt heq
  · rintro ⟨hes, hin, hwithin, hfresh, hlast⟩
    obtain ⟨hhead, hlast⟩ := (hnext hes hin).mpr hlast
    refine ⟨List.mem_cons_of_mem _ hes, hin, fun e' he' hlt' => ?_,
      fun e' he' hlt' heq => ?_, hlast⟩
    · rcases List.mem_cons.mp he' with rfl | he'
      · exact hend
      · exact hwithin e' he' hlt'
    · rcases List.mem_cons.mp he' with rfl | he'
      · rw [parted_filter_head hsorted]
        exact hhead heq
      · rw [hfilter e' he']
        exact hfresh e' he' hlt' heq

lemma parted_cons_iff {e₀ : Bytes}
    (h : InRange startKey endKey (userKey e₀) → userKey e₀ = userKey e) :
    Parted startKey endKey (e₀ :: es) e ↔ Parted startKey endKey es e := by
  constructor
  · rintro ⟨e', he', hlt, hin, hne⟩
    rcases List.mem_cons.mp he' with rfl | he'
    · exact absurd (h hin) hne
    · exact ⟨e', he', hlt, hin, hne⟩
  · rintro ⟨e', he', hrest⟩
    exact ⟨e', List.mem_cons_of_mem _ he', hrest⟩

/-- The places of a scan, told from the entries. -/
theorem mem_halts (hsorted : es.Pairwise (· < ·)) :
    e ∈ halts startKey endKey last es ↔ Halts startKey endKey last es e := by
  induction es generalizing last with
  | nil =>
      rw [halts]
      exact iff_of_false List.not_mem_nil fun h => List.not_mem_nil h.mem
  | cons e₀ es ih =>
      have hfirst : ∀ e' ∈ e₀ :: es, ¬ e' < e₀ := by
        intro e' he' hlt
        rcases List.mem_cons.mp he' with rfl | he'
        · exact List.lt_irrefl _ hlt
        · exact List.lt_asymm hlt (List.rel_of_pairwise_cons hsorted he')
      have hhead : e₀ ∉ es := fun hmem =>
        List.lt_irrefl _ (List.rel_of_pairwise_cons hsorted hmem)
      rw [halts]
      split_ifs with hstart hend hseen
      · -- in front of the range
        have hout : ¬ InRange startKey endKey (userKey e₀) :=
          fun hin => (inRange_iff.mp hin).1 hstart
        rw [ih hsorted.of_cons]
        by_cases hin : InRange startKey endKey (userKey e)
        · have hne : userKey e₀ ≠ userKey e := fun heq => hout (heq ▸ hin)
          refine (halts_cons_iff hsorted (fun _ heq => hne (heq ▸ rfl)) ?_ fun _ _ => ?_).symm
          · refine hin.2.imp_right fun hlt => List.lt_trans ?_ hlt
            exact Std.lt_of_lt_of_le hstart.2 (hin.1.resolve_left hstart.1)
          · rw [parted_cons_iff fun hin₀ => absurd hin₀ hout]
            exact ⟨fun h => h.2, fun h => ⟨fun heq => absurd heq hne, h⟩⟩
        · exact iff_of_false (fun h => hin h.inRange) fun h => hin h.inRange
      · -- the end of the range
        refine iff_of_false List.not_mem_nil fun h => ?_
        have hlt : e₀ < e := by
          rcases List.mem_cons.mp h.mem with rfl | hmem
          · exact absurd hend (inRange_iff.mp h.inRange).2
          · exact List.rel_of_pairwise_cons hsorted hmem
        rcases h.within e₀ List.mem_cons_self hlt with hnil | hlt'
        · exact hend.1 hnil
        · exact List.not_le.mpr hlt' hend.2
      · -- a further record of the key that was read last
        have hin₀ := inRange_iff.mpr ⟨hstart, hend⟩
        rw [ih hsorted.of_cons]
        by_cases heq₀ : e = e₀
        · subst heq₀
          refine iff_of_false (fun h => hhead h.mem) fun h => ?_
          obtain ⟨e', he', hlt, -⟩ := h.next hseen
          exact hfirst e' he' hlt
        · refine (halts_cons_iff hsorted (fun _ => heq₀) hin₀.2 fun _ _ => ?_).symm
          rw [hseen, Option.some.injEq]
          exact ⟨fun h => h.1,
            fun h => ⟨h, fun heq => (parted_cons_iff fun _ => heq).mpr (h heq)⟩⟩
      · -- the scan halts
        have hin₀ := inRange_iff.mpr ⟨hstart, hend⟩
        rw [List.mem_cons, ih hsorted.of_cons]
        by_cases heq₀ : e = e₀
        · subst heq₀
          refine iff_of_true (Or.inl rfl)
            ⟨List.mem_cons_self, hin₀, ?_, ?_, fun h => absurd h hseen⟩
          · exact fun e' he' hlt => absurd hlt (hfirst e' he')
          · exact fun e' he' hlt => absurd hlt (hfirst e' he')
        · rw [or_iff_right heq₀]
          refine (halts_cons_iff hsorted (fun _ => heq₀) hin₀.2 fun hmem _ => ?_).symm
          rw [Option.some.injEq]
          refine ⟨fun h => h.1, fun h => ⟨h, fun hlast => ?_⟩⟩
          have hne : userKey e₀ ≠ userKey e := fun heq => hseen (heq ▸ hlast)
          exact ⟨e₀, List.mem_cons_self, List.rel_of_pairwise_cons hsorted hmem, hin₀, hne⟩

end

end AcidKv
