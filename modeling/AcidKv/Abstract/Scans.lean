import AcidKv.Abstract.View

/-!
# What the scan loops find

`check_txn_status`, the conflict check of a prewrite and the point read all walk the write
partition from some version of a key on, and stop at the first entry of another key.  What such
a loop *finds* is always there.  That it gets to a given version of the key needs that no entry
of another key stands before that version.  `Seen` says so about one version in a view; it holds
for all of them when no user key is a proper prefix of another one.

So each loop gets one lemma, in which the completeness half is conditional on `Reaches`.
-/

namespace AcidKv

open KeyEncoder BigEndian

/-- No entry of another key stands before the version of `k` at `c`. -/
def Reaches (k : Bytes) (items : List (Bytes × Bytes)) (c : UInt64) : Prop :=
  ∀ x ∈ items, x.1 < encode k c → ∃ ts, x.1 = encode k ts

lemma Reaches.tail {k : Bytes} {x : Bytes × Bytes} {items : List (Bytes × Bytes)} {c : UInt64}
    (h : Reaches k (x :: items) c) : Reaches k items c :=
  fun y hy => h y (List.mem_cons_of_mem x hy)

lemma Reaches.cons_iff {k b : Bytes} {t c : UInt64} {items : List (Bytes × Bytes)} :
    Reaches k ((encode k t, b) :: items) c ↔ Reaches k items c := by
  refine ⟨Reaches.tail, fun h x hx hlt => ?_⟩
  rcases List.mem_cons.mp hx with rfl | hx
  · exact ⟨t, rfl⟩
  · exact h x hx hlt

/-- The scans from `(k, u64::MAX)` on get to the version of `k` at `c`. -/
def Seen (v : View) (k : Bytes) (c : UInt64) : Prop :=
  ∀ k' ts w, v.write k' ts = some w → encode k u64Max ≤ encode k' ts →
    encode k' ts < encode k c → k' = k

/-- A version that a scan gets to, because of the keys in use or of what the store holds. -/
def Reached (U : Set Bytes) (v : View) (k : Bytes) (c : UInt64) : Prop :=
  PrefixFree U ∨ Seen v k c

/-- The items of a walk: encoded keys with decodable records, in ascending order. -/
structure Walk (items : List (Bytes × Bytes)) : Prop where
  decodes : ∀ x ∈ items, ∃ k ts w, x.1 = encode k ts ∧ WriteRecord.fromBytes x.2 = some w
  sorted : items.Pairwise fun a b => a.1 < b.1

lemma Walk.tail {x : Bytes × Bytes} {items : List (Bytes × Bytes)} (h : Walk (x :: items)) :
    Walk items where
  decodes y hy := h.decodes y (List.mem_cons_of_mem x hy)
  sorted := (List.pairwise_cons.mp h.sorted).2

/-- A walk has one record for a key. -/
lemma Walk.unique {e b b' : Bytes} {items : List (Bytes × Bytes)} (h : Walk items)
    (hm : (e, b) ∈ items) (hm' : (e, b') ∈ items) : b = b' := by
  induction items with
  | nil => cases hm
  | cons x items ih =>
      have hlt := (List.pairwise_cons.mp h.sorted).1
      rcases List.mem_cons.mp hm with rfl | hrest
      · rcases List.mem_cons.mp hm' with heq | hrest'
        · exact (Prod.mk.inj heq).2.symm
        · exact absurd (hlt _ hrest') (List.lt_irrefl e)
      · rcases List.mem_cons.mp hm' with rfl | hrest'
        · exact absurd (hlt _ hrest) (List.lt_irrefl e)
        · exact ih h.tail hrest hrest'

/-- Induction over a walk, record by record. -/
@[elab_as_elim]
theorem Walk.induction {motive : ∀ items, Walk items → Prop} (nil : ∀ h, motive [] h)
    (cons : ∀ (k : Bytes) (ts : UInt64) (b : Bytes) (w : WriteRecord)
      (items : List (Bytes × Bytes)) (h : Walk ((encode k ts, b) :: items)),
      WriteRecord.fromBytes b = some w → motive items h.tail → motive ((encode k ts, b) :: items) h)
    {items : List (Bytes × Bytes)} (h : Walk items) : motive items h := by
  induction items with
  | nil => exact nil h
  | cons x items ih =>
      obtain ⟨e, b⟩ := x
      obtain ⟨k, ts, w, he, hw⟩ := h.decodes (e, b) List.mem_cons_self
      simp only at he hw
      subst he
      exact cons k ts b w items h hw (ih h.tail)

/-- The head of a walk is reached, if it is the key's. -/
lemma Walk.reaches_head {k b : Bytes} {t : UInt64} {items : List (Bytes × Bytes)}
    (h : Walk ((encode k t, b) :: items)) : Reaches k ((encode k t, b) :: items) t := by
  intro x hx hlt
  rcases List.mem_cons.mp hx with rfl | hx
  · exact ⟨t, rfl⟩
  · exact absurd ((List.pairwise_cons.mp h.sorted).1 x hx) (Std.not_lt.mpr (Std.le_of_lt hlt))

/-- Behind an entry of another key no version is reached. -/
lemma Walk.not_reaches {k k' b b' : Bytes} {ts c : UInt64} {items : List (Bytes × Bytes)}
    (h : Walk ((encode k' ts, b) :: items)) (hk : k' ≠ k)
    (hm : (encode k c, b') ∈ (encode k' ts, b) :: items) :
    ¬ Reaches k ((encode k' ts, b) :: items) c := by
  intro hreach
  rcases List.mem_cons.mp hm with heq | hm
  · simp only [Prod.mk.injEq, encode_inj] at heq
    exact hk heq.1.1.symm
  · have hlt := (List.pairwise_cons.mp h.sorted).1 _ hm
    obtain ⟨ts', hts'⟩ := hreach _ List.mem_cons_self hlt
    exact hk (encode_inj.mp hts').1

section

variable {U : Set Bytes} {st : Store}

theorem walk_of_wf (h : WF U st) (lo : Bytes) : Walk (st.range .write lo) where
  decodes := by
    rintro ⟨e, b⟩ hx
    obtain ⟨k, -, ts, w, he, hw⟩ := h.write e b (Keyspace.mem_range.mp hx).1
    exact ⟨k, ts, w, he, hw⟩
  sorted := (Keyspace.range_sorted st .write lo).imp fun hab => compare_eq_lt_iff.mp hab

lemma write_of_mem_walk {k b lo : Bytes} {ts : UInt64} {w : WriteRecord}
    (h : (encode k ts, b) ∈ st.range .write lo) (hw : WriteRecord.fromBytes b = some w) :
    (view st).write k ts = some w :=
  view_write_of_get (Keyspace.mem_range.mp h).1 hw

/-- A walk from `(k, hi)` on contains every record of `k` at or below `hi`. -/
lemma mem_walk_of_write {k : Bytes} {ts hi : UInt64} {w : WriteRecord}
    (hw : (view st).write k ts = some w) (hts : ts ≤ hi) :
    ∃ b, (encode k ts, b) ∈ st.range .write (encode k hi) ∧ WriteRecord.fromBytes b = some w := by
  obtain ⟨b, hb, hbw⟩ := view_write_some hw
  refine ⟨b, Keyspace.mem_range.mpr ⟨hb, compare_isLE_iff.mpr ?_⟩, hbw⟩
  rw [← List.not_lt, encode_lt_encode_same, UInt64.not_lt]
  exact hts

/-- The records of different keys stand in the order of the keys. -/
lemma PrefixFree.encode_lt_iff (hU : PrefixFree U) {k k' : Bytes} (hk : k ∈ U) (hk' : k' ∈ U)
    {ts ts' : UInt64} (hne : k ≠ k') : encode k ts < encode k' ts' ↔ k < k' :=
  encode_lt_encode_of_unrelated (fun hp => hne (hU k hk k' hk' hp))
    fun hp => hne (hU k' hk' k hk hp).symm

/-- Between two versions of a key there is no other key, if the keys are prefix-free. -/
lemma PrefixFree.eq_of_between (hU : PrefixFree U) {k k' : Bytes} (hk : k ∈ U) (hk' : k' ∈ U)
    {hi ts c : UInt64} (hle : encode k hi ≤ encode k' ts) (hlt : encode k' ts < encode k c) :
    k' = k := by
  by_contra hne
  rw [hU.encode_lt_iff hk' hk hne] at hlt
  rw [← List.not_lt, hU.encode_lt_iff hk' hk hne] at hle
  exact hle hlt

/-- A walk from a version of `k` on gets to every version that is reached. -/
theorem reaches_walk (h : WF U st) {k : Bytes} {c : UInt64} {w : WriteRecord}
    (hw : (view st).write k c = some w) (hreach : Reached U (view st) k c) (hi : UInt64) :
    Reaches k (st.range .write (encode k hi)) c := by
  rintro ⟨e, b⟩ hx hlt
  obtain ⟨hget, hlo⟩ := Keyspace.mem_range.mp hx
  obtain ⟨k', hk', ts, w', he, hw'⟩ := h.write e b hget
  simp only at hlt ⊢
  subst he
  have hle : encode k hi ≤ encode k' ts := compare_isLE_iff.mp hlo
  rcases hreach with hU | hseen
  · exact ⟨ts, by rw [hU.eq_of_between (h.write_mem hw) hk' hle hlt]⟩
  · have hmax : encode k u64Max ≤ encode k hi := by
      rw [← List.not_lt, encode_lt_encode_same, UInt64.not_lt]
      exact le_u64Max hi
    have hkk := hseen k' ts w' (view_write_of_get hget hw') (Std.le_trans hmax hle) hlt
    exact ⟨ts, by rw [hkk]⟩

/-- What a walk from the newest version of `k` on has got to is seen. -/
lemma seen_of_reaches {k : Bytes} {c : UInt64}
    (h : Reaches k (st.range .write (encode k u64Max)) c) : Seen (view st) k c := by
  intro k' ts w hw hle hlt
  obtain ⟨b, hb, -⟩ := view_write_some hw
  have hm : (encode k' ts, b) ∈ st.range .write (encode k u64Max) :=
    Keyspace.mem_range.mpr ⟨hb, compare_isLE_iff.mpr hle⟩
  obtain ⟨ts', hts'⟩ := h _ hm hlt
  exact (encode_inj.mp hts').1

end

/-! ## The status scan -/

/-- What an outcome of the status scan says about the items. -/
def StatusFound (p : Bytes) (s : UInt64) (items : List (Bytes × Bytes)) :
    Except LockResolverError (Option TxnStatus) → Prop
  | .error _ => False
  | .ok (some (.committed c)) => Reaches p items c ∧ ∃ b op, (encode p c, b) ∈ items ∧
      WriteRecord.fromBytes b = some ⟨s, op⟩ ∧ op ≠ .rollback
  | .ok (some .rolledBack) => ∃ ts b, (encode p ts, b) ∈ items ∧
      WriteRecord.fromBytes b = some ⟨s, .rollback⟩ ∧
      ∀ c b' op, (encode p c, b') ∈ items → WriteRecord.fromBytes b' = some ⟨s, op⟩ →
        op ≠ .rollback → c < ts
  | .ok (some (.locked _)) => False
  | .ok none => ∀ c b w, (encode p c, b) ∈ items → WriteRecord.fromBytes b = some w →
      Reaches p items c → w.startTs ≠ s

/-- Looking past an entry of the key that is not the transaction's. -/
lemma StatusFound.cons {p b : Bytes} {s ts : UInt64} {w : WriteRecord}
    {items : List (Bytes × Bytes)} {r : Except LockResolverError (Option TxnStatus)}
    (hb : WriteRecord.fromBytes b = some w) (hs : w.startTs ≠ s) (h : StatusFound p s items r) :
    StatusFound p s ((encode p ts, b) :: items) r := by
  have hskip : ∀ {c : UInt64} {b' : Bytes} {w' : WriteRecord},
      (encode p c, b') ∈ (encode p ts, b) :: items → WriteRecord.fromBytes b' = some w' →
      w'.startTs = s → (encode p c, b') ∈ items := by
    intro c b' w' hm hb' hw'
    rcases List.mem_cons.mp hm with heq | hm
    · simp only [Prod.mk.injEq] at heq
      rw [heq.2, hb, Option.some.injEq] at hb'
      exact absurd (hb' ▸ hw') hs
    · exact hm
  match r, h with
  | .ok (some (.committed c)), ⟨hreach, b', op, hm, hb', hop⟩ =>
      refine ⟨?_, b', op, List.mem_cons_of_mem _ hm, hb', hop⟩
      intro x hx hlt
      rcases List.mem_cons.mp hx with rfl | hx
      · exact ⟨ts, rfl⟩
      · exact hreach x hx hlt
  | .ok (some .rolledBack), ⟨ts', b', hm, hb', habove⟩ =>
      refine ⟨ts', b', List.mem_cons_of_mem _ hm, hb', ?_⟩
      intro c b'' op hm'' hb'' hop
      exact habove c b'' op (hskip hm'' hb'' rfl) hb'' hop
  | .ok none, h =>
      intro c b' w' hm hb' hreach hw'
      exact h c b' w' (hskip hm hb' hw') hb' hreach.tail hw'

theorem statusLoop_found {p : Bytes} {s : UInt64} {items : List (Bytes × Bytes)}
    (h : Walk items) : StatusFound p s items (LockResolver.statusLoop p s items) := by
  induction h using Walk.induction with
  | nil _ => intro c b w hm; simp at hm
  | cons k ts b w items h hw ih =>
      have hsorted := (List.pairwise_cons.mp h.sorted).1
      have hhead := h.reaches_head
      simp only [LockResolver.statusLoop, decode_encode]
      by_cases hk : k = p
      · subst hk
        simp only [if_true, hw]
        by_cases hs : w.startTs = s
        · simp only [hs, if_true]
          obtain ⟨ws, wop⟩ := w
          simp only at hs
          subst hs
          cases wop with
          | put => exact ⟨hhead, b, .put, List.mem_cons_self, hw, by decide⟩
          | delete => exact ⟨hhead, b, .delete, List.mem_cons_self, hw, by decide⟩
          | rollback =>
              refine ⟨ts, b, List.mem_cons_self, hw, ?_⟩
              intro c b' op hm hb' hop
              rcases List.mem_cons.mp hm with heq | hm
              · simp only [Prod.mk.injEq] at heq
                rw [heq.2, hw] at hb'
                simp only [Option.some.injEq, WriteRecord.mk.injEq, true_and] at hb'
                exact absurd hb'.symm hop
              · exact encode_lt_encode_same.mp (hsorted _ hm)
        · simp only [hs, if_false]
          exact ih.cons hw hs
      · simp only [hk, if_false]
        intro c b' w' hm _ hreach
        exact absurd hreach (h.not_reaches hk hm)

/-- What an outcome of the status scan says about the view. -/
def StatusSeen (U : Set Bytes) (v : View) (p : Bytes) (s : UInt64) :
    Except LockResolverError (Option TxnStatus) → Prop
  | .error _ => False
  | .ok (some (.committed c)) => Seen v p c ∧ ∃ op, v.write p c = some ⟨s, op⟩ ∧ op ≠ .rollback
  | .ok (some .rolledBack) => ∃ ts, v.write p ts = some ⟨s, .rollback⟩ ∧
      ∀ c op, v.write p c = some ⟨s, op⟩ → op ≠ .rollback → c < ts
  | .ok (some (.locked _)) => False
  | .ok none => ∀ c op, v.write p c = some ⟨s, op⟩ → ¬ Reached U v p c

lemma StatusFound.seen {U : Set Bytes} {st : Store} (h : WF U st) {p : Bytes} {s : UInt64}
    {r : Except LockResolverError (Option TxnStatus)}
    (hf : StatusFound p s (st.range .write (encode p u64Max)) r) :
    StatusSeen U (view st) p s r := by
  match r, hf with
  | .ok (some (.committed c)), ⟨hreach, b, op, hm, hb, hop⟩ =>
      exact ⟨seen_of_reaches hreach, op, write_of_mem_walk hm hb, hop⟩
  | .ok (some .rolledBack), ⟨ts, b, hm, hb, habove⟩ =>
      refine ⟨ts, write_of_mem_walk hm hb, ?_⟩
      intro c op hw hop
      obtain ⟨b', hm', hb'⟩ := mem_walk_of_write hw (le_u64Max c)
      exact habove c b' op hm' hb' hop
  | .ok none, hnone =>
      intro c op hw hreach
      obtain ⟨b', hm', hb'⟩ := mem_walk_of_write hw (le_u64Max c)
      exact hnone c b' _ hm' hb' (reaches_walk h hw hreach u64Max) rfl

/-- The status scan of the whole write partition, read off the view. -/
theorem statusLoop_view {U : Set Bytes} {st : Store} (h : WF U st) (p : Bytes) (s : UInt64) :
    StatusSeen U (view st) p s
      (LockResolver.statusLoop p s (st.range .write (encode p u64Max))) :=
  (statusLoop_found (walk_of_wf h (encode p u64Max))).seen h

/-! ## The conflict check -/

lemma checkConflict_run (clock : ℕ → UInt64) (st : Store) (k : Bytes) (s : UInt64) :
    (Coordinator.checkConflict k s).run clock st =
      (Coordinator.conflictLoop k s (st.range .write (encode k u64Max)), st) := by
  simp only [Coordinator.checkConflict, Prog.run_walk_bind, Prog.run_ofExcept]

/-- A record at `ts` that stands in the way of a transaction that starts at `s`. -/
def Conflicts (s ts : UInt64) (w : WriteRecord) : Prop := s ≤ ts ∨ w = ⟨s, .rollback⟩

/-- The conflict check passes exactly if nothing it gets to stands in the way. -/
theorem conflictLoop_ok_iff {k : Bytes} {s : UInt64} {items : List (Bytes × Bytes)}
    (h : Walk items) : Coordinator.conflictLoop k s items = .ok () ↔
      ∀ ts b w, (encode k ts, b) ∈ items → WriteRecord.fromBytes b = some w →
        Reaches k items ts → ¬ Conflicts s ts w := by
  induction h using Walk.induction with
  | nil _ => simp [Coordinator.conflictLoop]
  | cons k' t b₀ w₀ items h hw₀ ih =>
      simp only [Coordinator.conflictLoop, decode_encode]
      by_cases hk : k' = k
      · subst hk
        simp only [if_true, hw₀, Option.some.injEq]
        split_ifs with hrb hts
        · refine ⟨fun hok => absurd hok (by simp), fun hall => ?_⟩
          exact absurd (Or.inr hrb) (hall t b₀ w₀ List.mem_cons_self hw₀ h.reaches_head)
        · refine ⟨fun hok => absurd hok (by simp), fun hall => ?_⟩
          exact absurd (Or.inl hts) (hall t b₀ w₀ List.mem_cons_self hw₀ h.reaches_head)
        · rw [ih]
          constructor
          · intro hall ts b w hm hb hreach
            rcases List.mem_cons.mp hm with heq | hm
            · simp only [Prod.mk.injEq, encode_inj, true_and] at heq
              rw [heq.2, hw₀, Option.some.injEq] at hb
              rw [heq.1, ← hb]
              exact fun hconf => hconf.elim hts hrb
            · exact hall ts b w hm hb hreach.tail
          · intro hall ts b w hm hb hreach
            exact hall ts b w (List.mem_cons_of_mem _ hm) hb (Reaches.cons_iff.mpr hreach)
      · simp only [hk, if_false, true_iff]
        exact fun ts b w hm _ hreach => absurd hreach (h.not_reaches hk hm)

theorem conflictLoop_found {k : Bytes} {s : UInt64} {items : List (Bytes × Bytes)}
    (h : Walk items) (hok : Coordinator.conflictLoop k s items = .ok ()) {ts : UInt64} {b : Bytes}
    (hm : (encode k ts, b) ∈ items) (hreach : Reaches k items ts) : ts < s := by
  obtain ⟨-, -, w, -, hw⟩ := h.decodes _ hm
  exact UInt64.not_le.mp fun hle =>
    (conflictLoop_ok_iff h).mp hok ts b w hm hw hreach (Or.inl hle)

/-! ## Point reads -/

/-- The record a read at `r` sees: the newest one at or below `r` that is not a rollback. -/
def Newest (v : View) (k : Bytes) (r c : UInt64) (w : WriteRecord) : Prop :=
  c ≤ r ∧ v.write k c = some w ∧ w.op ≠ .rollback ∧
    ∀ c' w', v.write k c' = some w' → c < c' → c' ≤ r → w'.op = .rollback

/-- A read of `k` at `r` gives `out`. -/
def ReadsTo (v : View) (k : Bytes) (r : UInt64) : Option Bytes → Prop
  | some x => ∃ c s, Newest v k r c ⟨s, .put⟩ ∧ v.data k s = some x
  | none => (∃ c s, Newest v k r c ⟨s, .delete⟩) ∨
      ∀ c w, v.write k c = some w → c ≤ r → w.op = .rollback

/-- What an outcome of the read loop says about the items. -/
def ReadFound (v : View) (k : Bytes) (r : UInt64) (items : List (Bytes × Bytes)) :
    Except MvccError (Option Bytes) → Prop
  | .ok (some x) => ∃ c s b, (encode k c, b) ∈ items ∧
      WriteRecord.fromBytes b = some ⟨s, .put⟩ ∧ c ≤ r ∧ v.data k s = some x ∧
      ∀ c' b' w', (encode k c', b') ∈ items → WriteRecord.fromBytes b' = some w' → c < c' →
        c' ≤ r → w'.op = .rollback
  | .ok none => (∃ c s b, (encode k c, b) ∈ items ∧
      WriteRecord.fromBytes b = some ⟨s, .delete⟩ ∧ c ≤ r ∧
      ∀ c' b' w', (encode k c', b') ∈ items → WriteRecord.fromBytes b' = some w' → c < c' →
        c' ≤ r → w'.op = .rollback) ∨
      ∀ c b w, (encode k c, b) ∈ items → WriteRecord.fromBytes b = some w →
        Reaches k items c → c ≤ r → w.op = .rollback
  | .error .corruptedState => ∃ c s b, (encode k c, b) ∈ items ∧
      WriteRecord.fromBytes b = some ⟨s, .put⟩ ∧ c ≤ r ∧ v.data k s = none
  | .error (.keyIsLocked _ _) => False

/-- Looking past an entry of the key that a read at `r` does not see. -/
lemma ReadFound.cons {v : View} {k b : Bytes} {r ts : UInt64} {w : WriteRecord}
    {items : List (Bytes × Bytes)} {out : Except MvccError (Option Bytes)}
    (hb : WriteRecord.fromBytes b = some w) (hunseen : ts ≤ r → w.op = .rollback)
    (h : ReadFound v k r items out) : ReadFound v k r ((encode k ts, b) :: items) out := by
  have hskip : ∀ {c : UInt64} {b' : Bytes} {w' : WriteRecord},
      (encode k c, b') ∈ (encode k ts, b) :: items → WriteRecord.fromBytes b' = some w' →
      c ≤ r → w'.op = .rollback ∨ (encode k c, b') ∈ items := by
    intro c b' w' hm hb' hc
    rcases List.mem_cons.mp hm with heq | hm
    · simp only [Prod.mk.injEq, encode_inj, true_and] at heq
      rw [heq.2, hb, Option.some.injEq] at hb'
      rw [heq.1] at hc
      exact Or.inl (hb' ▸ hunseen hc)
    · exact Or.inr hm
  match out, h with
  | .ok (some x), ⟨c, s, b', hm, hb', hc, hx, hnew⟩ =>
      refine ⟨c, s, b', List.mem_cons_of_mem _ hm, hb', hc, hx, ?_⟩
      intro c' b'' w' hm' hb'' hlt hle
      rcases hskip hm' hb'' hle with hrb | hm'
      · exact hrb
      · exact hnew c' b'' w' hm' hb'' hlt hle
  | .ok none, Or.inl ⟨c, s, b', hm, hb', hc, hnew⟩ =>
      refine Or.inl ⟨c, s, b', List.mem_cons_of_mem _ hm, hb', hc, ?_⟩
      intro c' b'' w' hm' hb'' hlt hle
      rcases hskip hm' hb'' hle with hrb | hm'
      · exact hrb
      · exact hnew c' b'' w' hm' hb'' hlt hle
  | .ok none, Or.inr hnone =>
      refine Or.inr fun c b' w' hm hb' hreach hc => ?_
      rcases hskip hm hb' hc with hrb | hm
      · exact hrb
      · exact hnone c b' w' hm hb' hreach.tail hc
  | .error .corruptedState, ⟨c, s, b', hm, hb', hc, hx⟩ =>
      exact ⟨c, s, b', List.mem_cons_of_mem _ hm, hb', hc, hx⟩

/-- The head of a walk is the newest version of its key in it. -/
lemma Walk.head_newest {k b : Bytes} {ts r : UInt64} {items : List (Bytes × Bytes)}
    (h : Walk ((encode k ts, b) :: items)) :
    ∀ c' b' w', (encode k c', b') ∈ (encode k ts, b) :: items →
      WriteRecord.fromBytes b' = some w' → ts < c' → c' ≤ r → w'.op = .rollback := by
  intro c' b' w' hm _ hlt _
  exfalso
  rcases List.mem_cons.mp hm with heq | hm
  · simp only [Prod.mk.injEq, encode_inj, true_and] at heq
    rw [heq.1] at hlt
    exact UInt64.lt_irrefl _ hlt
  · have hlt' := encode_lt_encode_same.mp ((List.pairwise_cons.mp h.sorted).1 _ hm)
    exact UInt64.lt_asymm hlt hlt'

theorem getLoop_sat {T : UInt64 → Prop} {I : Store → Prop} {st : Store} {k : Bytes} {r : UInt64}
    {items : List (Bytes × Bytes)} (h : Walk items) :
    (MvccReader.getLoop k r items).Sat T I
      (fun out st' => st' = st ∧ ReadFound (view st) k r items out) st := by
  induction h using Walk.induction with
  | nil _ =>
      refine ⟨rfl, Or.inr fun c b w hm => ?_⟩
      simp at hm
  | cons k' ts b w items h hw ih =>
      simp only [MvccReader.getLoop, decode_encode]
      by_cases hk : k' = k
      · subst hk
        simp only [if_true, hw]
        by_cases hts : ts ≤ r
        · simp only [hts, if_true]
          obtain ⟨s, op⟩ := w
          cases op with
          | put =>
              simp only [Prog.sat_bind, Prog.sat_lookup, Prog.then_ok]
              cases hd : st.get .default (encode k' s) with
              | some x =>
                  exact ⟨rfl, ts, s, b, List.mem_cons_self, hw, hts, hd, h.head_newest⟩
              | none => exact ⟨rfl, ts, s, b, List.mem_cons_self, hw, hts, hd⟩
          | delete =>
              exact ⟨rfl, Or.inl ⟨ts, s, b, List.mem_cons_self, hw, hts, h.head_newest⟩⟩
          | rollback =>
              refine ih.mono fun out st' hq => ⟨hq.1, ?_⟩
              exact hq.2.cons hw fun _ => rfl
        · simp only [hts, if_false]
          refine ih.mono fun out st' hq => ⟨hq.1, ?_⟩
          exact hq.2.cons hw fun hle => absurd hle hts
      · simp only [hk, if_false]
        refine ⟨rfl, Or.inr fun c b' w' hm _ hreach => ?_⟩
        exact absurd hreach (h.not_reaches hk hm)

/-- What an outcome of a point read says about the store it read. -/
def ReadOutcome (U : Set Bytes) (v : View) (k : Bytes) (r : UInt64) :
    Except MvccError (Option Bytes) → Prop
  | .ok (some x) => (∀ l, v.lock k = some l → r < l.startTs) ∧ ReadsTo v k r (some x)
  | .ok none => (∀ l, v.lock k = some l → r < l.startTs) ∧ (PrefixFree U → ReadsTo v k r none)
  | .error (.keyIsLocked p t) => ∃ l, v.lock k = some l ∧ l.primaryKey = p ∧ l.startTs = t ∧ t ≤ r
  | .error .corruptedState => ∃ c s, c ≤ r ∧ v.write k c = some ⟨s, .put⟩ ∧ v.data k s = none

lemma ReadOutcome.readsTo {U : Set Bytes} {v : View} {k : Bytes} {r : UInt64} {x : Option Bytes}
    (hU : PrefixFree U) (h : ReadOutcome U v k r (.ok x)) :
    (∀ l, v.lock k = some l → r < l.startTs) ∧ ReadsTo v k r x := by
  cases x with
  | some x => exact h
  | none => exact ⟨h.1, h.2 hU⟩

/-- The scan of a read that found no lock in its way. -/
lemma ReadFound.outcome {U : Set Bytes} {st : Store} {k : Bytes} {r : UInt64}
    {out : Except MvccError (Option Bytes)} (h : WF U st)
    (hfree : ∀ l, (view st).lock k = some l → r < l.startTs)
    (hf : ReadFound (view st) k r (st.range .write (encode k r)) out) :
    ReadOutcome U (view st) k r out := by
  have hnewest : ∀ {c s b op}, (encode k c, b) ∈ st.range .write (encode k r) →
      WriteRecord.fromBytes b = some ⟨s, op⟩ → op ≠ .rollback → c ≤ r →
      (∀ c' b' w', (encode k c', b') ∈ st.range .write (encode k r) →
        WriteRecord.fromBytes b' = some w' → c < c' → c' ≤ r → w'.op = .rollback) →
      Newest (view st) k r c ⟨s, op⟩ := by
    intro c s b op hm hb hop hc hnew
    refine ⟨hc, write_of_mem_walk hm hb, hop, ?_⟩
    intro c' w' hw' hlt hle
    obtain ⟨b', hm', hb'⟩ := mem_walk_of_write hw' hle
    exact hnew c' b' w' hm' hb' hlt hle
  match out, hf with
  | .ok (some x), ⟨c, s, b, hm, hb, hc, hx, hnew⟩ =>
      exact ⟨hfree, c, s, hnewest hm hb (by decide) hc hnew, hx⟩
  | .ok none, Or.inl ⟨c, s, b, hm, hb, hc, hnew⟩ =>
      exact ⟨hfree, fun _ => Or.inl ⟨c, s, hnewest hm hb (by decide) hc hnew⟩⟩
  | .ok none, Or.inr hnone =>
      refine ⟨hfree, fun hU => Or.inr fun c w hw hc => ?_⟩
      obtain ⟨b, hm, hb⟩ := mem_walk_of_write hw hc
      exact hnone c b w hm hb (reaches_walk h hw (Or.inl hU) r) hc
  | .error .corruptedState, ⟨c, s, b, hm, hb, hc, hx⟩ =>
      exact ⟨c, s, hc, write_of_mem_walk hm hb, hx⟩

/-- A point read changes nothing, and its outcome is what the view says. -/
theorem readerGet_sat {U : Set Bytes} {T : UInt64 → Prop} {I : Store → Prop} {st : Store}
    (h : WF U st) (k : Bytes) (r : UInt64) :
    (MvccReader.get k r).Sat T I
      (fun out st' => st' = st ∧ ReadOutcome U (view st) k r out) st := by
  have hscan : ∀ hfree : ∀ l, (view st).lock k = some l → r < l.startTs,
      (MvccReader.getLoop k r (st.range .write (encode k r))).Sat T I
        (fun out st' => st' = st ∧ ReadOutcome U (view st) k r out) st := by
    intro hfree
    refine (getLoop_sat (walk_of_wf h (encode k r))).mono fun out st' hq => ⟨hq.1, ?_⟩
    exact hq.2.outcome h hfree
  simp only [MvccReader.get, Prog.sat_bind, Prog.sat_lookup, Prog.then_ok]
  cases hg : st.get .lock k with
  | none =>
      simp only [Prog.sat_bind, Prog.sat_walk, Prog.then_ok]
      refine hscan fun l hl => ?_
      rw [view_lock_none hg] at hl
      cases hl
  | some b =>
      obtain ⟨-, l, hl⟩ := h.lock k b hg
      have hview := view_lock_of_get hg hl
      simp only [hl]
      by_cases hle : l.startTs ≤ r
      · simp only [hle, if_true]
        exact ⟨rfl, l, hview, rfl, rfl, hle⟩
      · simp only [hle, if_false, Prog.sat_bind, Prog.sat_walk, Prog.then_ok]
        refine hscan fun l' hl' => ?_
        rw [hview, Option.some.injEq] at hl'
        rw [← hl']
        exact UInt64.not_le.mp hle

end AcidKv
