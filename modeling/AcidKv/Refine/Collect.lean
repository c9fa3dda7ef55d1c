import AcidKv.Abstract.Versions
import AcidKv.Refine.Reads

/-!
# Garbage collection as a move

`gc_keys_older_than` walks the whole write partition with two loop variables, the last user key
and whether a version of it below the safe point has gone by.  Where the versions of a key are not
contiguous the second variable starts afresh, so the walk keeps more than one version below the
safe point; in no case does it remove one without keeping a newer one.

That much is the move of a collection.  `View.collect` is the exact view it leaves: `Obsolete` says
which versions go, and with each of them goes the value staged under the start of its record.
-/

namespace AcidKv

open KeyEncoder StorageEngine

section Loop

variable {sp : UInt64} {last : Option Bytes} {seen : Bool} {items : List (Bytes × Bytes)}

/-- One entry of the walk, in terms of what it stands for. -/
lemma gcLoop_cons {k b : Bytes} {ts : UInt64} {w : WriteRecord}
    (hw : WriteRecord.fromBytes b = some w) :
    (gcLoop sp last seen ((encode k ts, b) :: items)).1 =
      if ts < sp then
        if last = some k ∧ seen then
          .remove .write (encode k ts) :: .remove .default (encode k w.startTs) ::
            (gcLoop sp (some k) true items).1
        else (gcLoop sp (some k) true items).1
      else (gcLoop sp (some k) (decide (last = some k) && seen) items).1 := by
  simp only [gcLoop, decode_encode, hw]
  by_cases hlast : last = some k <;> cases seen <;> by_cases hts : ts < sp <;> simp [hlast, hts]

/-- The loop only removes: versions of the walk below the safe point, and with such a version the
value it points to. -/
lemma gcLoop_items (h : Walk items) {i : BatchItem Part Bytes Bytes}
    (hi : i ∈ (gcLoop sp last seen items).1) :
    ∃ k ts b w, (encode k ts, b) ∈ items ∧ WriteRecord.fromBytes b = some w ∧ ts < sp ∧
      .remove .write (encode k ts) ∈ (gcLoop sp last seen items).1 ∧
      (i = .remove .write (encode k ts) ∨ i = .remove .default (encode k w.startTs)) := by
  rw [gcLoop_eq] at hi ⊢
  obtain ⟨⟨e, b⟩, hx, hi⟩ := List.mem_flatMap.mp hi
  have hm := Sift.gone_subset _ _ _ hx
  obtain ⟨k, ts, w, he, hw⟩ := h.decodes _ hm
  simp only at he hw
  subst he
  have hlt : ts < sp := by
    obtain ⟨s, hgoes⟩ := Sift.exists_goes _ hx
    simp only [gcSift, decode_encode, decide_eq_true_eq] at hgoes
    exact hgoes.1
  refine ⟨k, ts, b, w, hm, hw, hlt, remove_write_mem_flatMap.mpr ⟨b, hx⟩, ?_⟩
  rcases mem_gcItems.mp hi with rfl | ⟨k', ts', w', hdec, hw', rfl⟩
  · exact Or.inl rfl
  · rw [decode_encode] at hdec
    cases hdec
    rw [hw] at hw'
    cases hw'
    exact Or.inr rfl

lemma gcLoop_removes : ∀ i ∈ (gcLoop sp last seen items).1, ∃ p k, i = .remove p k := by
  rw [gcLoop_eq]
  exact removes_flatMap _

lemma not_mem_gcLoop_lock (k : Bytes) : .remove .lock k ∉ (gcLoop sp last seen items).1 := by
  intro hi
  obtain ⟨_, -, heq | ⟨_, _, _, -, -, heq⟩⟩ := mem_gcLoop hi
  · cases heq
  · cases heq

/-- What is removed from the rest of a walk is not the head's version. -/
lemma not_mem_gcLoop_of_head {k b : Bytes} {ts : UInt64} (h : Walk ((encode k ts, b) :: items)) :
    .remove .write (encode k ts) ∉ (gcLoop sp last seen items).1 := by
  intro hi
  rw [gcLoop_eq] at hi
  obtain ⟨b', hgone⟩ := remove_write_mem_flatMap.mp hi
  have hlt := (List.pairwise_cons.mp h.sorted).1 _ (Sift.gone_subset _ _ _ hgone)
  exact List.lt_irrefl _ hlt

/-- A removed version leaves a newer one below the safe point behind: one of the walk, or the one
that the loop variables stand for. -/
lemma gcLoop_keeps (h : Walk items) {k : Bytes} {ts : UInt64}
    (hi : .remove .write (encode k ts) ∈ (gcLoop sp last seen items).1) :
    (last = some k ∧ seen = true) ∨ ∃ ts' b', (encode k ts', b') ∈ items ∧ ts < ts' ∧ ts' < sp ∧
      .remove .write (encode k ts') ∉ (gcLoop sp last seen items).1 := by
  induction h using Walk.induction generalizing last seen with
  | nil _ => simp [gcLoop] at hi
  | cons k' ts' b w items h hw ih =>
      have hnot := fun last seen => @not_mem_gcLoop_of_head sp last seen items k' b ts' h
      rw [gcLoop_cons hw] at hi ⊢
      split_ifs at hi ⊢ with hts hseen
      · rw [List.mem_cons, List.mem_cons] at hi
        rcases hi with heq | heq | hi
        · simp only [BatchItem.remove.injEq, true_and, encode_inj] at heq
          exact Or.inl ⟨heq.1 ▸ hseen.1, hseen.2⟩
        · simp at heq
        · rcases ih hi with ⟨hk, -⟩ | ⟨ts₂, b₂, hm, hlt, hsp, hkept⟩
          · cases hk
            exact Or.inl hseen
          · refine Or.inr ⟨ts₂, b₂, List.mem_cons_of_mem _ hm, hlt, hsp, ?_⟩
            have hne : encode k ts₂ ≠ encode k' ts' := by
              intro heq
              have hlt' := (List.pairwise_cons.mp h.sorted).1 _ hm
              simp only at hlt'
              rw [heq] at hlt'
              exact List.lt_irrefl _ hlt'
            simp [hne, hkept]
      · -- the first version of its key below the safe point: it stays, for all that follow
        rcases ih hi with ⟨hk, -⟩ | ⟨ts₂, b₂, hm, hlt, hsp, hkept⟩
        · cases hk
          obtain ⟨k₂, ts₂, b₂, w₂, hm, -, -, -, heq | heq⟩ := gcLoop_items h.tail hi
          · simp only [BatchItem.remove.injEq, true_and, encode_inj] at heq
            obtain ⟨rfl, rfl⟩ := heq
            have hlt := encode_lt_encode_same.mp ((List.pairwise_cons.mp h.sorted).1 _ hm)
            exact Or.inr ⟨ts', b, List.mem_cons_self, hlt, hts, hnot _ _⟩
          · simp at heq
        · exact Or.inr ⟨ts₂, b₂, List.mem_cons_of_mem _ hm, hlt, hsp, hkept⟩
      · rcases ih hi with ⟨hk, hs⟩ | ⟨ts₂, b₂, hm, hlt, hsp, hkept⟩
        · cases hk
          simp only [Bool.and_eq_true, decide_eq_true_eq] at hs
          exact Or.inl hs
        · exact Or.inr ⟨ts₂, b₂, List.mem_cons_of_mem _ hm, hlt, hsp, hkept⟩

end Loop

section

variable {U : Set Bytes} {T : UInt64 → Prop} {c : Call} {v₀ : View} {st : Store}

lemma WF.removes (h : WF U st) {b : Batch} (hb : ∀ i ∈ b, ∃ p k, i = .remove p k) :
    WF U (st.apply b) := by
  induction b generalizing st with
  | nil => exact h
  | cons i b ih =>
      obtain ⟨p, k, rfl⟩ := hb i List.mem_cons_self
      exact ih (h.remove p k) fun j hj => hb j (List.mem_cons_of_mem _ hj)

/-- The batch of a collection is one move. -/
lemma Along.collect (h : WF U st) {sp : UInt64} (hc : c = .gc sp) :
    Along U T c v₀ (view st) (st.apply (gcLoop sp none false (st.range .write [])).1) := by
  have hwalk := walk_of_wf h []
  have hget := Keyspace.get_apply_removes (@gcLoop_removes sp none false (st.range .write [])) st
  have hsub : ∀ p k x, (st.apply (gcLoop sp none false (st.range .write [])).1).get p k = some x →
      st.get p k = some x := by
    intro p k x hx
    by_cases hm : BatchItem.remove p k ∈ (gcLoop sp none false (st.range .write [])).1
    · rw [(hget p k).1 hm] at hx
      cases hx
    · rwa [(hget p k).2 hm] at hx
  have hkeep : ∀ k ts b w, st.get .write (encode k ts) = some b → WriteRecord.fromBytes b = some w →
      BatchItem.remove .write (encode k ts) ∉ (gcLoop sp none false (st.range .write [])).1 →
      (view (st.apply (gcLoop sp none false (st.range .write [])).1)).write k ts = some w := by
    intro k ts b w hb hw hm
    refine view_write_of_get ?_ hw
    rwa [(hget _ _).2 hm]
  refine ⟨h.removes gcLoop_removes, .single (.collect hc ?_ ?_ ?_ ?_)⟩
  · funext k
    simp only [view, (hget _ _).2 (not_mem_gcLoop_lock k)]
  · intro k ts w hw
    obtain ⟨b, hb, hbw⟩ := view_write_some hw
    exact view_write_of_get (hsub _ _ _ hb) hbw
  · intro k ts w hw
    obtain ⟨b, hb, hbw⟩ := view_write_some hw
    by_cases hm : BatchItem.remove .write (encode k ts) ∈
        (gcLoop sp none false (st.range .write [])).1
    · right
      obtain ⟨k', ts', b', w', -, -, hlt, -, heq | heq⟩ := gcLoop_items hwalk hm
      · simp only [BatchItem.remove.injEq, true_and, encode_inj] at heq
        refine ⟨heq.2 ▸ hlt, ?_⟩
        rcases gcLoop_keeps hwalk hm with ⟨hk, -⟩ | ⟨ts₂, b₂, hm₂, hlt₂, hsp₂, hkept⟩
        · cases hk
        · obtain ⟨k₂', ts₂', w₂, he, hw₂⟩ := hwalk.decodes _ hm₂
          exact ⟨ts₂, w₂, hlt₂, hsp₂, hkeep k ts₂ b₂ w₂ (mem_range_nil.mp hm₂) hw₂ hkept⟩
      · simp at heq
    · exact Or.inl (hkeep k ts b w hb hbw hm)
  · intro k s x hx
    exact hsub _ _ _ hx

theorem gcKeysOlderThan_sat (h : WF U st) {ε : Type} {sp : UInt64} (hc : c = .gc sp) :
    (gcKeysOlderThan sp : Handler ε ℕ).Sat T (Along U T c v₀ (view st))
      (fun _ st' => Along U T c v₀ (view st) st') st := by
  simp only [gcKeysOlderThan, Prog.sat_bind, Prog.sat_walk, Prog.then_ok]
  split_ifs
  · have halong : Along U T c v₀ (view st) _ := .collect h hc
    exact ⟨halong, halong⟩
  · exact .refl h

end

/-! ## What exactly is collected -/

section Exact

variable {sp : UInt64} {last : Option Bytes} {seen : Bool} {items : List (Bytes × Bytes)}

lemma mem_gcLoop_cons {k b : Bytes} {ts : UInt64} {w : WriteRecord}
    (hw : WriteRecord.fromBytes b = some w) {i : BatchItem Part Bytes Bytes} :
    i ∈ (gcLoop sp last seen ((encode k ts, b) :: items)).1 ↔
      (ts < sp ∧ last = some k ∧ seen = true ∧
        (i = .remove .write (encode k ts) ∨ i = .remove .default (encode k w.startTs))) ∨
      i ∈ (gcLoop sp (some k) (decide (ts < sp) || (decide (last = some k) && seen)) items).1 := by
  rw [gcLoop_cons hw]
  by_cases hts : ts < sp <;> by_cases hlast : last = some k <;> cases seen <;>
    simp [hts, hlast, or_assoc]

/-- Right before the version of `k` at `ts` comes another version of `k` below the safe point; the
loop variables may stand for it. -/
def Superseded (sp : UInt64) (last : Option Bytes) (seen : Bool) (k : Bytes)
    (items : List (Bytes × Bytes)) (ts : UInt64) : Prop :=
  (last = some k ∧ seen = true ∧ Reaches k items ts) ∨
    ∃ ts' b', (encode k ts', b') ∈ items ∧ ts < ts' ∧ ts' < sp ∧
      ∀ x ∈ items, encode k ts' < x.1 → x.1 < encode k ts → ∃ t, x.1 = encode k t

/-- Nothing of the list comes before its head. -/
lemma superseded_head {k b : Bytes} {t : UInt64} (h : Walk ((encode k t, b) :: items)) :
    Superseded sp last seen k ((encode k t, b) :: items) t ↔ last = some k ∧ seen = true := by
  have hsorted := (List.pairwise_cons.mp h.sorted).1
  constructor
  · rintro (⟨hlast, hseen, -⟩ | ⟨ts', b', hm, hlt, -, -⟩)
    · exact ⟨hlast, hseen⟩
    · exfalso
      rcases List.mem_cons.mp hm with heq | hm
      · simp only [Prod.mk.injEq, encode_inj, true_and] at heq
        exact UInt64.lt_irrefl _ (heq.1 ▸ hlt)
      · exact UInt64.lt_asymm hlt (encode_lt_encode_same.mp (hsorted _ hm))
  · rintro ⟨hlast, hseen⟩
    refine Or.inl ⟨hlast, hseen, ?_⟩
    rw [Reaches.cons_iff]
    intro x hx hlt
    exact absurd (hsorted x hx) (Std.not_lt.mpr (Std.le_of_lt hlt))

/-- Past the head, the loop variables stand for it. -/
lemma superseded_cons {k k' b b₁ : Bytes} {t ts : UInt64} (h : Walk ((encode k' t, b) :: items))
    (hm₁ : (encode k ts, b₁) ∈ items) :
    Superseded sp last seen k ((encode k' t, b) :: items) ts ↔
      Superseded sp (some k') (decide (t < sp) || (decide (last = some k') && seen)) k items ts := by
  have hsorted := (List.pairwise_cons.mp h.sorted).1
  have hlt₁ : encode k' t < encode k ts := hsorted _ hm₁
  constructor
  · rintro (⟨hlast, hseen, hreach⟩ | ⟨ts', b', hm, hlt, hsp', hbetween⟩)
    · obtain ⟨t', ht'⟩ := hreach _ List.mem_cons_self hlt₁
      obtain ⟨rfl, rfl⟩ := encode_inj.mp ht'
      exact Or.inl ⟨rfl, by simp [hlast, hseen], hreach.tail⟩
    · rcases List.mem_cons.mp hm with heq | hm
      · simp only [Prod.mk.injEq, encode_inj] at heq
        obtain ⟨⟨rfl, rfl⟩, -⟩ := heq
        refine Or.inl ⟨rfl, by simp [hsp'], ?_⟩
        intro x hx hhi
        exact hbetween x (List.mem_cons_of_mem _ hx) (hsorted x hx) hhi
      · exact Or.inr ⟨ts', b', hm, hlt, hsp', fun x hx =>
          hbetween x (List.mem_cons_of_mem _ hx)⟩
  · rintro (⟨hk, hseen, hreach⟩ | ⟨ts', b', hm, hlt, hsp', hbetween⟩)
    · cases hk
      by_cases hts : t < sp
      · refine Or.inr ⟨t, b, List.mem_cons_self, encode_lt_encode_same.mp hlt₁, hts, ?_⟩
        intro x hx hlo hhi
        rcases List.mem_cons.mp hx with rfl | hx
        · exact ⟨t, rfl⟩
        · exact hreach x hx hhi
      · simp only [hts, decide_false, Bool.false_or, Bool.and_eq_true, decide_eq_true_eq] at hseen
        exact Or.inl ⟨hseen.1, hseen.2, Reaches.cons_iff.mpr hreach⟩
    · refine Or.inr ⟨ts', b', List.mem_cons_of_mem _ hm, hlt, hsp', ?_⟩
      intro x hx hlo hhi
      rcases List.mem_cons.mp hx with rfl | hx
      · exact absurd (hsorted _ hm) (Std.not_lt.mpr (Std.le_of_lt hlo))
      · exact hbetween x hx hlo hhi

/-- A version goes if it is below the safe point and comes right after another such version of its
key. -/
theorem mem_gcLoop_iff (h : Walk items) {k : Bytes} {ts : UInt64} :
    .remove .write (encode k ts) ∈ (gcLoop sp last seen items).1 ↔
      (∃ b, (encode k ts, b) ∈ items) ∧ ts < sp ∧ Superseded sp last seen k items ts := by
  induction h using Walk.induction generalizing last seen with
  | nil _ => simp [gcLoop]
  | cons k' t b w items h hw ih =>
      rw [mem_gcLoop_cons hw]
      by_cases hhead : k' = k ∧ t = ts
      · -- the head itself: only the loop variables can speak against it
        obtain ⟨rfl, rfl⟩ := hhead
        have hnot := @not_mem_gcLoop_of_head sp (some k')
          (decide (t < sp) || (decide (last = some k') && seen)) items k' b t h
        rw [superseded_head h, or_iff_left hnot]
        constructor
        · rintro ⟨hts, hlast, hseen, -⟩
          exact ⟨⟨b, List.mem_cons_self⟩, hts, hlast, hseen⟩
        · rintro ⟨-, hts, hlast, hseen⟩
          exact ⟨hts, hlast, hseen, Or.inl rfl⟩
      · have hne : encode k ts ≠ encode k' t := fun heq =>
          hhead ⟨(encode_inj.mp heq).1.symm, (encode_inj.mp heq).2.symm⟩
        have hmem : (∃ b', (encode k ts, b') ∈ (encode k' t, b) :: items) ↔
            ∃ b', (encode k ts, b') ∈ items := by simp [hne]
        rw [hmem, or_iff_right (by simp [hne]), ih]
        refine and_congr_right ?_
        rintro ⟨b₁, hm₁⟩
        exact and_congr_right fun _ => (superseded_cons h hm₁).symm

/-- With a version goes the value its record points to. -/
lemma mem_gcLoop_default (h : Walk items) {k b : Bytes} {ts : UInt64} {w : WriteRecord}
    (hm : (encode k ts, b) ∈ items) (hb : WriteRecord.fromBytes b = some w)
    (hi : .remove .write (encode k ts) ∈ (gcLoop sp last seen items).1) :
    .remove .default (encode k w.startTs) ∈ (gcLoop sp last seen items).1 := by
  rw [gcLoop_eq] at hi ⊢
  obtain ⟨b', hgone⟩ := remove_write_mem_flatMap.mp hi
  obtain rfl : b' = b := h.unique (Sift.gone_subset _ _ _ hgone) hm
  exact List.mem_flatMap.mpr
    ⟨_, hgone, mem_gcItems.mpr (Or.inr ⟨k, ts, w, decode_encode k ts, hb, rfl⟩)⟩

lemma gcKeysOlderThan_run {ε : Type} (clock : ℕ → UInt64) (st : Store) :
    ((gcKeysOlderThan sp : Handler ε ℕ).run clock st).2
      = st.apply (gcLoop sp none false (st.range .write [])).1 := by
  rw [run_gcKeysOlderThan, gcLoop_eq]
  rfl

end Exact

/-- A version of `k` that goes: it is below the safe point, as is a newer version of `k` with
nothing of another key in between. -/
def Obsolete (v : View) (sp : UInt64) (k : Bytes) (ts : UInt64) : Prop :=
  ts < sp ∧ ∃ ts' w', ts < ts' ∧ ts' < sp ∧ v.write k ts' = some w' ∧
    ∀ k' t w, v.write k' t = some w → encode k ts' < encode k' t → encode k' t < encode k ts →
      k' = k

/-- A record of `s` on `k` goes, and with it the value of `k` staged under `s`. -/
def Unstaged (v : View) (sp : UInt64) (k : Bytes) (s : UInt64) : Prop :=
  ∃ ts op, v.write k ts = some ⟨s, op⟩ ∧ Obsolete v sp k ts

open Classical in
/-- Garbage collection, on views. -/
noncomputable def View.collect (v : View) (sp : UInt64) : View where
  lock := v.lock
  write k ts := if Obsolete v sp k ts then none else v.write k ts
  data k s := if Unstaged v sp k s then none else v.data k s

section

variable {U : Set Bytes} {st : Store} {sp : UInt64}

lemma mem_gcLoop_iff_obsolete (h : WF U st) {k : Bytes} {ts : UInt64} {w : WriteRecord}
    (hw : (view st).write k ts = some w) :
    .remove .write (encode k ts) ∈ (gcLoop sp none false (st.range .write [])).1 ↔
      Obsolete (view st) sp k ts := by
  have hmem : ∀ {k : Bytes} {ts : UInt64} {w : WriteRecord}, (view st).write k ts = some w →
      ∃ b, (encode k ts, b) ∈ st.range .write [] := by
    intro k ts w hw
    obtain ⟨b, hb, -⟩ := view_write_some hw
    exact ⟨b, mem_range_nil.mpr hb⟩
  have hwrite : ∀ {e b : Bytes}, (e, b) ∈ st.range .write [] →
      ∃ k ts w, e = encode k ts ∧ (view st).write k ts = some w := by
    intro e b hm
    obtain ⟨k, ts, w, he, hb⟩ := (walk_of_wf h []).decodes _ hm
    simp only at he
    subst he
    exact ⟨k, ts, w, rfl, write_of_mem_walk hm hb⟩
  rw [mem_gcLoop_iff (walk_of_wf h [])]
  constructor
  · rintro ⟨-, hsp, ⟨hnone, -⟩ | ⟨ts', b', hm, hlt, hsp', hbetween⟩⟩
    · cases hnone
    · obtain ⟨k₂, ts₂, w', he, hw'⟩ := hwrite hm
      obtain ⟨rfl, rfl⟩ := encode_inj.mp he
      refine ⟨hsp, ts', w', hlt, hsp', hw', ?_⟩
      intro k' t w hw hlo hhi
      obtain ⟨b, hb⟩ := hmem hw
      obtain ⟨t', ht'⟩ := hbetween _ hb hlo hhi
      exact (encode_inj.mp ht').1
  · rintro ⟨hsp, ts', w', hlt, hsp', hw', hbetween⟩
    obtain ⟨b', hb'⟩ := hmem hw'
    refine ⟨hmem hw, hsp, Or.inr ⟨ts', b', hb', hlt, hsp', ?_⟩⟩
    rintro ⟨e, b⟩ hx hlo hhi
    obtain ⟨k', t, w₂, he, hw₂⟩ := hwrite hx
    simp only at he hlo hhi ⊢
    subst he
    exact ⟨t, by rw [hbetween k' t w₂ hw₂ hlo hhi]⟩

lemma mem_gcLoop_iff_unstaged (h : WF U st) {k : Bytes} {s : UInt64} :
    .remove .default (encode k s) ∈ (gcLoop sp none false (st.range .write [])).1 ↔
      Unstaged (view st) sp k s := by
  constructor
  · intro hi
    obtain ⟨k', ts, b, w, hm, hb, -, hrem, heq | heq⟩ := gcLoop_items (walk_of_wf h []) hi
    · simp at heq
    · simp only [BatchItem.remove.injEq, true_and, encode_inj] at heq
      obtain ⟨rfl, rfl⟩ := heq
      have hw := write_of_mem_walk hm hb
      exact ⟨ts, w.op, hw, (mem_gcLoop_iff_obsolete h hw).mp hrem⟩
  · rintro ⟨ts, op, hw, hobs⟩
    obtain ⟨b, hb, hbw⟩ := view_write_some hw
    have hm : (encode k ts, b) ∈ st.range .write [] := mem_range_nil.mpr hb
    have hrem := mem_gcLoop_default (walk_of_wf h []) hm hbw
      ((mem_gcLoop_iff_obsolete h hw).mpr hobs)
    exact hrem

/-- A collection leaves exactly what `View.collect` says. -/
theorem view_gc (h : WF U st) {ε : Type} (clock : ℕ → UInt64) :
    view ((gcKeysOlderThan sp : Handler ε ℕ).run clock st).2 = (view st).collect sp := by
  have hwalk := walk_of_wf h []
  have hget := Keyspace.get_apply_removes (@gcLoop_removes sp none false (st.range .write [])) st
  rw [gcKeysOlderThan_run]
  ext1
  · funext k
    simp only [view, View.collect, (hget _ _).2 (not_mem_gcLoop_lock k)]
  · funext k ts
    simp only [View.collect]
    cases hw : (view st).write k ts with
    | none =>
        rw [ite_self, Option.eq_none_iff_forall_ne_some]
        intro w hw'
        obtain ⟨b, hb, hbw⟩ := view_write_some hw'
        by_cases hm : BatchItem.remove .write (encode k ts) ∈
            (gcLoop sp none false (st.range .write [])).1
        · rw [(hget _ _).1 hm] at hb
          cases hb
        · rw [(hget _ _).2 hm] at hb
          rw [view_write_of_get hb hbw] at hw
          cases hw
    | some w =>
        rw [← mem_gcLoop_iff_obsolete h hw]
        obtain ⟨b, hb, hbw⟩ := view_write_some hw
        split_ifs with hm
        · simp [view, (hget _ _).1 hm]
        · exact view_write_of_get (by rw [(hget _ _).2 hm, hb]) hbw
  · funext k s
    simp only [View.collect]
    split_ifs with hu
    · exact (hget _ _).1 ((mem_gcLoop_iff_unstaged h).mpr hu)
    · exact (hget _ _).2 fun hm => hu ((mem_gcLoop_iff_unstaged h).mp hm)

lemma WF.gc (h : WF U st) {ε : Type} (clock : ℕ → UInt64) :
    WF U ((gcKeysOlderThan sp : Handler ε ℕ).run clock st).2 := by
  rw [gcKeysOlderThan_run]
  exact h.removes gcLoop_removes

end

end AcidKv
