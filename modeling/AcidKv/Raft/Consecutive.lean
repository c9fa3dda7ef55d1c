import AcidKv.Raft.Log

/-!
# Logs with consecutive indices

Raft keeps the indices of a log consecutive, and all arithmetic of `RaftStorage` rests on that: the
position of an entry is its index less that of the first one.  Here is what the reads of the log
answer then, and what an append makes of it.
-/

namespace AcidKv.Raft

open RaftStorage

/-- The indices run from `f` on. -/
def Consecutive (f : ℕ) (es : List Entry) : Prop := ∀ i e, es[i]? = some e → e.index.toNat = f + i

@[simp] lemma consecutive_nil (f : ℕ) : Consecutive f [] := by
  intro i e hi
  simp at hi

@[simp] lemma consecutive_cons {f : ℕ} {e : Entry} {es : List Entry} :
    Consecutive f (e :: es) ↔ e.index.toNat = f ∧ Consecutive (f + 1) es := by
  constructor
  · intro h
    refine ⟨by simpa using h 0 e rfl, fun i e' hi => ?_⟩
    rw [h (i + 1) e' hi]
    omega
  · rintro ⟨he, hes⟩ (_ | i) e' hi
    · cases hi
      exact he
    · rw [hes i e' hi]
      omega

lemma Consecutive.distinct {f : ℕ} {es : List Entry} (h : Consecutive f es) : Distinct es := by
  intro e he e' he' heq
  obtain ⟨i, hi⟩ := List.mem_iff_getElem?.mp he
  obtain ⟨j, hj⟩ := List.mem_iff_getElem?.mp he'
  have hij : i = j := by
    have h₁ := h i e hi
    have h₂ := h j e' hj
    rw [heq] at h₁
    omega
  rw [hij, hj, Option.some.injEq] at hi
  exact hi.symm

/-- The entry at an index of the run. -/
lemma Consecutive.exists_mem {f : ℕ} {es : List Entry} (h : Consecutive f es) {i : UInt64}
    (hlo : f ≤ i.toNat) (hhi : i.toNat < f + es.length) : ∃ e ∈ es, e.index = i := by
  have hlt : i.toNat - f < es.length := by omega
  have hget := List.getElem?_eq_getElem hlt
  refine ⟨_, List.mem_of_getElem? hget, UInt64.toNat_inj.mp ?_⟩
  rw [h _ _ hget]
  omega

lemma Consecutive.mem_bounds {f : ℕ} {es : List Entry} (h : Consecutive f es) {e : Entry}
    (he : e ∈ es) : f ≤ e.index.toNat ∧ e.index.toNat < f + es.length := by
  obtain ⟨i, hi⟩ := List.mem_iff_getElem?.mp he
  have hlt := (List.getElem?_eq_some_iff.mp hi).1
  rw [h i e hi]
  omega

/-- The end of the run. -/
lemma Consecutive.exists_last {f : ℕ} {es : List Entry} (h : Consecutive f es) (hne : es ≠ []) :
    ∃ e ∈ es, e.index.toNat = f + es.length - 1 := by
  have hlen : 0 < es.length := List.length_pos_iff.mpr hne
  have htop := List.getElem?_eq_getElem (show es.length - 1 < es.length by omega)
  refine ⟨_, List.mem_of_getElem? htop, ?_⟩
  rw [h _ _ htop]
  omega

lemma consecutive_placeholder : Consecutive 0 [Entry.default] :=
  consecutive_cons.mpr ⟨rfl, consecutive_nil 1⟩

section Reads

variable {s : RaftStorage} {f : ℕ}

lemma first_eq_getElem? (s : RaftStorage) : s.core.entries[0]? = some s.first := by
  rw [← List.head?_eq_getElem?, List.head?_eq_some_head s.core.nonempty]
  rfl

lemma length_pos (s : RaftStorage) : 0 < s.core.entries.length :=
  List.length_pos_iff.mpr s.core.nonempty

lemma Consecutive.first (h : Consecutive f s.core.entries) : s.first.index.toNat = f := by
  simpa using h 0 s.first (first_eq_getElem? s)

lemma Consecutive.lastIndex (h : Consecutive f s.core.entries) :
    s.lastIndex.toNat + 1 = f + s.core.entries.length := by
  have hlast : s.core.entries[s.core.entries.length - 1]? = some s.last := by
    rw [← List.getLast?_eq_getElem?, List.getLast?_eq_some_getLast s.core.nonempty]
    rfl
  have hidx := h _ _ hlast
  have hpos := length_pos s
  rw [RaftStorage.lastIndex, hidx]
  omega

/-- What `term` answers. -/
lemma Consecutive.term_ok_iff (h : Consecutive f s.core.entries) {i t : UInt64} :
    s.term i = .ok t ↔ ∃ e ∈ s.core.entries, e.index = i ∧ e.term = t := by
  have hfirst := h.first
  rw [term]
  constructor
  · intro hok
    split_ifs at hok with hlt
    rw [UInt64.lt_iff_toNat_lt, hfirst, not_lt] at hlt
    have hle : s.first.index ≤ i := by rwa [UInt64.le_iff_toNat_le, hfirst]
    rw [UInt64.toNat_sub_of_le i _ hle, hfirst] at hok
    cases hget : s.core.entries[i.toNat - f]? with
    | none => simp [hget] at hok
    | some e =>
        simp only [hget, Except.ok.injEq] at hok
        refine ⟨e, List.mem_of_getElem? hget, UInt64.toNat_inj.mp ?_, hok⟩
        rw [h _ _ hget]
        omega
  · rintro ⟨e, he, rfl, rfl⟩
    obtain ⟨j, hj⟩ := List.mem_iff_getElem?.mp he
    have hidx := h j e hj
    have hlt : ¬ e.index < s.first.index := by
      rw [UInt64.lt_iff_toNat_lt, hfirst, hidx]
      omega
    have hoff : (e.index - s.first.index).toNat = j := by
      rw [UInt64.toNat_sub_of_le _ _ (UInt64.not_lt.mp hlt), hfirst, hidx]
      omega
    simp only [hlt, if_false, hoff, hj]

/-- What `entries` answers within the log. -/
lemma Consecutive.entries_eq (h : Consecutive f s.core.entries) {low high : UInt64}
    (hlow : f ≤ low.toNat) (hle : low ≤ high) (hhigh : high.toNat ≤ s.lastIndex.toNat + 1) :
    s.entries low high = if s.lastIndex + 1 < high then .error (.store .unavailable)
      else .ok ((s.core.entries.take (high.toNat - f)).drop (low.toNat - f)) := by
  have hfirst := h.first
  have hlast := h.lastIndex
  rw [UInt64.le_iff_toNat_le] at hle
  have hlt : ¬ low < s.first.index := by
    rw [UInt64.lt_iff_toNat_lt]
    omega
  have hstart : (low - s.first.index).toNat = low.toNat - f := by
    rw [UInt64.toNat_sub_of_le _ _ (UInt64.not_lt.mp hlt), hfirst]
  have hstop : (high - s.first.index).toNat = high.toNat - f := by
    rw [UInt64.toNat_sub_of_le _ _ (UInt64.le_iff_toNat_le.mpr (by omega)), hfirst]
  have hin : low.toNat - f ≤ high.toNat - f ∧ high.toNat - f ≤ s.core.entries.length := by omega
  simp only [entries, hlt, if_false, hstart, hstop, hin, and_self, if_true]
  rfl

end Reads

/-! ## Appends -/

/-- One append to a region and its store. -/
def appendStep (pb : Protobuf) (c : RaftStorage × Store) (es : List Entry) : RaftStorage × Store :=
  (RaftStorage.append pb c.1 es c.2).2

section

variable {pb : Protobuf} {st : Store} {s : RaftStorage} {b : ℕ}

/-- An append from `f` on succeeds, and replaces the log from there. -/
lemma append_run {f : ℕ} {es : List Entry} (hfirst : s.first.index.toNat = b) (hle : b ≤ f)
    (hne : es ≠ []) (hes : Consecutive f es) :
    ∃ s', RaftStorage.append pb s es st
        = (.ok (), s', st.apply (appendBatch pb s.regionId es)) ∧
      s'.regionId = s.regionId ∧ s'.core.entries = s.core.entries.take (f - b) ++ es := by
  cases es with
  | nil => exact absurd rfl hne
  | cons e rest =>
      have hidx : e.index.toNat = f := by simpa using hes 0 e rfl
      have hlt : ¬ e.index < s.first.index := by
        rw [UInt64.lt_iff_toNat_lt]
        omega
      have hdiff : (e.index - s.first.index).toNat = f - b := by
        rw [UInt64.toNat_sub_of_le _ _ (UInt64.not_lt.mp hlt), hidx, hfirst]
      simp only [RaftStorage.append, hlt, if_false]
      refine ⟨_, rfl, rfl, ?_⟩
      simp only [spliced, hdiff]
      split_ifs with hcut
      · rfl
      · rw [List.take_of_length_le (not_lt.mp hcut)]

lemma first_of_take {s' : RaftStorage} {n : ℕ} {es : List Entry} (hpos : 0 < n)
    (h : s'.core.entries = s.core.entries.take n ++ es) : s'.first = s.first := by
  have hget := first_eq_getElem? s'
  have hlen : 0 < (s.core.entries.take n).length := by
    have := length_pos s
    rw [List.length_take]
    omega
  rw [h, List.getElem?_append_left hlen, List.getElem?_take_of_lt hpos,
    first_eq_getElem? s] at hget
  exact (Option.some.inj hget).symm

lemma Consecutive.splice {f : ℕ} {old es : List Entry} (hold : Consecutive b old) (hlo : b ≤ f)
    (hhi : f ≤ b + old.length) (hes : Consecutive f es) :
    Consecutive b (old.take (f - b) ++ es) := by
  have hlen : (old.take (f - b)).length = f - b := by
    rw [List.length_take]
    omega
  intro i e hi
  by_cases hlt : i < f - b
  · rw [List.getElem?_append_left (by omega), List.getElem?_take_of_lt hlt] at hi
    exact hold i e hi
  · rw [List.getElem?_append_right (by omega), hlen] at hi
    rw [hes _ _ hi]
    omega

end

end AcidKv.Raft
