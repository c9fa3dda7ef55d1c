import AcidKv.Lib.IndexedLog
import AcidKv.Lib.Runs
import AcidKv.Raft.Consecutive

/-!
# The log in memory

`RaftStorage` keeps its log as a vector and finds an entry by the difference of its index and that
of the first one; an append cuts the vector only if it is longer than that difference.  What Raft
works with is a log by index, of which an append keeps what is below its first index.  The two stay
the same (`Refines`), and everything that Raft reads off the vector is in the log by index.
-/

namespace AcidKv.Raft

open RaftStorage

/-- The log by index: at each index the entry that carries it. -/
def RaftStorage.log (s : RaftStorage) : IndexedLog Entry where
  entry i := s.core.entries.find? fun e => e.index.toNat = i

/-- An append to a log by index. -/
def appended (log : IndexedLog Entry) : List Entry → IndexedLog Entry
  | [] => log
  | e :: es => log.replaceFrom e.index.toNat (e :: es)

/-- A batch of consecutive indices below the greatest number, that starts behind the base, within
the log or right after it. -/
def Continues (b : ℕ) (c : RaftStorage × Store) (es : List Entry) : Prop :=
  ∃ f, b < f ∧ f ≤ c.1.lastIndex.toNat + 1 ∧ Consecutive f es ∧ ∀ e ∈ es, e.index < u64Max

/-! ## One vector -/

lemma Consecutive.find?_eq {b : ℕ} {es : List Entry} (h : Consecutive b es) (i : ℕ) :
    (es.find? fun e => e.index.toNat = i) = (IndexedLog.ofList b es).entry i := by
  induction es generalizing b with
  | nil => simp [IndexedLog.ofList]
  | cons e es ih =>
      obtain ⟨he, hes⟩ := consecutive_cons.mp h
      have ih := ih hes
      simp only [IndexedLog.ofList] at ih ⊢
      rw [List.find?_cons]
      by_cases hi : e.index.toNat = i
      · simp [hi, ← he]
      · simp only [hi, decide_false, ih]
        by_cases hlt : i < b
        · simp [hlt, show i < b + 1 by omega]
        · have hpos : i - b = i - (b + 1) + 1 := by omega
          simp [hlt, show ¬ i < b + 1 by omega, hpos]

variable {pb : Protobuf} {b : ℕ} {s : RaftStorage} {st : Store} {log : IndexedLog Entry}

lemma Consecutive.log_eq (h : Consecutive b s.core.entries) :
    s.log = IndexedLog.ofList b s.core.entries :=
  IndexedLog.ext h.find?_eq

/-- A storage with consecutive indices, the log by index next to it, and room for one more index. -/
structure Refines (b : ℕ) (s : RaftStorage) (log : IndexedLog Entry) : Prop where
  indices : Consecutive b s.core.entries
  below : s.lastIndex < u64Max
  log_eq : s.log = log

namespace Refines

lemma ofList_eq (h : Refines b s log) : log = IndexedLog.ofList b s.core.entries :=
  h.log_eq.symm.trans h.indices.log_eq

lemma last_add_one (h : Refines b s log) :
    (s.lastIndex + 1).toNat = s.lastIndex.toNat + 1 := by
  have hlt := UInt64.lt_iff_toNat_lt.mp h.below
  have hmax : u64Max.toNat = 2 ^ 64 - 1 := rfl
  rw [UInt64.toNat_add]
  exact Nat.mod_eq_of_lt (by simp; omega)

lemma firstIndex (h : Refines b s log) : s.firstIndex.toNat = b + 1 := by
  have hfirst := h.indices.first
  have hlast := h.indices.lastIndex
  have hpos := length_pos s
  have hlt := UInt64.lt_iff_toNat_lt.mp h.below
  have hmax : u64Max.toNat = 2 ^ 64 - 1 := rfl
  rw [RaftStorage.firstIndex, UInt64.toNat_add, hfirst]
  exact Nat.mod_eq_of_lt (by simp; omega)

/-- The log reaches from the base to the last index. -/
lemma isSome_iff (h : Refines b s log) (i : ℕ) :
    (log.entry i).isSome ↔ b ≤ i ∧ i ≤ s.lastIndex.toNat := by
  have hlast := h.indices.lastIndex
  rw [h.ofList_eq, IndexedLog.isSome_ofList]
  omega

/-- `term` answers with that of the entry at the index. -/
lemma term_iff (h : Refines b s log) (i t : UInt64) :
    s.term i = .ok t ↔ ∃ e, log.entry i.toNat = some e ∧ e.term = t := by
  rw [h.indices.term_ok_iff, ← h.log_eq]
  constructor
  · rintro ⟨e, he, rfl, rfl⟩
    refine ⟨e, ?_, rfl⟩
    obtain ⟨e', he'⟩ : ∃ e', s.log.entry e.index.toNat = some e' := by
      rw [← Option.isSome_iff_exists]
      exact List.find?_isSome.mpr ⟨e, he, by simp⟩
    have hidx : e'.index.toNat = e.index.toNat := by simpa using List.find?_some he'
    rw [he', h.indices.distinct e' (List.mem_of_find?_eq_some he') e he (UInt64.toNat_inj.mp hidx)]
  · rintro ⟨e, he, rfl⟩
    have hidx : e.index.toNat = i.toNat := by simpa using List.find?_some he
    exact ⟨e, List.mem_of_find?_eq_some he, UInt64.toNat_inj.mp hidx, rfl⟩

/-- `entries` answers with a slice of the log, or that there is no such one yet. -/
lemma entries_eq (h : Refines b s log) {low high : UInt64} (hlow : b < low.toNat)
    (hle : low ≤ high) :
    s.entries low high = if high.toNat ≤ s.lastIndex.toNat + 1
      then .ok (log.slice low.toNat high.toNat) else .error (.store .unavailable) := by
  have hlast := h.indices.lastIndex
  have hnext := h.last_add_one
  split_ifs with hhigh
  · have hin : ¬ s.lastIndex + 1 < high := by
      rw [UInt64.lt_iff_toNat_lt, hnext]
      omega
    rw [h.indices.entries_eq (le_of_lt hlow) hle hhigh, if_neg hin, h.ofList_eq,
      IndexedLog.slice_ofList (le_of_lt hlow) (by omega)]
  · have hfirst := h.indices.first
    have hin : ¬ low < s.first.index := by
      rw [UInt64.lt_iff_toNat_lt]
      omega
    have hout : s.last.index + 1 < high := by
      rw [UInt64.lt_iff_toNat_lt]
      change (s.lastIndex + 1).toNat < _
      omega
    simp only [entries, hin, if_false, gt_iff_lt, hout, if_true]

/-- One append. -/
lemma append (h : Refines b s log) {es : List Entry} (hes : Continues b (s, st) es) :
    Refines b (appendStep pb (s, st) es).1 (appended log es) := by
  cases es with
  | nil => exact h
  | cons e es =>
      obtain ⟨f, hlo, hhi, hcons, hmax⟩ := hes
      change f ≤ s.lastIndex.toNat + 1 at hhi
      have hidx : e.index.toNat = f := (consecutive_cons.mp hcons).1
      have hlast := h.indices.lastIndex
      obtain ⟨s', hrun, -, hentries⟩ := @append_run pb st s b f (e :: es) h.indices.first
        (le_of_lt hlo) (by simp) hcons
      have hind : Consecutive b s'.core.entries := by
        rw [hentries]
        exact h.indices.splice (le_of_lt hlo) (by omega) hcons
      rw [appendStep, hrun]
      refine ⟨hind, ?_, ?_⟩
      · -- the last entry is that of the batch
        obtain ⟨e', he', hidx'⟩ := hcons.exists_last (by simp)
        have hlast' := hind.lastIndex
        rw [hentries, List.length_append, List.length_take] at hlast'
        have hsame : s'.lastIndex = e'.index := UInt64.toNat_inj.mp (by omega)
        rw [hsame]
        exact hmax e' he'
      · rw [hind.log_eq, hentries, appended, hidx, h.ofList_eq,
          IndexedLog.replaceFrom_ofList (le_of_lt hlo) (by omega)]

/-- A whole run. -/
lemma run {c : RaftStorage × Store} (h : Refines b c.1 log) {batches : List (List Entry)}
    (hok : Guarded (appendStep pb) (Continues b) c batches) :
    Refines b (batches.foldl (appendStep pb) c).1 (batches.foldl appended log) := by
  induction batches generalizing c log with
  | nil => exact h
  | cons es batches ih => exact ih (h.append hok.1) hok.2

end Refines

/-- From a storage whose indices are consecutive from `b` on, any appends that start behind `b` and
leave no gap: the log is what becomes of it as a log by index, the indices stay consecutive from `b`
on, and what `first_index`, `term` and `entries` answer is what is in the log. -/
theorem append_refines_log (pb : Protobuf) (s : RaftStorage) (st : Store) (b : ℕ)
    (hs : Consecutive b s.core.entries) (hlast : s.lastIndex < u64Max)
    (batches : List (List Entry))
    (hok : Guarded (appendStep pb) (Continues b) (s, st) batches) :
    let s' := (batches.foldl (appendStep pb) (s, st)).1
    let log := batches.foldl appended s.log
    s'.log = log ∧ Consecutive b s'.core.entries ∧ s'.firstIndex.toNat = b + 1 ∧
      (∀ i, (log.entry i).isSome ↔ b ≤ i ∧ i ≤ s'.lastIndex.toNat) ∧
      (∀ i t, s'.term i = .ok t ↔ ∃ e, log.entry i.toNat = some e ∧ e.term = t) ∧
      ∀ low high, b < low.toNat → low ≤ high →
        s'.entries low high = if high.toNat ≤ s'.lastIndex.toNat + 1
          then .ok (log.slice low.toNat high.toNat) else .error (.store .unavailable) := by
  intro s' log
  have hstart : Refines b s s.log := ⟨hs, hlast, rfl⟩
  have hrun : Refines b s' log := hstart.run hok
  exact ⟨hrun.log_eq, hrun.indices, hrun.firstIndex, hrun.isSome_iff, hrun.term_iff,
    fun low high hlow hle => hrun.entries_eq hlow hle⟩

/-- A log with the base 5 that is extended and then overwritten from 6 on. -/
theorem append_refines_log_overlap :
    let s : RaftStorage :=
      ⟨1, HardState.default, ConfState.default, [blank 1 5, blank 1 6], by simp⟩
    let s' := ([[blank 1 7, blank 1 8], [blank 2 6, blank 2 7]].foldl
      (appendStep Protobuf.plain) (s, Keyspace.empty)).1
    s'.firstIndex.toNat = 6 ∧ s'.entries 6 8 = .ok [blank 2 6, blank 2 7] ∧
      s'.entries 6 9 = .error (.store .unavailable) := by
  intro s s'
  obtain ⟨-, -, hfirst, -, -, hentries⟩ := append_refines_log Protobuf.plain s Keyspace.empty 5
    (by simp [s, blank]) (by decide) [[blank 1 7, blank 1 8], [blank 2 6, blank 2 7]]
    ⟨⟨7, by decide, by decide, by simp [blank], by decide⟩,
      ⟨6, by decide, by decide, by simp [blank], by decide⟩, trivial⟩
  refine ⟨hfirst, (hentries 6 8 (by decide) (by decide)).trans (by decide),
    (hentries 6 9 (by decide) (by decide)).trans (by decide)⟩

end AcidKv.Raft
