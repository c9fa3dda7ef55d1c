import AcidKv.Lib.Runs
import AcidKv.Raft.Consecutive

/-!
# Reopening a Raft log

Appends to a fresh region followed by `RaftStorage.new` on what they have left on disk.  An append
cuts the log in memory where it starts and goes on from there; on disk it overwrites what has the
same index and leaves the rest.  So the disk holds, at every index that was ever appended, the
entry that came last, and the log in memory is an initial piece of that (`Logged`).

Two things come back differently.  Entries behind the end of a log that was cut back return with
the next start, and the placeholder in front of the log, which is not on disk, does not.
-/

namespace AcidKv.Raft

open RaftStorage

/-! ## Memory and disk -/

/-- Memory and disk after appends to a fresh region, with `n` the highest index so far: the disk
holds the indices from one to `n`, and the log in memory is an initial piece of them behind the
placeholder. -/
structure Logged (pb : Protobuf) (r : UInt64) (n : ℕ) (s : RaftStorage) (st : Store) : Prop where
  region : s.regionId = r
  filed : Filed pb st r
  stored : ∀ i, (onDisk pb st r i).isSome ↔ 0 < i.toNat ∧ i.toNat ≤ n
  bound : n < 2 ^ 64
  placeholder : s.first = Entry.default
  indices : Consecutive 0 s.core.entries
  kept : ∀ e ∈ s.core.entries, 0 < e.index.toNat → onDisk pb st r e.index = some e
  le : s.lastIndex.toNat ≤ n

section

variable {pb : Protobuf} {st : Store} {r : UInt64} {n : ℕ} {s : RaftStorage}

lemma FreshRegion.logged (h : FreshRegion st r) (pb : Protobuf) :
    Logged pb r 0 (RaftStorage.new pb st r) st := by
  have hentries := h.entries_eq pb
  have hfirst : (RaftStorage.new pb st r).first = Entry.default := by
    have hget := first_eq_getElem? (RaftStorage.new pb st r)
    rw [hentries] at hget
    exact (Option.some.inj hget).symm
  have hind : Consecutive 0 (RaftStorage.new pb st r).core.entries := by
    rw [hentries]
    exact consecutive_placeholder
  refine ⟨rfl, h.filed pb, fun i => ?_, by decide, hfirst, hind, fun e he hpos => ?_, ?_⟩
  · rw [h.onDisk_eq_none pb]
    simp
    omega
  · rw [hentries, List.mem_singleton] at he
    rw [he] at hpos
    cases hpos
  · have hlast := hind.lastIndex
    rw [hentries] at hlast
    simp at hlast
    omega

/-- An append adds its indices to those on disk. -/
lemma stored_append (hstored : ∀ i, (onDisk pb st r i).isSome ↔ 0 < i.toNat ∧ i.toNat ≤ n) {f : ℕ}
    {es : List Entry} (hpos : 0 < f) (hle : f ≤ n + 1) (hes : Consecutive f es) (i : UInt64) :
    (onDisk pb (st.apply (appendBatch pb r es)) r i).isSome ↔
      0 < i.toNat ∧ i.toNat ≤ max n (f + es.length - 1) := by
  by_cases hmem : ∃ e ∈ es, e.index = i
  · obtain ⟨e, he, rfl⟩ := hmem
    have hbounds := hes.mem_bounds he
    rw [onDisk_append, hes.distinct.lastAt_eq he, Option.some_or]
    simp only [Option.isSome_some, true_iff]
    omega
  · have hout : ¬ (f ≤ i.toNat ∧ i.toNat < f + es.length) :=
      fun hin => hmem (hes.exists_mem hin.1 hin.2)
    rw [onDisk_append, lastAt_eq_none.mpr fun e he heq => hmem ⟨e, he, heq⟩, Option.none_or,
      hstored]
    omega

/-- What is in the log after an append is on disk. -/
lemma kept_append {f : ℕ} {old es : List Entry} (hes : Consecutive f es)
    (hnew : Consecutive 0 (old.take f ++ es))
    (hkept : ∀ e ∈ old, 0 < e.index.toNat → onDisk pb st r e.index = some e) {e : Entry}
    (he : e ∈ old.take f ++ es) (hpos : 0 < e.index.toNat) :
    onDisk pb (st.apply (appendBatch pb r es)) r e.index = some e := by
  by_cases hmem : ∃ e' ∈ es, e'.index = e.index
  · obtain ⟨e', he', heq⟩ := hmem
    -- the one with this index in the new log is the one that was appended
    rw [← hnew.distinct e' (List.mem_append_right _ he') e he heq]
    rw [onDisk_append, hes.distinct.lastAt_eq he', Option.some_or]
  · rw [onDisk_append, lastAt_eq_none.mpr fun e' he' heq => hmem ⟨e', he', heq⟩, Option.none_or]
    rcases List.mem_append.mp he with he | he
    · exact hkept e (List.mem_of_mem_take he) hpos
    · exact absurd ⟨e, he, rfl⟩ hmem

/-- One append, in the middle of the log or at its end. -/
lemma Logged.append (h : Logged pb r n s st) {f : ℕ} {es : List Entry} (hne : es ≠ [])
    (hpos : 0 < f) (hle : f ≤ s.lastIndex.toNat + 1) (hes : Consecutive f es) :
    (RaftStorage.append pb s es st).2.1.core.entries = s.core.entries.take f ++ es ∧
      Logged pb r (max n (f + es.length - 1)) (RaftStorage.append pb s es st).2.1
        (RaftStorage.append pb s es st).2.2 := by
  have hlast := h.indices.lastIndex
  obtain ⟨s', hrun, hregion, hentries⟩ :=
    @append_run pb st s 0 f es h.indices.first (Nat.zero_le f) hne hes
  rw [Nat.sub_zero] at hentries
  rw [hrun, h.region]
  simp only
  have hle' := h.le
  have hind : Consecutive 0 (s.core.entries.take f ++ es) :=
    h.indices.splice (Nat.zero_le f) (by omega) hes
  refine ⟨hentries, hregion.trans h.region, h.filed.append es,
    stored_append h.stored hpos (by omega) hes, ?_,
    (first_of_take hpos hentries).trans h.placeholder, hentries ▸ hind, fun e he hepos => ?_, ?_⟩
  · obtain ⟨e, -, hidx⟩ := hes.exists_last hne
    have hfit := e.index.toNat_lt
    have hbound := h.bound
    omega
  · rw [hentries] at he
    exact kept_append hes hind h.kept he hepos
  · rw [← hentries] at hind
    have hlast' := hind.lastIndex
    rw [hentries, List.length_append, List.length_take] at hlast'
    omega

/-- The indices that are read back. -/
lemma Logged.logOf_consecutive (h : Logged pb r n s st) :
    (logOf pb st r).length = n ∧ Consecutive 1 (logOf pb st r) := by
  have hmap : (logOf pb st r).map (fun e => e.index.toNat) = List.range' 1 n := by
    refine List.Pairwise.eq_of_mem_iff (r := (· < ·)) ?_ ?_ fun a => ?_
    · exact List.pairwise_map.mpr (h.filed.logOf_sorted.imp UInt64.lt_iff_toNat_lt.mp)
    · exact List.pairwise_lt_range'
    · rw [List.mem_map, List.mem_range'_1]
      constructor
      · rintro ⟨e, he, rfl⟩
        have hsome := (h.stored e.index).mp (by rw [h.filed.mem_logOf.mp he]; rfl)
        omega
      · rintro ⟨hlo, hhi⟩
        have hbound := h.bound
        have hnat : (UInt64.ofNat a).toNat = a :=
          UInt64.toNat_ofNat_of_lt' (show a < 2 ^ 64 by omega)
        have hsome := (h.stored (UInt64.ofNat a)).mpr (by rw [hnat]; omega)
        obtain ⟨e, he⟩ := Option.isSome_iff_exists.mp hsome
        have hidx := h.filed.index_eq he
        refine ⟨e, h.filed.mem_logOf.mpr (hidx ▸ he), ?_⟩
        rw [hidx, hnat]
  constructor
  · have hlen := congrArg List.length hmap
    simpa using hlen
  · intro i e hi
    have hget := congrArg (fun l => l[i]?) hmap
    simp only [List.getElem?_map, hi, Option.map_some] at hget
    have hlt : i < (List.range' 1 n).length := by
      rw [← hmap, List.length_map]
      exact (List.getElem?_eq_some_iff.mp hi).1
    rw [List.getElem?_eq_getElem hlt, List.getElem_range', Option.some.injEq] at hget
    omega

/-- The reopened log: the placeholder only if nothing was appended. -/
lemma Logged.reopened (h : Logged pb r n s st) :
    (RaftStorage.new pb st r).core.entries = (if n = 0 then [Entry.default] else logOf pb st r) ∧
      Consecutive (if n = 0 then 0 else 1) (RaftStorage.new pb st r).core.entries := by
  obtain ⟨hlen, hcons⟩ := h.logOf_consecutive
  change orDummy (logOf pb st r) = _ ∧ Consecutive _ (orDummy (logOf pb st r))
  cases hlog : logOf pb st r with
  | nil =>
      rw [hlog] at hlen
      simp only [← hlen, List.length_nil, if_true]
      exact ⟨rfl, consecutive_placeholder⟩
  | cons e es =>
      rw [hlog] at hlen hcons
      have hn : n ≠ 0 := by rw [← hlen]; simp
      simp only [hn, if_false]
      exact ⟨rfl, hcons⟩

/-- Reopening finds the highest index that was ever appended. -/
lemma Logged.reopened_lastIndex (h : Logged pb r n s st) :
    (RaftStorage.new pb st r).lastIndex.toNat = n := by
  obtain ⟨hentries, hcons⟩ := h.reopened
  have hlen := h.logOf_consecutive.1
  have hlast := hcons.lastIndex
  rw [hentries] at hlast
  split_ifs at hlast with hn
  · simp only [List.length_singleton] at hlast
    omega
  · omega

/-- An entry of the reopened log is the placeholder or on disk. -/
lemma Logged.mem_reopened (h : Logged pb r n s st) {e : Entry}
    (he : e ∈ (RaftStorage.new pb st r).core.entries) :
    e = Entry.default ∧ n = 0 ∨ onDisk pb st r e.index = some e := by
  rw [h.reopened.1] at he
  split_ifs at he with hn
  · exact Or.inl ⟨List.mem_singleton.mp he, hn⟩
  · exact Or.inr (h.filed.mem_logOf.mp he)

/-- Where both logs answer they answer the same. -/
lemma Logged.term_agrees (h : Logged pb r n s st) {i t t' : UInt64} (ht : s.term i = .ok t)
    (ht' : (RaftStorage.new pb st r).term i = .ok t') : t = t' := by
  obtain ⟨e, he, hi, rfl⟩ := h.indices.term_ok_iff.mp ht
  obtain ⟨e', he', hi', rfl⟩ := h.reopened.2.term_ok_iff.mp ht'
  rcases h.mem_reopened he' with ⟨rfl, -⟩ | hdisk
  · -- index zero is that of the placeholder in memory
    have hfirst : s.first ∈ s.core.entries := List.mem_of_getElem? (first_eq_getElem? s)
    rw [h.placeholder] at hfirst
    rw [h.indices.distinct e he _ hfirst (hi.trans hi'.symm)]
  · have hpos := ((h.stored e'.index).mp (by rw [hdisk]; rfl)).1
    have hkept := h.kept e he (by rw [hi, ← hi']; exact hpos)
    rw [hi, ← hi', hdisk, Option.some.injEq] at hkept
    rw [hkept]

end

/-! ## Runs of appends -/

/-- A batch of consecutive indices that starts within the log or right behind it. -/
def Fits (c : RaftStorage × Store) (es : List Entry) : Prop :=
  ∃ f, 0 < f ∧ f ≤ c.1.lastIndex.toNat + 1 ∧ Consecutive f es

/-- A batch of consecutive indices right behind the log. -/
def Extends (c : RaftStorage × Store) (es : List Entry) : Prop :=
  Consecutive (c.1.lastIndex.toNat + 1) es

section

variable {pb : Protobuf} {r : UInt64} {n : ℕ} {c : RaftStorage × Store}

/-- One step of a run, with the highest index before and after. -/
lemma Logged.step (h : Logged pb r n c.1 c.2) {es : List Entry} (hfits : Fits c es) :
    ∃ n', Logged pb r n' (appendStep pb c es).1 (appendStep pb c es).2 ∧ n ≤ n' ∧
      (∀ e ∈ es, e.index.toNat ≤ n') ∧ (n' = n ∨ ∃ e ∈ es, e.index.toNat = n') := by
  by_cases hne : es = []
  · subst hne
    exact ⟨n, h, le_refl n, fun e he => absurd he List.not_mem_nil, Or.inl rfl⟩
  · obtain ⟨f, hpos, hle, hes⟩ := hfits
    refine ⟨_, (h.append hne hpos hle hes).2, le_max_left _ _, fun e he => ?_, ?_⟩
    · have hbounds := hes.mem_bounds he
      omega
    · rcases le_total (f + es.length - 1) n with hn | hn
      · exact Or.inl (max_eq_left hn)
      · obtain ⟨e, he, hidx⟩ := hes.exists_last hne
        exact Or.inr ⟨e, he, hidx.trans (max_eq_right hn).symm⟩

/-- A whole run. -/
lemma Logged.run (h : Logged pb r n c.1 c.2) {batches : List (List Entry)}
    (hok : Guarded (appendStep pb) Fits c batches) :
    ∃ n', Logged pb r n' (batches.foldl (appendStep pb) c).1 (batches.foldl (appendStep pb) c).2 ∧
      n ≤ n' ∧ (∀ es ∈ batches, ∀ e ∈ es, e.index.toNat ≤ n') ∧
      (n' = n ∨ ∃ es ∈ batches, ∃ e ∈ es, e.index.toNat = n') := by
  induction batches generalizing c n with
  | nil => exact ⟨n, h, le_refl n, fun _ hes => absurd hes List.not_mem_nil, Or.inl rfl⟩
  | cons es batches ih =>
      obtain ⟨n₁, h₁, hle₁, hall₁, htop₁⟩ := h.step hok.1
      obtain ⟨n₂, h₂, hle₂, hall₂, htop₂⟩ := ih h₁ hok.2
      refine ⟨n₂, h₂, hle₁.trans hle₂, ?_, ?_⟩
      · intro es' hes' e he
        rcases List.mem_cons.mp hes' with rfl | hes'
        · exact (hall₁ e he).trans hle₂
        · exact hall₂ es' hes' e he
      · rcases htop₂ with rfl | ⟨es', hes', e, he, heq⟩
        · rcases htop₁ with rfl | ⟨e, he, heq⟩
          · exact Or.inl rfl
          · exact Or.inr ⟨es, List.mem_cons_self, e, he, heq⟩
        · exact Or.inr ⟨es', List.mem_cons_of_mem es hes', e, he, heq⟩

end

/-- Any appends to a fresh region that stay within the log or extend it, and then a restart: what
both logs answer for an index is the same; and the last index is the same exactly if no higher one
was ever appended. -/
theorem reopen_lastIndex_iff (pb : Protobuf) (st : Store) (regionId : UInt64)
    (hfresh : FreshRegion st regionId) (batches : List (List Entry))
    (hok : Guarded (appendStep pb) Fits (RaftStorage.new pb st regionId, st) batches) :
    let c := batches.foldl (appendStep pb) (RaftStorage.new pb st regionId, st)
    let reopened := RaftStorage.new pb c.2 regionId
    (∀ i t t', c.1.term i = .ok t → reopened.term i = .ok t' → t = t') ∧
      (reopened.lastIndex = c.1.lastIndex ↔
        ∀ es ∈ batches, ∀ e ∈ es, e.index ≤ c.1.lastIndex) := by
  intro c reopened
  obtain ⟨n, hlogged, -, hall, htop⟩ := (hfresh.logged pb).run hok
  have hlast := hlogged.reopened_lastIndex
  have hle := hlogged.le
  refine ⟨fun i t t' ht ht' => hlogged.term_agrees ht ht', ?_⟩
  rw [← UInt64.toNat_inj]
  constructor
  · intro heq es hes e he
    rw [UInt64.le_iff_toNat_le, ← heq, hlast]
    exact hall es hes e he
  · intro hmax
    rcases htop with rfl | ⟨es, hes, e, he, heq⟩
    · change reopened.lastIndex.toNat = _ at hlast
      change c.1.lastIndex.toNat ≤ 0 at hle
      omega
    · have hge := UInt64.le_iff_toNat_le.mp (hmax es hes e he)
      change reopened.lastIndex.toNat = _ at hlast
      change c.1.lastIndex.toNat ≤ _ at hle
      omega

/-- Region one, just created. -/
def created : RaftStorage × Store :=
  (RaftStorage.new Protobuf.plain Keyspace.empty 1, Keyspace.empty)

/-- A log of three entries, of which the last two are replaced. -/
theorem reopen_replaced :
    let c := [[blank 1 1, blank 1 2, blank 1 3], [blank 2 2, blank 2 3]].foldl
      (appendStep Protobuf.plain) created
    (RaftStorage.new Protobuf.plain c.2 1).lastIndex = c.1.lastIndex :=
  (reopen_lastIndex_iff Protobuf.plain Keyspace.empty 1 (freshRegion_empty 1)
    [[blank 1 1, blank 1 2, blank 1 3], [blank 2 2, blank 2 3]]
    ⟨⟨1, by decide, by decide, by simp [blank]⟩, ⟨2, by decide, by decide, by simp [blank]⟩,
      trivial⟩).2.mpr (by decide)

/-- A log of three entries that is cut back to one: the other two return. -/
theorem reopen_restores_tail :
    let batches := [[blank 1 1, blank 1 2, blank 1 3], [blank 2 1]]
    let c := batches.foldl (appendStep Protobuf.plain) created
    Guarded (appendStep Protobuf.plain) Fits created batches ∧ c.1.lastIndex = 1 ∧
      (RaftStorage.new Protobuf.plain c.2 1).lastIndex = 3 := by
  intro batches c
  exact ⟨⟨⟨1, by decide, by decide, by simp [blank]⟩, ⟨1, by decide, by decide, by simp [blank]⟩,
    trivial⟩, by decide, by decide⟩

/-! ## Logs that are only extended -/

section

variable {pb : Protobuf} {r : UInt64} {n : ℕ} {c : RaftStorage × Store}

lemma Extends.fits {es : List Entry} (h : Extends c es) : Fits c es :=
  ⟨c.1.lastIndex.toNat + 1, Nat.succ_pos _, le_refl _, h⟩

/-- A log that is only extended ends with the highest index. -/
lemma Logged.step_extends (h : Logged pb r n c.1 c.2) (hlast : c.1.lastIndex.toNat = n)
    {es : List Entry} (hes : Extends c es) :
    ∃ n', Logged pb r n' (appendStep pb c es).1 (appendStep pb c es).2 ∧
      (appendStep pb c es).1.lastIndex.toNat = n' := by
  by_cases hne : es = []
  · subst hne
    exact ⟨n, h, hlast⟩
  · obtain ⟨hentries, hlogged⟩ := h.append hne (Nat.succ_pos _) (le_refl _) hes
    refine ⟨_, hlogged, ?_⟩
    have hold := h.indices.lastIndex
    have hnew := hlogged.indices.lastIndex
    have hlen : 0 < es.length := List.length_pos_iff.mpr hne
    rw [hentries, List.length_append, List.length_take] at hnew
    change (RaftStorage.append pb c.1 es c.2).2.1.lastIndex.toNat = _
    omega

lemma Logged.run_extends (h : Logged pb r n c.1 c.2) (hlast : c.1.lastIndex.toNat = n)
    {batches : List (List Entry)} (hok : Guarded (appendStep pb) Extends c batches) :
    ∃ n', Logged pb r n' (batches.foldl (appendStep pb) c).1 (batches.foldl (appendStep pb) c).2 ∧
      (batches.foldl (appendStep pb) c).1.lastIndex.toNat = n' := by
  induction batches generalizing c n with
  | nil => exact ⟨n, h, hlast⟩
  | cons es batches ih =>
      obtain ⟨n', h', hlast'⟩ := h.step_extends hlast hok.1
      exact ih h' hlast' hok.2

/-- Such a log is read back without the placeholder. -/
lemma Logged.entries_eq {s : RaftStorage} {st : Store} (h : Logged pb r n s st)
    (hlast : s.lastIndex.toNat = n) : s.core.entries = Entry.default :: logOf pb st r := by
  have hlen := h.indices.lastIndex
  obtain ⟨hlog, hcons⟩ := h.logOf_consecutive
  refine List.ext_getElem? fun i => ?_
  cases i with
  | zero => rw [first_eq_getElem? s, h.placeholder]; rfl
  | succ i =>
      rw [List.getElem?_cons_succ]
      by_cases hi : i < n
      · have hmem := List.getElem?_eq_getElem (show i + 1 < s.core.entries.length by omega)
        have hdisk := List.getElem?_eq_getElem (show i < (logOf pb st r).length by omega)
        have hidx := h.indices _ _ hmem
        have hidx' := hcons _ _ hdisk
        -- both are the entry on disk at this index
        have hsame := h.kept _ (List.mem_of_getElem? hmem) (by omega)
        have hsame' := h.filed.mem_logOf.mp (List.mem_of_getElem? hdisk)
        have heq : (s.core.entries[i + 1]).index = ((logOf pb st r)[i]).index :=
          UInt64.toNat_inj.mp (by omega)
        rw [heq, hsame', Option.some.injEq] at hsame
        rw [hmem, hdisk, hsame]
      · rw [List.getElem?_eq_none (by omega), List.getElem?_eq_none (by omega)]

end

section

variable {pb : Protobuf} {r : UInt64} {n : ℕ} {s : RaftStorage} {st : Store}

lemma Logged.firstIndex_eq (h : Logged pb r n s st) : s.firstIndex = 1 := by
  rw [firstIndex, h.placeholder]
  rfl

/-- The entries of a log that was only extended come back. -/
lemma Logged.reopened_entries (h : Logged pb r n s st) (hlast : s.lastIndex.toNat = n)
    {low high : UInt64} (hlow : s.firstIndex ≤ low) (hle : low ≤ high)
    (hhigh : high.toNat ≤ s.lastIndex.toNat + 1) :
    (RaftStorage.new pb st r).entries low high = s.entries low high := by
  have hsame : (RaftStorage.new pb st r).lastIndex = s.lastIndex :=
    UInt64.toNat_inj.mp (h.reopened_lastIndex.trans hlast.symm)
  have hlow' : 1 ≤ low.toNat := by
    rw [h.firstIndex_eq, UInt64.le_iff_toNat_le] at hlow
    exact hlow
  obtain ⟨hentries, hcons⟩ := h.reopened
  have hmem := h.entries_eq hlast
  have hlog := h.logOf_consecutive.1
  rw [h.indices.entries_eq (Nat.zero_le _) hle hhigh,
    hcons.entries_eq (by split_ifs <;> omega) hle (by rw [hsame]; exact hhigh), hsame, hentries]
  split_ifs with hun hn
  · rfl
  · -- nothing was appended
    rw [hmem, List.eq_nil_of_length_eq_zero (hlog.trans hn)]
  · rw [UInt64.le_iff_toNat_le] at hle
    obtain ⟨l, hl⟩ : ∃ l, low.toNat = l + 1 := ⟨low.toNat - 1, by omega⟩
    obtain ⟨k, hk⟩ : ∃ k, high.toNat = k + 1 := ⟨high.toNat - 1, by omega⟩
    rw [hmem, hl, hk]
    simp

/-- The first index of the reopened log moves by one, if there is a log. -/
lemma Logged.reopened_firstIndex_iff (h : Logged pb r n s st) :
    (RaftStorage.new pb st r).firstIndex = s.firstIndex ↔ n = 0 := by
  have hfirst := h.reopened.2.first
  rw [h.firstIndex_eq, firstIndex]
  split_ifs at hfirst with hn
  · have hzero : (RaftStorage.new pb st r).first.index = 0 := UInt64.toNat_inj.mp hfirst
    rw [hzero]
    simp [hn]
  · have hone : (RaftStorage.new pb st r).first.index = 1 := UInt64.toNat_inj.mp hfirst
    rw [hone]
    simp [hn]

/-- And the term in front of it is gone. -/
lemma Logged.reopened_term_iff (h : Logged pb r n s st) :
    (∃ t, (RaftStorage.new pb st r).term (s.firstIndex - 1) = .ok t) ↔ n = 0 := by
  obtain ⟨hentries, hcons⟩ := h.reopened
  rw [h.firstIndex_eq]
  constructor
  · rintro ⟨t, ht⟩
    obtain ⟨e, he, hidx, -⟩ := hcons.term_ok_iff.mp ht
    rcases h.mem_reopened he with ⟨-, hn⟩ | hdisk
    · exact hn
    · have hpos := ((h.stored e.index).mp (by rw [hdisk]; rfl)).1
      rw [hidx] at hpos
      exact absurd hpos (by decide)
  · intro hn
    refine ⟨0, hcons.term_ok_iff.mpr ⟨Entry.default, ?_, rfl, rfl⟩⟩
    rw [hentries, if_pos hn]
    exact List.mem_singleton_self _

end

/-- In a run of appends every index is positive. -/
lemma index_pos_of_fits {pb : Protobuf} {c : RaftStorage × Store} {batches : List (List Entry)}
    (hok : Guarded (appendStep pb) Fits c batches) :
    ∀ es ∈ batches, ∀ e ∈ es, 0 < e.index.toNat := by
  induction batches generalizing c with
  | nil => exact fun es hes => absurd hes List.not_mem_nil
  | cons es batches ih =>
      obtain ⟨⟨f, hpos, -, hes⟩, hrest⟩ := hok
      refine List.forall_mem_cons.mpr ⟨fun e he => ?_, ih hrest⟩
      exact hpos.trans_le (hes.mem_bounds he).1

/-- Appends to a fresh region that only extend the log, and then a restart: the last index and all
entries come back.  The first index does, and the term in front of it is still known, only if
nothing was appended. -/
theorem reopen_extended (pb : Protobuf) (st : Store) (regionId : UInt64)
    (hfresh : FreshRegion st regionId) (batches : List (List Entry))
    (hok : Guarded (appendStep pb) Extends (RaftStorage.new pb st regionId, st) batches) :
    let c := batches.foldl (appendStep pb) (RaftStorage.new pb st regionId, st)
    let reopened := RaftStorage.new pb c.2 regionId
    reopened.lastIndex = c.1.lastIndex ∧
      (∀ low high, c.1.firstIndex ≤ low → low ≤ high →
        high.toNat ≤ c.1.lastIndex.toNat + 1 → reopened.entries low high = c.1.entries low high) ∧
      (reopened.firstIndex = c.1.firstIndex ↔ ∀ es ∈ batches, es = []) ∧
      ((∃ t, reopened.term (c.1.firstIndex - 1) = .ok t) ↔ ∀ es ∈ batches, es = []) := by
  intro c reopened
  have hfits : Guarded (appendStep pb) Fits (RaftStorage.new pb st regionId, st) batches :=
    hok.imp fun _ _ => Extends.fits
  have hstart := hfresh.logged pb
  obtain ⟨n, hlogged, hlast⟩ := hstart.run_extends (Nat.le_zero.mp hstart.le) hok
  obtain ⟨n', hlogged', -, hall, htop⟩ := hstart.run hfits
  have hn' : n' = n := hlogged'.reopened_lastIndex.symm.trans hlogged.reopened_lastIndex
  have hempty : n = 0 ↔ ∀ es ∈ batches, es = [] := by
    constructor
    · intro hn es hes
      rw [List.eq_nil_iff_forall_not_mem]
      intro e he
      have hpos := index_pos_of_fits hfits es hes e he
      have hle := hall es hes e he
      omega
    · intro hnil
      rcases htop with heq | ⟨es, hes, e, he, -⟩
      · omega
      · rw [hnil es hes] at he
        cases he
  refine ⟨UInt64.toNat_inj.mp (hlogged.reopened_lastIndex.trans hlast.symm),
    fun low high hlow hle hhigh => hlogged.reopened_entries hlast hlow hle hhigh, ?_, ?_⟩
  · rw [← hempty]
    exact hlogged.reopened_firstIndex_iff
  · rw [← hempty]
    exact hlogged.reopened_term_iff

/-- Two batches, the second behind the first. -/
theorem reopen_two_batches :
    let c := [[blank 1 1, blank 1 2], [blank 1 3]].foldl (appendStep Protobuf.plain) created
    (RaftStorage.new Protobuf.plain c.2 1).entries 1 4 = c.1.entries 1 4 :=
  (reopen_extended Protobuf.plain Keyspace.empty 1 (freshRegion_empty 1)
    [[blank 1 1, blank 1 2], [blank 1 3]]
    ⟨consecutive_cons.mpr ⟨by decide, consecutive_cons.mpr ⟨by decide, consecutive_nil _⟩⟩,
      consecutive_cons.mpr ⟨by decide, consecutive_nil _⟩, trivial⟩).2.1 1 4
    (by decide) (by decide) (by decide)

/-- One entry, and the log no longer starts where it did. -/
theorem reopen_loses_placeholder :
    let c := [[blank 1 1]].foldl (appendStep Protobuf.plain) created
    Guarded (appendStep Protobuf.plain) Extends created [[blank 1 1]] ∧
      c.1.firstIndex = 1 ∧ (RaftStorage.new Protobuf.plain c.2 1).firstIndex = 2 ∧
      c.1.term 0 = .ok 0 ∧
      (RaftStorage.new Protobuf.plain c.2 1).term 0 = .error (.store .compacted) := by
  intro c
  exact ⟨⟨consecutive_cons.mpr ⟨by decide, consecutive_nil _⟩, trivial⟩, by decide, by decide,
    by decide, by decide⟩

end AcidKv.Raft
