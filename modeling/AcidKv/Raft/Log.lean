import AcidKv.Raft.Store
import Mathlib.Data.List.Sort

/-!
# The log on disk

What `RaftStorage.new` reads back.  The keys of a region are the ones with its id in the text
(`Owned`); no two regions share a key.  The index in an entry's key has a fixed width, so the walk
over the keys of a log goes through it in the order of the indices, and `RaftStorage.new` collects
exactly the entries on disk (`Filed.mem_logOf`, `Filed.logOf_sorted`).  It depends on nothing but
the keys of the region (`new_congr`).
-/

namespace AcidKv.Raft

open Decimal BigEndian

/-! ## The keys of a region -/

/-- The key belongs to the Raft state of the region. -/
def Owned (r : UInt64) (k : Bytes) : Prop := k = hsKey r ∨ k = csKey r ∨ entryPrefix r <+: k

instance (r : UInt64) (k : Bytes) : Decidable (Owned r k) :=
  inferInstanceAs (Decidable (_ ∨ _ ∨ _))

lemma prefix_entryKey (r i : UInt64) : entryPrefix r <+: entryKey r i := List.prefix_append _ _

lemma decimal_toNat_inj {r r' : UInt64} (h : decimal r.toNat = decimal r'.toNat) : r = r' :=
  UInt64.toNat_inj.mp (decimal_inj h)

lemma underscore_not_isDigit : ¬ IsDigit 95 := by
  rintro ⟨-, h⟩
  exact absurd h (by decide)

lemma entryPrefix_eq (r : UInt64) (rest : Bytes) : entryPrefix r ++ rest =
    ascii ['r', '_', 'e', 'n', 't', 'r', 'y', '_'] ++ (decimal r.toNat ++ 95 :: rest) := by
  simp [entryPrefix, ascii]

/-- The log of a region is not that of another one. -/
lemma entryPrefix_inj {r r' : UInt64} {k : Bytes} (h : entryPrefix r <+: k)
    (h' : entryPrefix r' <+: k) : r = r' := by
  obtain ⟨s, rfl⟩ := h
  obtain ⟨t, ht⟩ := h'
  rw [entryPrefix_eq, entryPrefix_eq] at ht
  have := decimal_append_inj underscore_not_isDigit (List.append_cancel_left ht)
  exact (UInt64.toNat_inj.mp this.1).symm

/-- Where the third byte of a key is another one it is no log key. -/
lemma not_entryPrefix {r : UInt64} {a b c : UInt8} {k : Bytes} (h : c ≠ 101) :
    ¬ entryPrefix r <+: a :: b :: c :: k := by
  rintro ⟨t, ht⟩
  simp only [entryPrefix, ascii, List.map_cons, List.cons_append, List.cons.injEq] at ht
  exact h ht.2.2.1.symm

lemma not_entryPrefix_hsKey (r r' : UInt64) : ¬ entryPrefix r <+: hsKey r' :=
  not_entryPrefix (by decide)

lemma not_entryPrefix_csKey (r r' : UInt64) : ¬ entryPrefix r <+: csKey r' :=
  not_entryPrefix (by decide)

lemma hsKey_ne_csKey (r r' : UInt64) : hsKey r ≠ csKey r' := by
  simp [hsKey, csKey, ascii]

lemma hsKey_inj {r r' : UInt64} (h : hsKey r = hsKey r') : r = r' :=
  decimal_toNat_inj (List.append_cancel_left h)

lemma csKey_inj {r r' : UInt64} (h : csKey r = csKey r') : r = r' :=
  decimal_toNat_inj (List.append_cancel_left h)

/-- **No two regions share a key.** -/
theorem Owned.unique {r r' : UInt64} {k : Bytes} (h : Owned r k) (h' : Owned r' k) : r = r' := by
  rcases h with rfl | rfl | h <;> rcases h' with h' | h' | h'
  · exact hsKey_inj h'
  · exact absurd h' (hsKey_ne_csKey r r')
  · exact absurd h' (not_entryPrefix_hsKey r' r)
  · exact absurd h'.symm (hsKey_ne_csKey r' r)
  · exact csKey_inj h'
  · exact absurd h' (not_entryPrefix_csKey r' r)
  · exact absurd (h' ▸ h) (not_entryPrefix_hsKey r r')
  · exact absurd (h' ▸ h) (not_entryPrefix_csKey r r')
  · exact entryPrefix_inj h h'

lemma entryKey_inj {r i j : UInt64} (h : entryKey r i = entryKey r j) : i = j :=
  UInt64.toNat_inj.mp (padded_inj (List.append_cancel_left h))

/-- The keys of a log are ordered as the indices are. -/
lemma entryKey_lt_iff {r i j : UInt64} : entryKey r i < entryKey r j ↔ i < j := by
  have hfit : ∀ x : UInt64, x.toNat < 10 ^ 20 := fun x =>
    lt_of_lt_of_le x.toNat_lt (by norm_num)
  rw [entryKey, entryKey, append_lt_append_iff_of_length_eq rfl,
    padded_lt_padded_iff (by decide) (hfit i) (hfit j), UInt64.lt_iff_toNat_lt]
  simp [List.lt_irrefl]

/-! ## The walk over a log -/

lemma le_append (p t : Bytes) : p ≤ p ++ t := by
  rw [← List.not_lt]
  intro hlt
  rw [← List.append_nil p, List.append_assoc, append_lt_append_iff_of_length_eq rfl] at hlt
  rcases hlt with hlt | ⟨-, hlt⟩
  · exact List.lt_irrefl p hlt
  · exact List.not_lt_nil _ hlt

/-- What stands between a prefix and a key with that prefix has the prefix. -/
lemma prefix_of_between : ∀ {p k k' : Bytes}, p ≤ k' → k' < k → p <+: k → p <+: k'
  | [], _, _, _, _, _ => List.nil_prefix
  | x :: p, _, [], hle, _, _ => absurd hle (by simp)
  | x :: p, [], _ :: _, _, _, hp => absurd hp (by simp)
  | x :: p, y :: k, z :: k', hle, hlt, hp => by
      obtain ⟨rfl, htl⟩ := List.cons_prefix_cons.mp hp
      rw [← List.not_lt, List.cons_lt_cons_iff, not_or, not_and] at hle
      rw [List.cons_lt_cons_iff] at hlt
      obtain ⟨hxz, htail⟩ := hle
      rcases hlt with hzx | ⟨rfl, hlt⟩
      · exact absurd hzx hxz
      · exact List.cons_prefix_cons.mpr
          ⟨rfl, prefix_of_between (List.not_lt.mp (htail rfl)) hlt htl⟩

namespace RaftStorage

/-- The loop collects what parses among the keys with the prefix: they come first. -/
lemma loadLoop_eq {pb : Protobuf} {pre : Bytes} {items : List (Bytes × Bytes)}
    (hsorted : items.Pairwise fun a b => a.1 < b.1) (hlo : ∀ x ∈ items, pre ≤ x.1) :
    loadLoop pb pre items =
      (items.filter fun x => pre <+: x.1).filterMap fun x => pb.entry.parseFromBytes x.2 := by
  induction items with
  | nil => rfl
  | cons x items ih =>
      obtain ⟨k, v⟩ := x
      rw [List.pairwise_cons] at hsorted
      rw [List.forall_mem_cons] at hlo
      have ih := ih hsorted.2 hlo.2
      by_cases hk : pre <+: k
      · cases hv : pb.entry.parseFromBytes v <;> simp [loadLoop, hk, hv, ih]
      · have hnone : items.filter (fun x => pre <+: x.1) = [] := by
          rw [List.filter_eq_nil_iff]
          intro y hy hpre
          exact hk (prefix_of_between hlo.1 (hsorted.1 y hy) (of_decide_eq_true hpre))
        simp [loadLoop, hk, hnone]

end RaftStorage

/-- Every key of the log holds an entry, and is that entry's. -/
def Filed (pb : Protobuf) (st : Store) (r : UInt64) : Prop :=
  ∀ k b, st.get .default k = some b → entryPrefix r <+: k →
    ∃ e, pb.entry.parseFromBytes b = some e ∧ k = entryKey r e.index

/-- The entry on disk at an index. -/
def onDisk (pb : Protobuf) (st : Store) (r i : UInt64) : Option Entry :=
  (st.get .default (entryKey r i)).bind pb.entry.parseFromBytes

/-- The log as `RaftStorage.new` collects it. -/
def logOf (pb : Protobuf) (st : Store) (r : UInt64) : List Entry :=
  RaftStorage.loadLoop pb (entryPrefix r) (st.range .default (entryPrefix r))

section

variable {pb : Protobuf} {st : Store} {r : UInt64}

lemma Filed.congr {st' : Store} (h : Filed pb st r)
    (hsame : ∀ k, entryPrefix r <+: k → st'.get .default k = st.get .default k) :
    Filed pb st' r := by
  intro k b hb hpre
  rw [hsame k hpre] at hb
  exact h k b hb hpre

lemma onDisk_congr {st' : Store}
    (hsame : ∀ k, entryPrefix r <+: k → st'.get .default k = st.get .default k) (i : UInt64) :
    onDisk pb st' r i = onDisk pb st r i := by
  rw [onDisk, onDisk, hsame _ (prefix_entryKey r i)]

lemma Filed.index_eq (h : Filed pb st r) {i : UInt64} {e : Entry}
    (he : onDisk pb st r i = some e) : e.index = i := by
  obtain ⟨b, hb, hp⟩ := Option.bind_eq_some_iff.mp he
  obtain ⟨e', he', hk⟩ := h _ b hb (prefix_entryKey r i)
  rw [hp, Option.some.injEq] at he'
  rw [he', entryKey_inj hk]

lemma walk_sorted (st : Store) (lo : Bytes) :
    (st.range .default lo).Pairwise fun a b => a.1 < b.1 :=
  (Keyspace.range_sorted st .default lo).imp fun hab => compare_eq_lt_iff.mp hab

lemma walk_ge (st : Store) (lo : Bytes) : ∀ x ∈ st.range .default lo, lo ≤ x.1 :=
  fun _ hx => compare_isLE_iff.mp (Keyspace.mem_range.mp hx).2

lemma logOf_eq : logOf pb st r = ((st.range .default (entryPrefix r)).filter fun x =>
    entryPrefix r <+: x.1).filterMap fun x => pb.entry.parseFromBytes x.2 :=
  RaftStorage.loadLoop_eq (walk_sorted st _) (walk_ge st _)

/-- **What is recovered depends on the keys of the region only.** -/
theorem new_congr {st' : Store} (h : ∀ k, Owned r k → st'.get .default k = st.get .default k) :
    RaftStorage.new pb st' r = RaftStorage.new pb st r := by
  have hlog : logOf pb st' r = logOf pb st r := by
    rw [logOf_eq, logOf_eq]
    congr 1
    refine List.Pairwise.eq_of_mem_iff (r := fun a b : Bytes × Bytes => a.1 < b.1)
      (List.Pairwise.filter _ (walk_sorted st' _)) (List.Pairwise.filter _ (walk_sorted st _)) ?_
    rintro ⟨k, b⟩
    simp only [List.mem_filter, Keyspace.mem_range, decide_eq_true_eq]
    refine and_congr_left fun hpre => ?_
    rw [h k (Or.inr (Or.inr hpre))]
  have hhs := h (hsKey r) (Or.inl rfl)
  have hcs := h (csKey r) (Or.inr (Or.inl rfl))
  unfold logOf at hlog
  simp only [RaftStorage.new, hhs, hcs, hlog]

/-- The log that is read back is what is on disk. -/
theorem Filed.mem_logOf (h : Filed pb st r) {e : Entry} :
    e ∈ logOf pb st r ↔ onDisk pb st r e.index = some e := by
  simp only [logOf_eq, List.mem_filterMap, List.mem_filter, decide_eq_true_eq]
  constructor
  · rintro ⟨⟨k, b⟩, ⟨hx, hpre⟩, hp⟩
    have hb := (Keyspace.mem_range.mp hx).1
    obtain ⟨e', he', rfl⟩ := h k b hb hpre
    rw [hp, Option.some.injEq] at he'
    rw [onDisk, he', hb]
    exact he' ▸ hp
  · intro he
    obtain ⟨b, hb, hp⟩ := Option.bind_eq_some_iff.mp he
    refine ⟨(entryKey r e.index, b), ⟨Keyspace.mem_range.mpr ⟨hb, ?_⟩, prefix_entryKey r _⟩, hp⟩
    exact compare_isLE_iff.mpr (le_append _ _)

/-- And in the order of the indices. -/
theorem Filed.logOf_sorted (h : Filed pb st r) :
    (logOf pb st r).Pairwise fun a b => a.index < b.index := by
  rw [logOf_eq, List.pairwise_filterMap]
  refine (List.Pairwise.filter _ (walk_sorted st (entryPrefix r))).imp_of_mem ?_
  rintro ⟨k, b⟩ ⟨k', b'⟩ hx hx' hlt e he e' he'
  rw [List.mem_filter, decide_eq_true_eq, Keyspace.mem_range] at hx hx'
  -- the keys are those of the two entries
  obtain ⟨e₁, h₁, hk⟩ := h k b hx.1.1 hx.2
  obtain ⟨e₂, h₂, hk'⟩ := h k' b' hx'.1.1 hx'.2
  rw [he, Option.some.injEq] at h₁
  rw [he', Option.some.injEq] at h₂
  simp only [hk, hk', ← h₁, ← h₂] at hlt
  exact entryKey_lt_iff.mp hlt

/-! ## Appending -/

/-- The last of the entries with an index. -/
def lastAt (es : List Entry) (i : UInt64) : Option Entry := es.reverse.find? fun e => e.index = i

@[simp] lemma lastAt_nil (i : UInt64) : lastAt [] i = none := rfl

lemma lastAt_append (es es' : List Entry) (i : UInt64) :
    lastAt (es ++ es') i = (lastAt es' i).or (lastAt es i) := by
  simp [lastAt]

lemma lastAt_cons (e : Entry) (es : List Entry) (i : UInt64) :
    lastAt (e :: es) i = (lastAt es i).or (if e.index = i then some e else none) := by
  rw [← List.singleton_append, lastAt_append]
  congr 1
  simp [lastAt, List.find?_cons]
  split_ifs with h <;> simp [h]

lemma lastAt_eq_none {es : List Entry} {i : UInt64} :
    lastAt es i = none ↔ ∀ e ∈ es, e.index ≠ i := by
  simp [lastAt]

lemma lastAt_index {es : List Entry} {i : UInt64} {e : Entry} (h : lastAt es i = some e) :
    e.index = i := by
  simpa using List.find?_some h

lemma mem_of_lastAt {es : List Entry} {i : UInt64} {e : Entry} (h : lastAt es i = some e) :
    e ∈ es := by
  simpa using List.mem_of_find?_eq_some h

/-- The indices of a batch are all different. -/
def Distinct (es : List Entry) : Prop :=
  ∀ e ∈ es, ∀ e' ∈ es, e.index = e'.index → e = e'

lemma Distinct.lastAt_eq {es : List Entry} (h : Distinct es) {e : Entry} (he : e ∈ es) :
    lastAt es e.index = some e := by
  cases hlast : lastAt es e.index with
  | none => exact absurd rfl (lastAt_eq_none.mp hlast e he)
  | some e' => rw [h e' (mem_of_lastAt hlast) e he (lastAt_index hlast)]

lemma mem_appendBatch {es : List Entry} {i : BatchItem Part Bytes Bytes} :
    i ∈ RaftStorage.appendBatch pb r es ↔ ∃ e ∈ es, ∃ b, pb.entry.writeToBytes e = some b ∧
      i = .insert .default (entryKey r e.index) b := by
  simp only [RaftStorage.appendBatch, List.mem_filterMap, Option.map_eq_some_iff, @eq_comm _ i]

/-- An append leaves the keys alone that are not those of its entries. -/
lemma get_appendBatch_of_ne {es : List Entry} {p : Part} {k : Bytes}
    (h : p = .default → ∀ e ∈ es, k ≠ entryKey r e.index) (st : Store) :
    (st.apply (RaftStorage.appendBatch pb r es)).get p k = st.get p k := by
  refine Keyspace.get_apply_of_entry_ne (fun i hi hentry => ?_) st
  obtain ⟨e, he, b, -, rfl⟩ := mem_appendBatch.mp hi
  simp only [BatchItem.entry, Prod.mk.injEq] at hentry
  exact h hentry.1.symm e he hentry.2.symm

lemma appendBatch_cons {e : Entry} {b : Bytes} (h : pb.entry.writeToBytes e = some b)
    (es : List Entry) : RaftStorage.appendBatch pb r (e :: es) =
      .insert .default (entryKey r e.index) b :: RaftStorage.appendBatch pb r es := by
  simp [RaftStorage.appendBatch, h]

lemma onDisk_insert {e : Entry} {b : Bytes} (h : pb.entry.parseFromBytes b = some e)
    (i : UInt64) : onDisk pb (st.applyItem (.insert .default (entryKey r e.index) b)) r i =
      if e.index = i then some e else onDisk pb st r i := by
  rw [onDisk, Keyspace.get_insert]
  by_cases hi : e.index = i
  · simp [hi, h]
  · have hne : entryKey r i ≠ entryKey r e.index := fun heq => hi (entryKey_inj heq).symm
    simp [hi, hne, onDisk]

/-- After an append the disk has the last entry of the batch at every index of it. -/
theorem onDisk_append (st : Store) (es : List Entry) (i : UInt64) :
    onDisk pb (st.apply (RaftStorage.appendBatch pb r es)) r i =
      (lastAt es i).or (onDisk pb st r i) := by
  induction es generalizing st with
  | nil => rfl
  | cons e es ih =>
      obtain ⟨b, hw, hp⟩ := pb.entry.roundTrip e
      rw [appendBatch_cons hw, Keyspace.apply_cons, ih, onDisk_insert hp, lastAt_cons]
      cases lastAt es i with
      | some e' => rfl
      | none => split_ifs <;> rfl

lemma Filed.insert (h : Filed pb st r) {e : Entry} {b : Bytes}
    (hp : pb.entry.parseFromBytes b = some e) :
    Filed pb (st.applyItem (.insert .default (entryKey r e.index) b)) r := by
  intro k b' hb hpre
  rw [Keyspace.get_insert] at hb
  split_ifs at hb with heq
  · obtain rfl := Option.some.inj hb
    exact ⟨e, hp, heq.2⟩
  · exact h k b' hb hpre

lemma Filed.append (h : Filed pb st r) (es : List Entry) :
    Filed pb (st.apply (RaftStorage.appendBatch pb r es)) r := by
  induction es generalizing st with
  | nil => exact h
  | cons e es ih =>
      obtain ⟨b, hw, hp⟩ := pb.entry.roundTrip e
      rw [appendBatch_cons hw, Keyspace.apply_cons]
      exact ih (h.insert hp)

end

/-! ## Regions with nothing on disk -/

/-- The store holds nothing of the region. -/
def FreshRegion (st : Store) (r : UInt64) : Prop := ∀ k, Owned r k → st.get .default k = none

section

variable {st : Store} {r : UInt64}

lemma FreshRegion.filed (h : FreshRegion st r) (pb : Protobuf) : Filed pb st r := by
  intro k b hb hpre
  rw [h k (Or.inr (Or.inr hpre))] at hb
  cases hb

lemma FreshRegion.onDisk_eq_none (h : FreshRegion st r) (pb : Protobuf) (i : UInt64) :
    onDisk pb st r i = none := by
  rw [onDisk, h _ (Or.inr (Or.inr (prefix_entryKey r i)))]
  rfl

lemma FreshRegion.logOf_eq_nil (h : FreshRegion st r) (pb : Protobuf) : logOf pb st r = [] := by
  rw [List.eq_nil_iff_forall_not_mem]
  intro e he
  rw [(h.filed pb).mem_logOf, h.onDisk_eq_none pb] at he
  cases he

/-- A fresh region starts with the placeholder alone. -/
lemma FreshRegion.entries_eq (h : FreshRegion st r) (pb : Protobuf) :
    (RaftStorage.new pb st r).core.entries = [Entry.default] := by
  change RaftStorage.orDummy (logOf pb st r) = _
  rw [h.logOf_eq_nil pb]
  rfl

end

lemma freshRegion_empty (r : UInt64) : FreshRegion Keyspace.empty r := fun _ _ => by simp

end AcidKv.Raft
