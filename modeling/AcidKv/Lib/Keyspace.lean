import Mathlib.Data.List.Basic
import Mathlib.Data.List.Sort
import Mathlib.Tactic.Common

/-!
# Keyspaces: named ordered partitions under atomic batches

A keyspace is a family of ordered key-value maps, one for each partition name.  A reader looks
up one key or walks the entries of a partition from a lower bound on; a writer applies a batch
of insertions and removals, which takes effect as a whole and in which the last item for a key
wins.

The maps are the standard library's extensional ordered maps, so two keyspaces with the same
entries are equal (`Keyspace.ext_get`).  The rest of this file says what each operation does to a
lookup (`get_insert`, `get_remove`; for a whole batch `get_apply_of_entry_ne`, `get_apply_origin`),
when two batches commute (`apply_comm`), and what a walk contains, and in which order (`mem_range`,
`range_sorted`).
-/

/-- Named partitions, each an ordered map. -/
@[ext] structure Keyspace (π κ ν : Type) [Ord κ] where
  partition : π → Std.ExtTreeMap κ ν compare

/-- One item of a batch. -/
inductive BatchItem (π κ ν : Type) where
  | insert (p : π) (k : κ) (v : ν)
  | remove (p : π) (k : κ)

/-- The entry that an item is about. -/
def BatchItem.entry {π κ ν : Type} : BatchItem π κ ν → π × κ
  | .insert p k _ => (p, k)
  | .remove p k => (p, k)

/-- What an item leaves at its entry. -/
def BatchItem.value {π κ ν : Type} : BatchItem π κ ν → Option ν
  | .insert _ _ v => some v
  | .remove _ _ => none

namespace Keyspace

variable {π κ ν : Type} [Ord κ] [Std.TransOrd κ]

/-- Every partition empty. -/
def empty : Keyspace π κ ν := ⟨fun _ => ∅⟩

/-- Point lookup. -/
def get (s : Keyspace π κ ν) (p : π) (k : κ) : Option ν := (s.partition p)[k]?

/-- The entries of a partition from `lo` on, in key order. -/
def range (s : Keyspace π κ ν) (p : π) (lo : κ) : List (κ × ν) :=
  (s.partition p).toList.filter fun e => (compare lo e.1).isLE

variable [DecidableEq π]

/-- The effect of one item. -/
def applyItem (s : Keyspace π κ ν) : BatchItem π κ ν → Keyspace π κ ν
  | .insert p k v => ⟨Function.update s.partition p ((s.partition p).insert k v)⟩
  | .remove p k => ⟨Function.update s.partition p ((s.partition p).erase k)⟩

/-- The effect of a batch: its items in order. -/
def apply (s : Keyspace π κ ν) (b : List (BatchItem π κ ν)) : Keyspace π κ ν :=
  b.foldl applyItem s

@[simp] lemma apply_nil (s : Keyspace π κ ν) : s.apply [] = s := rfl

@[simp] lemma apply_cons (s : Keyspace π κ ν) (i : BatchItem π κ ν) (b : List (BatchItem π κ ν)) :
    s.apply (i :: b) = (s.applyItem i).apply b := rfl

lemma apply_append (s : Keyspace π κ ν) (b c : List (BatchItem π κ ν)) :
    s.apply (b ++ c) = (s.apply b).apply c := by
  simp [apply, List.foldl_append]

omit [DecidableEq π] in
@[simp] lemma get_empty (p : π) (k : κ) : (empty : Keyspace π κ ν).get p k = none := by
  simp [get, empty]

variable [Std.LawfulEqOrd κ] [DecidableEq κ]

@[simp] lemma get_insert (s : Keyspace π κ ν) (p : π) (k : κ) (v : ν) (p' : π) (k' : κ) :
    (s.applyItem (.insert p k v)).get p' k'
      = if p' = p ∧ k' = k then some v else s.get p' k' := by
  simp only [applyItem, get]
  by_cases hp : p' = p
  · subst hp
    rw [Function.update_self, Std.ExtTreeMap.getElem?_insert]
    by_cases hk : k' = k
    · subst hk; simp
    · have hne : compare k k' ≠ .eq := fun h => hk (Std.LawfulEqCmp.eq_of_compare h).symm
      simp [hk, hne]
  · rw [Function.update_of_ne hp]
    simp [hp]

@[simp] lemma get_remove (s : Keyspace π κ ν) (p : π) (k : κ) (p' : π) (k' : κ) :
    (s.applyItem (.remove p k)).get p' k'
      = if p' = p ∧ k' = k then none else s.get p' k' := by
  simp only [applyItem, get]
  by_cases hp : p' = p
  · subst hp
    rw [Function.update_self, Std.ExtTreeMap.getElem?_erase]
    by_cases hk : k' = k
    · subst hk; simp
    · have hne : compare k k' ≠ .eq := fun h => hk (Std.LawfulEqCmp.eq_of_compare h).symm
      simp [hk, hne]
  · rw [Function.update_of_ne hp]
    simp [hp]

/-- A batch of removals empties the keys it names. -/
lemma get_apply_removes {b : List (BatchItem π κ ν)} (hb : ∀ i ∈ b, ∃ p k, i = .remove p k)
    (s : Keyspace π κ ν) (p : π) (k : κ) :
    ((BatchItem.remove p k ∈ b) → (s.apply b).get p k = none) ∧
      ((BatchItem.remove p k ∉ b) → (s.apply b).get p k = s.get p k) := by
  induction b generalizing s with
  | nil => simp
  | cons i b ih =>
      obtain ⟨p', k', rfl⟩ := hb i List.mem_cons_self
      obtain ⟨hin, hout⟩ := ih (fun j hj => hb j (List.mem_cons_of_mem _ hj))
        (s.applyItem (.remove p' k'))
      rw [apply_cons]
      refine ⟨fun hm => ?_, fun hm => ?_⟩
      · by_cases hb' : BatchItem.remove p k ∈ b
        · exact hin hb'
        · rcases List.mem_cons.mp hm with heq | hm
          · cases heq
            rw [hout hb', get_remove, if_pos ⟨rfl, rfl⟩]
          · exact absurd hm hb'
      · rw [List.mem_cons, not_or, BatchItem.remove.injEq] at hm
        rw [hout hm.2, get_remove, if_neg hm.1]

lemma get_applyItem (s : Keyspace π κ ν) (i : BatchItem π κ ν) (p : π) (k : κ) :
    (s.applyItem i).get p k = if i.entry = (p, k) then i.value else s.get p k := by
  cases i with
  | insert p' k' v => simp [BatchItem.entry, BatchItem.value, eq_comm]
  | remove p' k' => simp [BatchItem.entry, BatchItem.value, eq_comm]

/-- A batch leaves the entries alone that it has no item for. -/
lemma get_apply_of_entry_ne {b : List (BatchItem π κ ν)} {p : π} {k : κ}
    (h : ∀ i ∈ b, i.entry ≠ (p, k)) (s : Keyspace π κ ν) : (s.apply b).get p k = s.get p k := by
  induction b generalizing s with
  | nil => rfl
  | cons i b ih =>
      rw [List.forall_mem_cons] at h
      rw [apply_cons, ih h.2, get_applyItem, if_neg h.1]

/-- After a batch an entry is as before, or as one of the items for it leaves it. -/
lemma get_apply_origin (s : Keyspace π κ ν) (b : List (BatchItem π κ ν)) (p : π) (k : κ) :
    (s.apply b).get p k = s.get p k ∨
      ∃ i ∈ b, i.entry = (p, k) ∧ (s.apply b).get p k = i.value := by
  induction b generalizing s with
  | nil => exact Or.inl rfl
  | cons i b ih =>
      rw [apply_cons]
      rcases ih (s.applyItem i) with hsame | ⟨j, hj, hentry, hvalue⟩
      · rw [hsame, get_applyItem]
        split_ifs with hi
        · exact Or.inr ⟨i, List.mem_cons_self, hi, rfl⟩
        · exact Or.inl rfl
      · exact Or.inr ⟨j, List.mem_cons_of_mem i hj, hentry, hvalue⟩

/-- Where two keyspaces agree they do after the same batch. -/
lemma get_apply_congr {s t : Keyspace π κ ν} {p : π} {k : κ} (h : s.get p k = t.get p k)
    (b : List (BatchItem π κ ν)) : (s.apply b).get p k = (t.apply b).get p k := by
  induction b generalizing s t with
  | nil => exact h
  | cons i b ih =>
      refine ih ?_
      rw [get_applyItem, get_applyItem, h]

/-- What the items of a batch for one entry agree on is there afterwards. -/
lemma get_apply_of_mem {b : List (BatchItem π κ ν)} {i : BatchItem π κ ν} {p : π} {k : κ}
    (hi : i ∈ b) (hentry : i.entry = (p, k))
    (h : ∀ j ∈ b, j.entry = (p, k) → j.value = i.value) (s : Keyspace π κ ν) :
    (s.apply b).get p k = i.value := by
  induction b generalizing s i with
  | nil => cases hi
  | cons j b ih =>
      rw [apply_cons]
      by_cases hmem : ∃ i' ∈ b, i'.entry = (p, k)
      · obtain ⟨i', hi', hentry'⟩ := hmem
        have hvalue := h i' (List.mem_cons_of_mem j hi') hentry'
        rw [← hvalue]
        refine ih hi' hentry' (fun j' hj' hj'e => ?_) _
        rw [h j' (List.mem_cons_of_mem j hj') hj'e, hvalue]
      · have hne : ∀ i' ∈ b, i'.entry ≠ (p, k) := fun i' hi' he => hmem ⟨i', hi', he⟩
        rcases List.mem_cons.mp hi with rfl | hi
        · rw [get_apply_of_entry_ne hne, get_applyItem, if_pos hentry]
        · exact absurd hentry (hne i hi)

omit [DecidableEq π] [DecidableEq κ] in
/-- A keyspace is what its lookups say. -/
lemma ext_get {s t : Keyspace π κ ν} (h : ∀ p k, s.get p k = t.get p k) : s = t :=
  Keyspace.ext (funext fun p => Std.ExtTreeMap.ext_getElem? fun k => h p k)

/-- Of a batch of removals only matters which they are. -/
lemma apply_removes_congr {b c : List (BatchItem π κ ν)} (hb : ∀ i ∈ b, ∃ p k, i = .remove p k)
    (hbc : ∀ i, i ∈ b ↔ i ∈ c) (s : Keyspace π κ ν) : s.apply b = s.apply c := by
  have hc : ∀ i ∈ c, ∃ p k, i = .remove p k := fun i hi => hb i ((hbc i).mpr hi)
  refine ext_get fun p k => ?_
  by_cases hm : BatchItem.remove p k ∈ b
  · rw [(get_apply_removes hb s p k).1 hm, (get_apply_removes hc s p k).1 ((hbc _).mp hm)]
  · have hm' : BatchItem.remove p k ∉ c := fun h => hm ((hbc _).mpr h)
    rw [(get_apply_removes hb s p k).2 hm, (get_apply_removes hc s p k).2 hm']

/-- Items for different entries commute. -/
lemma applyItem_comm {i j : BatchItem π κ ν} (h : i.entry ≠ j.entry) (s : Keyspace π κ ν) :
    (s.applyItem i).applyItem j = (s.applyItem j).applyItem i := by
  refine ext_get fun p k => ?_
  simp only [get_applyItem]
  split_ifs with hj hi
  · exact absurd (hi.trans hj.symm) h
  · rfl
  · rfl
  · rfl

/-- Batches for different entries commute. -/
lemma apply_comm {b c : List (BatchItem π κ ν)} (h : ∀ i ∈ b, ∀ j ∈ c, i.entry ≠ j.entry)
    (s : Keyspace π κ ν) : (s.apply b).apply c = (s.apply c).apply b := by
  have hone : ∀ {i : BatchItem π κ ν}, (∀ j ∈ c, i.entry ≠ j.entry) → ∀ s : Keyspace π κ ν,
      (s.applyItem i).apply c = (s.apply c).applyItem i := by
    intro i hi
    induction c with
    | nil => exact fun s => rfl
    | cons j c ih =>
        intro s
        rw [List.forall_mem_cons] at hi
        rw [apply_cons, apply_cons, applyItem_comm hi.1]
        exact ih (fun i' hi' j' hj' => h i' hi' j' (List.mem_cons_of_mem j hj')) hi.2 _
  induction b generalizing s with
  | nil => rfl
  | cons i b ih =>
      rw [List.forall_mem_cons] at h
      rw [apply_cons, apply_cons, ih h.2, hone h.1]

/-- A walk depends on its partition only. -/
lemma range_apply_of_ne {b : List (BatchItem π κ ν)} {p : π} (h : ∀ i ∈ b, i.entry.1 ≠ p)
    (s : Keyspace π κ ν) (lo : κ) : (s.apply b).range p lo = s.range p lo := by
  have hpart : (s.apply b).partition p = s.partition p := by
    refine Std.ExtTreeMap.ext_getElem? fun k => ?_
    refine get_apply_of_entry_ne (fun i hi heq => h i hi ?_) s
    rw [heq]
  rw [range, range, hpart]

omit [DecidableEq π] [DecidableEq κ] in
/-- A walk contains the entries at or above its lower bound, and nothing else. -/
lemma mem_range {s : Keyspace π κ ν} {p : π} {lo k : κ} {v : ν} :
    (k, v) ∈ s.range p lo ↔ s.get p k = some v ∧ (compare lo k).isLE := by
  simp only [range, get, List.mem_filter, Std.ExtTreeMap.mem_toList_iff_getElem?_eq_some]

omit [DecidableEq π] [DecidableEq κ] [Std.LawfulEqOrd κ] in
/-- A walk visits its entries in strictly ascending key order. -/
lemma range_sorted (s : Keyspace π κ ν) (p : π) (lo : κ) :
    (s.range p lo).Pairwise fun a b => compare a.1 b.1 = .lt :=
  Std.ExtTreeMap.ordered_keys_toList.filter _

omit [Std.LawfulEqOrd κ] [DecidableEq κ] in
/-- A list in key order has no entry twice. -/
lemma nodup_of_sorted {c : List (κ × ν)} (hc : c.Pairwise fun a b => compare a.1 b.1 = .lt) :
    c.Nodup :=
  hc.imp fun {a b} hab heq => by simp [heq] at hab

omit [DecidableEq π] [DecidableEq κ] [Std.LawfulEqOrd κ] in
/-- Entries of a walk in ascending order are met in this order. -/
lemma sublist_range {s : Keyspace π κ ν} {p : π} {lo : κ} {c : List (κ × ν)}
    (hc : c.Pairwise fun a b => compare a.1 b.1 = .lt) (hmem : c ⊆ s.range p lo) :
    c.Sublist (s.range p lo) := by
  have hanti : Std.Antisymm fun a b : κ × ν => compare a.1 b.1 = .lt :=
    ⟨fun a b hab hba => absurd hab (Std.OrientedCmp.not_lt_of_lt hba)⟩
  exact List.sublist_of_subperm_of_pairwise
    (List.subperm_of_subset (nodup_of_sorted hc) hmem) hc (range_sorted s p lo)

omit [DecidableEq π] [DecidableEq κ] [Std.LawfulEqOrd κ] in
/-- A list in key order with the entries of a walk is that walk. -/
lemma eq_range {s : Keyspace π κ ν} {p : π} {lo : κ} {c : List (κ × ν)}
    (hc : c.Pairwise fun a b => compare a.1 b.1 = .lt) (hmem : ∀ e, e ∈ c ↔ e ∈ s.range p lo) :
    c = s.range p lo := by
  have hsub := sublist_range hc fun e => (hmem e).mp
  refine hsub.eq_of_length (Nat.le_antisymm hsub.length_le ?_)
  exact (List.subperm_of_subset (nodup_of_sorted (range_sorted s p lo))
    fun e => (hmem e).mpr).length_le

end Keyspace
