import AcidKv.Raft.Log

/-!
# What a storage writes

Every change to the Raft state of a region inserts under the region's own keys and touches nothing
else, so that regions do not get in each other's way.
-/

namespace AcidKv

open Raft

/-- Writes that insert under the keys of region `r` only. -/
structure WritesUnder (r : UInt64) (st st' : Store) : Prop where
  frame : ∀ k, ¬ Owned r k → st'.get .default k = st.get .default k
  grows : ∀ k, st'.get .default k = none → st.get .default k = none

namespace WritesUnder

variable {r r' : UInt64} {st st' st'' : Store}

lemma refl (r : UInt64) (st : Store) : WritesUnder r st st := ⟨fun _ _ => rfl, fun _ h => h⟩

lemma trans (h : WritesUnder r st st') (h' : WritesUnder r st' st'') : WritesUnder r st st'' :=
  ⟨fun k hk => (h'.frame k hk).trans (h.frame k hk), fun k hk => h.grows k (h'.grows k hk)⟩

/-- A batch of inserts under the keys of the region. -/
lemma of_batch {b : Batch} (h : ∀ i ∈ b, ∃ k v, i = .insert .default k v ∧ Owned r k) :
    WritesUnder r st (st.apply b) where
  frame k hk := by
    refine Keyspace.get_apply_of_entry_ne (fun i hi heq => ?_) st
    obtain ⟨k', v, rfl, hk'⟩ := h i hi
    obtain rfl : k' = k := (Prod.mk.inj heq).2
    exact hk hk'
  grows k hk := by
    rcases Keyspace.get_apply_origin st b .default k with hsame | ⟨i, hi, -, hvalue⟩
    · rw [← hsame, hk]
    · obtain ⟨k', v, rfl, -⟩ := h i hi
      rw [hk] at hvalue
      cases hvalue

lemma put {k : Bytes} (hk : Owned r k) (v : Bytes) :
    WritesUnder r st (st.apply [.insert .default k v]) :=
  .of_batch fun _ hi => ⟨k, v, List.mem_singleton.mp hi, hk⟩

/-- Another region stays fresh. -/
lemma fresh (h : WritesUnder r st st') (hne : r' ≠ r) (hfresh : FreshRegion st r') :
    FreshRegion st' r' := by
  intro k hk
  rw [h.frame k fun hk' => hne (hk.unique hk'), hfresh k hk]

/-- No region gets fresh. -/
lemma fresh_before (h : WritesUnder r st st') (hfresh : FreshRegion st' r') : FreshRegion st r' :=
  fun k hk => h.grows k (hfresh k hk)

end WritesUnder

lemma append_writes (pb : Protobuf) (s : RaftStorage) (es : List Raft.Entry) (engine : Store) :
    (s.append pb es engine).2.1.regionId = s.regionId ∧
      WritesUnder s.regionId engine (s.append pb es engine).2.2 := by
  unfold RaftStorage.append
  split
  · exact ⟨rfl, .refl _ _⟩
  · split_ifs
    · exact ⟨rfl, .refl _ _⟩
    · refine ⟨rfl, .of_batch fun i hi => ?_⟩
      obtain ⟨e, -, b, -, rfl⟩ := mem_appendBatch.mp hi
      exact ⟨_, b, rfl, Or.inr (Or.inr (prefix_entryKey _ _))⟩

lemma setHardState_writes (pb : Protobuf) (s : RaftStorage) (hs : HardState) (engine : Store) :
    (s.setHardState pb hs engine).1.regionId = s.regionId ∧
      WritesUnder s.regionId engine (s.setHardState pb hs engine).2 := by
  unfold RaftStorage.setHardState
  refine ⟨rfl, ?_⟩
  cases pb.hardState.writeToBytes hs with
  | none => exact .refl _ _
  | some bytes => exact .put (Or.inl rfl) bytes

lemma setConfState_writes (pb : Protobuf) (s : RaftStorage) (cs : ConfState) (engine : Store) :
    (s.setConfState pb cs engine).1.regionId = s.regionId ∧
      WritesUnder s.regionId engine (s.setConfState pb cs engine).2 := by
  unfold RaftStorage.setConfState
  refine ⟨rfl, ?_⟩
  cases pb.confState.writeToBytes cs with
  | none => exact .refl _ _
  | some bytes => exact .put (Or.inr (Or.inl rfl)) bytes

end AcidKv
