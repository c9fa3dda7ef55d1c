import AcidKv.Storage.Engine

/-!
# Two collections in a row

A collection is a sift of the write partition: of the entries that it walks over, `gcSift` says
which go.  The first of two collections thins out the runs of versions that the second walks over.
It leaves the first version below its safe point in each of them, so no run disappears and no two
get together; with the higher safe point last the two remove what that one alone does
(`absorbs_gcSift`), and with the lower one last nothing is left to remove (`covers_gcSift`).

Nothing is assumed of the entries.  Those with a key that is too short are passed over, and those
with a record that cannot be read are removed without a value.
-/

namespace AcidKv

open KeyEncoder StorageEngine

namespace StorageEngine

/-! ## Two sifts -/

/-- A lower safe point first: what it removes the higher one would remove, and the version that
comes before it in its run is still there. -/
lemma absorbs_gcSift {a b : UInt64} (hab : a ≤ b) :
    (gcSift a).Absorbs (gcSift b) fun s t => s.1 = t.1 ∧ (s.2 → t.2) := by
  rintro ⟨last, sa⟩ ⟨last', sb⟩ ⟨e, bytes⟩ ⟨rfl, hseen⟩
  cases hdec : decode e with
  | error err => simpa [gcSift, hdec] using hseen
  | ok kt =>
      obtain ⟨k, ts⟩ := kt
      have hlow : ts < a → ts < b := fun h => UInt64.lt_of_lt_of_le h hab
      simp only [gcSift, hdec, decide_eq_true_eq, Prod.mk.injEq, true_and]
      split_ifs with hgoes
      · obtain ⟨hts, rfl, rfl⟩ := hgoes
        obtain rfl : sb = true := hseen rfl
        exact ⟨⟨hlow hts, rfl, rfl⟩, ⟨rfl, by simp⟩, rfl, fun _ => rfl⟩
      · rintro (hts | ⟨hlast, hsa⟩)
        · exact Or.inl (hlow hts)
        · exact Or.inr ⟨hlast, hseen hsa⟩

/-- A higher safe point first: of each run it leaves one version below it. -/
lemma covers_gcSift {a b : UInt64} (hba : b ≤ a) :
    (gcSift a).Covers (gcSift b) fun s t => s.1 = t.1 ∧ (t.2 → s.2) := by
  rintro ⟨last, sa⟩ ⟨last', sb⟩ ⟨e, bytes⟩ ⟨rfl, hseen⟩
  cases hdec : decode e with
  | error err => simpa [gcSift, hdec] using hseen
  | ok kt =>
      obtain ⟨k, ts⟩ := kt
      have hlow : ts < b → ts < a := fun h => UInt64.lt_of_lt_of_le h hba
      simp only [gcSift, hdec, decide_eq_true_eq, decide_eq_false_iff_not, Prod.mk.injEq, true_and]
      split_ifs with hgoes
      · obtain ⟨hts, hlast, -⟩ := hgoes
        exact ⟨hlast.symm, fun _ => Or.inl hts⟩
      · constructor
        · rintro ⟨hts, hlast, hsb⟩
          exact hgoes ⟨hlow hts, hlast, hseen hsb⟩
        · rintro (hts | ⟨hlast, hsb⟩)
          · exact Or.inl (hlow hts)
          · exact Or.inr ⟨hlast, hseen hsb⟩

/-! ## The store -/

/-- The next collection walks over what stays. -/
lemma range_collected (sp : UInt64) (st : Store) :
    (st.apply ((collected sp st).flatMap gcItems)).range .write [] =
      (gcSift sp).kept (none, false) (st.range .write []) := by
  have hsorted := st.range_sorted .write []
  refine (Keyspace.eq_range (hsorted.sublist ((gcSift sp).kept_sublist _ _)) fun x => ?_).symm
  obtain ⟨e, b⟩ := x
  have hget := Keyspace.get_apply_removes (removes_flatMap (collected sp st)) st .write e
  rw [remove_write_mem_flatMap] at hget
  rw [(gcSift sp).mem_kept_iff _ (Keyspace.nodup_of_sorted hsorted), mem_range_nil, mem_range_nil]
  constructor
  · rintro ⟨hb, hstays⟩
    rw [hget.2, hb]
    rintro ⟨b', hgone⟩
    have hb' := mem_range_nil.mp ((gcSift sp).gone_subset _ _ hgone)
    rw [hb, Option.some.injEq] at hb'
    exact hstays (hb' ▸ hgone)
  · intro hb
    have hstays : ¬ ∃ b', (e, b') ∈ collected sp st := by
      intro hgone
      rw [hget.1 hgone] at hb
      cases hb
    rw [hget.2 hstays] at hb
    exact ⟨hb, fun hgone => hstays ⟨b, hgone⟩⟩

lemma collected_again (a b : UInt64) (st : Store) :
    collected b (st.apply ((collected a st).flatMap gcItems)) =
      (gcSift b).gone (none, false) ((gcSift a).kept (none, false) (st.range .write [])) := by
  rw [collected, range_collected]

/-- A second collection with the same or a lower safe point finds nothing. -/
lemma collected_eq_nil {a b : UInt64} (hba : b ≤ a) (st : Store) :
    collected b (st.apply ((collected a st).flatMap gcItems)) = [] := by
  rw [collected_again]
  exact (covers_gcSift hba).gone_kept_eq_nil ⟨rfl, id⟩ _

/-- In either order the two remove what the one with the higher safe point does. -/
lemma collected_perm_max (a b : UInt64) (st : Store) :
    (collected a st ++ collected b (st.apply ((collected a st).flatMap gcItems))).Perm
      (collected (max a b) st) := by
  have hmax : max a b = if a ≤ b then b else a := rfl
  rw [hmax]
  split_ifs with hab
  · rw [collected_again]
    exact (absorbs_gcSift hab).gone_perm ⟨rfl, id⟩ _
  · rw [collected_eq_nil (UInt64.le_of_lt (UInt64.not_le.mp hab)), List.append_nil]

end StorageEngine

/-- **Collections compose.**  Two collections leave the store that one with the higher of their safe
points leaves, and remove as many versions together; repeating a collection removes nothing. -/
theorem gc_compose {ε : Type} (st : Store) (a b : UInt64) (clock₁ clock₂ clock : ℕ → UInt64) :
    let first := (gcKeysOlderThan a : Handler ε ℕ).run clock₁ st
    let second := (gcKeysOlderThan b : Handler ε ℕ).run clock₂ first.2
    let once := (gcKeysOlderThan (max a b) : Handler ε ℕ).run clock st
    let again := (gcKeysOlderThan a : Handler ε ℕ).run clock₂ first.2
    second.2 = once.2 ∧
      (∃ m n, first.1 = .ok m ∧ second.1 = .ok n ∧ once.1 = .ok (m + n)) ∧
      again = (.ok 0, first.2) := by
  intro first second once again
  have hperm := collected_perm_max a b st
  simp only [first, second, once, again, run_gcKeysOlderThan]
  refine ⟨?_, ⟨_, _, rfl, rfl, ?_⟩, ?_⟩
  · rw [← Keyspace.apply_append, ← List.flatMap_append]
    exact Keyspace.apply_removes_congr (removes_flatMap _)
      (fun i => (hperm.flatMap_right gcItems).mem_iff) st
  · rw [← hperm.length_eq, List.length_append]
  · rw [collected_eq_nil UInt64.le_rfl]
    rfl

end AcidKv
