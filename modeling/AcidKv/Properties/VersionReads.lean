import AcidKv.Properties.Verdicts
import AcidKv.Refine.PointReads

/-!
# Reads against the versions of the keys

What a read at a timestamp ought to return is a matter of the versions of a key: the newest one up
to that timestamp that is not a rollback counts.  Over prefix-free keys a point read returns just
that.
-/

namespace AcidKv

open KeyEncoder Coordinator

/-- The version of `k` that counts at `r`. -/
abbrev Current (v : View) (k : Bytes) (r : UInt64) : UInt64 → WriteRecord → Prop :=
  Latest v k r fun w => w.op ≠ .rollback

/-- **A point read over prefix-free keys.**  It fails with `KeyIsLocked` exactly if a lock up to the
timestamp stands on the key; otherwise it returns the value of the version that counts. -/
theorem readerGet_eq_current (U : Set Bytes) (hU : PrefixFree U) (st : Store) (h : WF U st)
    (k : Bytes) (r : UInt64) (clock : ℕ → UInt64) :
    ((MvccReader.get k r).run clock st).2 = st ∧
    ((∃ p t, ((MvccReader.get k r).run clock st).1 = .error (.keyIsLocked p t)) ↔
      ∃ l, (view st).lock k = some l ∧ l.startTs ≤ r) ∧
    ((¬ ∃ l, (view st).lock k = some l ∧ l.startTs ≤ r) →
      (∀ ts s x, Current (view st) k r ts ⟨s, .put⟩ → (view st).data k s = some x →
        ((MvccReader.get k r).run clock st).1 = .ok (some x)) ∧
      (∀ ts s, Current (view st) k r ts ⟨s, .put⟩ → (view st).data k s = none →
        ((MvccReader.get k r).run clock st).1 = .error .corruptedState) ∧
      (∀ ts s, Current (view st) k r ts ⟨s, .delete⟩ →
        ((MvccReader.get k r).run clock st).1 = .ok none) ∧
      ((∀ ts w, ¬ Current (view st) k r ts w) →
        ((MvccReader.get k r).run clock st).1 = .ok none)) := by
  by_cases hlocked : ∃ l, (view st).lock k = some l ∧ l.startTs ≤ r
  · obtain ⟨l, hl, hle⟩ := hlocked
    rw [readerGet_of_locked hl hle]
    exact ⟨rfl, ⟨fun _ => ⟨l, hl, hle⟩, fun _ => ⟨_, _, rfl⟩⟩, fun hnot => absurd ⟨l, hl, hle⟩ hnot⟩
  · have hfree : Unlocked (view st) k r := fun l hl =>
      UInt64.not_le.mp fun hle => hlocked ⟨l, hl, hle⟩
    obtain ⟨out, hrun, hyields⟩ := @readerGet_yields U st r k hU h clock hfree
    have hcurrent : ∀ {ts w}, Current (view st) k r ts w → out = (view st).readRecord k w := by
      intro ts w hts
      cases hyields with
      | found hfound => rw [(hfound.unique hts).2]
      | nothing hnone => exact absurd hts (hnone ts w)
    rw [hrun]
    refine ⟨rfl, ⟨?_, fun hl => absurd hl hlocked⟩, fun _ => ⟨?_, ?_, ?_, ?_⟩⟩
    · rintro ⟨p, t, hout⟩
      exact absurd hout (hyields.not_locked p t)
    · intro ts s x hts hdata
      simp [hcurrent hts, View.readRecord, hdata]
    · intro ts s hts hdata
      simp [hcurrent hts, View.readRecord, hdata]
    · intro ts s hts
      rw [hcurrent hts]
      rfl
    · intro hnone
      cases hyields with
      | found hfound => exact absurd hfound (hnone _ _)
      | nothing _ => rfl

/-- Two keys, the first one with a committed and a rolled back version, the second one locked. -/
def oneLocked : List Event :=
  [{ call := .prewrite 65536 [.put [1] [10]] [1] 3000 },
   { call := .commit 65536 65537 [[1]] },
   { call := .rollback 65538 [[1]] },
   { call := .prewrite 65540 [.put [2] [20]] [2] 3000 }]

/-- The rollback is passed over, and the locked key is reported. -/
theorem readerGet_oneLocked :
    ((MvccReader.get [1] 65539).run (fun _ => 0) (Config.init.steps oneLocked).store).1
        = .ok (some [10]) ∧
      ∃ p t, ((MvccReader.get [2] 65540).run (fun _ => 0) (Config.init.steps oneLocked).store).1
        = .error (.keyIsLocked p t) := by
  have hU : PrefixFree (RunKeys oneLocked) := prefixFree_runKeys (by decide)
  have hwf := wf_runKeys oneLocked
  have hcurrent : Current (view (Config.init.steps oneLocked).store) [1] 65539 65537
      ⟨65536, .put⟩ :=
    ((findVersion_walk hwf).mp (by decide) : Sees _ _ _ _ _).toLatest
  have hfree : ¬ ∃ l, (view (Config.init.steps oneLocked).store).lock [1] = some l ∧
      l.startTs ≤ 65539 := by
    have hnone : (view (Config.init.steps oneLocked).store).lock [1] = none := by decide
    simp [hnone]
  refine ⟨?_, ?_⟩
  · exact ((readerGet_eq_current _ hU _ hwf [1] 65539 _).2.2 hfree).1 65537 65536 [10] hcurrent
      (by decide)
  · exact (readerGet_eq_current _ hU _ hwf [2] 65540 _).2.1.mpr
      ⟨⟨[2], 65540, 3000, .put⟩, by decide, by decide⟩

end AcidKv
