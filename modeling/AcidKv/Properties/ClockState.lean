import AcidKv.Txn.Hlc
import Mathlib.Data.Prod.Lex
import Mathlib.Order.Bounds.Basic

/-!
# What the clock keeps

The clock keeps a physical time and a counter, and compares them in this order.  Every call takes
the pair further (`lt_step`), a message takes it past the timestamp in it (`decode_lt_update`), and
the physical part is the greatest time that the clock has met.  All of this is about the `u32`
counter in memory; what of it gets into a timestamp is another matter.
-/

namespace AcidKv

/-- Physical time first, then the counter. -/
def Timestamp.pair (t : Timestamp) : ℕ ×ₗ ℕ := toLex (t.physical.toNat, t.logical.toNat)

/-- The clock's own pair. -/
def HlcInner.pair (inner : HlcInner) : ℕ ×ₗ ℕ :=
  toLex (inner.latestPhysical.toNat, inner.logical.toNat)

namespace HybridLogicalClock

/-- The counter does not run over the `u32`: while the physical time stands still it is below the
last one.  (Where it goes on from the counter in a message, that has sixteen bits.) -/
def NoOverflow (inner : HlcInner) : ClockCall → Prop
  | .now physicalNow => physicalNow ≤ inner.latestPhysical → inner.logical < 0xFFFFFFFF
  | .update remoteTs physicalNow => physicalNow ≤ inner.latestPhysical →
      (Timestamp.decode remoteTs).physical ≤ inner.latestPhysical → inner.logical < 0xFFFFFFFF

/-- The physical times that a call brings in. -/
def ClockCall.physicals : ClockCall → List UInt64
  | .now physicalNow => [physicalNow]
  | .update remoteTs physicalNow => [physicalNow, (Timestamp.decode remoteTs).physical]

section

variable {inner : HlcInner} {remoteTs physicalNow : UInt64}

/-- The greatest of three times is one of them, and none of them is later. -/
lemma maxPhysical_spec (a b c : UInt64) :
    (max (max a b) c = a ∨ max (max a b) c = b ∨ max (max a b) c = c) ∧
      a ≤ max (max a b) c ∧ b ≤ max (max a b) c ∧ c ≤ max (max a b) c := by
  have hmax : ∀ x y : UInt64, max x y = if x ≤ y then y else x := fun _ _ => rfl
  simp only [hmax, UInt64.le_iff_toNat_le]
  split_ifs <;> simp <;> omega

/-- The greater of two counters that are below `m` is. -/
lemma max_lt {a b m : UInt32} (ha : a < m) (hb : b < m) : max a b < m := by
  have hmax : max a b = if a ≤ b then b else a := rfl
  rw [hmax]
  split_ifs
  · exact hb
  · exact ha

lemma toNat_le_max (a b : UInt32) : a.toNat ≤ (max a b).toNat ∧ b.toNat ≤ (max a b).toNat := by
  have hmax : max a b = if a ≤ b then b else a := rfl
  rw [hmax]
  split_ifs with hle
  · exact ⟨UInt32.le_iff_toNat_le.mp hle, Nat.le_refl _⟩
  · rw [UInt32.le_iff_toNat_le] at hle
    exact ⟨Nat.le_refl _, by omega⟩

lemma toNat_succ {n : UInt32} (h : n < 0xFFFFFFFF) : (n + 1).toNat = n.toNat + 1 := by
  rw [UInt32.lt_iff_toNat_lt] at h
  simp only [UInt32.reduceToNat] at h
  rw [UInt32.toNat_add]
  exact Nat.mod_eq_of_lt (by simp only [UInt32.reduceToNat]; omega)

lemma decode_logical_lt (remoteTs : UInt64) :
    (Timestamp.decode remoteTs).logical < 0xFFFFFFFF := by
  have hmod : remoteTs.toNat % 2 ^ 16 < 2 ^ 16 := Nat.mod_lt _ (by decide)
  rw [UInt32.lt_iff_toNat_lt, Timestamp.toNat_decode_logical]
  simp only [UInt32.reduceToNat]
  omega

/-! ## One call -/

/-- The state that `now` leaves. -/
lemma now_snd : (now physicalNow inner).2 =
    if physicalNow > inner.latestPhysical then ⟨physicalNow, 0⟩
    else { inner with logical := inner.logical + 1 } := rfl

/-- The physical part after a message. -/
lemma latestPhysical_update : (update remoteTs physicalNow inner).latestPhysical =
    max (max physicalNow inner.latestPhysical) (Timestamp.decode remoteTs).physical := rfl

/-- Where the physical part stays, the counter goes past what it was before and past that of the
message. -/
lemma logical_update (h : NoOverflow inner (.update remoteTs physicalNow)) :
    ((update remoteTs physicalNow inner).latestPhysical = inner.latestPhysical →
        inner.logical.toNat < (update remoteTs physicalNow inner).logical.toNat) ∧
      ((update remoteTs physicalNow inner).latestPhysical =
          (Timestamp.decode remoteTs).physical →
        (Timestamp.decode remoteTs).logical.toNat <
          (update remoteTs physicalNow inner).logical.toNat) := by
  have hsmall := decode_logical_lt remoteTs
  obtain ⟨-, hnow, -, hremote⟩ := maxPhysical_spec physicalNow inner.latestPhysical
    (Timestamp.decode remoteTs).physical
  rw [latestPhysical_update]
  simp only [update]
  -- `m` is the greatest of the three times
  generalize max (max physicalNow inner.latestPhysical) (Timestamp.decode remoteTs).physical = m
    at hnow hremote ⊢
  have hroom : m = inner.latestPhysical → inner.logical < 0xFFFFFFFF := by
    rintro rfl
    exact h hnow hremote
  by_cases hstay : m = inner.latestPhysical
  · have hlog := hroom hstay
    by_cases hsame : m = (Timestamp.decode remoteTs).physical
    · have hle := toNat_le_max inner.logical (Timestamp.decode remoteTs).logical
      rw [if_pos ⟨hstay, hsame⟩, toNat_succ (max_lt hlog hsmall)]
      omega
    · rw [if_neg fun hand => hsame hand.2, if_pos hstay, toNat_succ hlog]
      exact ⟨fun _ => Nat.lt_succ_self _, fun heq => absurd heq hsame⟩
  · refine ⟨fun heq => absurd heq hstay, fun hsame => ?_⟩
    rw [if_neg fun hand => hstay hand.1, if_neg hstay, if_pos hsame, toNat_succ hsmall]
    exact Nat.lt_succ_self _

/-- **Every call takes the pair further.** -/
lemma lt_step {c : ClockCall} (h : NoOverflow inner c) : inner.pair < (step inner c).pair := by
  rw [HlcInner.pair, HlcInner.pair, Prod.Lex.toLex_lt_toLex]
  cases c with
  | now physicalNow =>
      simp only [step, now_snd]
      split_ifs with hnow
      · exact Or.inl (UInt64.lt_iff_toNat_lt.mp hnow)
      · right
        simp only [toNat_succ (h (UInt64.not_lt.mp hnow)), true_and]
        exact Nat.lt_succ_self _
  | update remoteTs physicalNow =>
      obtain ⟨-, -, hle, -⟩ := maxPhysical_spec physicalNow inner.latestPhysical
        (Timestamp.decode remoteTs).physical
      rw [← latestPhysical_update, UInt64.le_iff_toNat_le] at hle
      rcases Nat.lt_or_eq_of_le hle with hlt | heq
      · exact Or.inl hlt
      · exact Or.inr ⟨heq, (logical_update h).1 (UInt64.toNat_inj.mp heq.symm)⟩

/-- A message takes the pair past the timestamp in it. -/
lemma decode_lt_update (h : NoOverflow inner (.update remoteTs physicalNow)) :
    (Timestamp.decode remoteTs).pair < (update remoteTs physicalNow inner).pair := by
  obtain ⟨-, -, -, hle⟩ := maxPhysical_spec physicalNow inner.latestPhysical
    (Timestamp.decode remoteTs).physical
  rw [← latestPhysical_update, UInt64.le_iff_toNat_le] at hle
  rw [HlcInner.pair, Timestamp.pair, Prod.Lex.toLex_lt_toLex]
  rcases Nat.lt_or_eq_of_le hle with hlt | heq
  · exact Or.inl hlt
  · exact Or.inr ⟨heq, (logical_update h).2 (UInt64.toNat_inj.mp heq.symm)⟩

/-- The physical part is the greatest of what it was and what the call brings in. -/
lemma isGreatest_step (c : ClockCall) :
    IsGreatest {x | x = inner.latestPhysical ∨ x ∈ c.physicals} (step inner c).latestPhysical := by
  cases c with
  | now physicalNow =>
      simp only [step, now_snd, ClockCall.physicals, List.mem_singleton]
      split_ifs with hnow
      · refine ⟨Or.inr rfl, ?_⟩
        rintro x (rfl | rfl)
        · exact UInt64.le_of_lt hnow
        · exact UInt64.le_rfl
      · refine ⟨Or.inl rfl, ?_⟩
        rintro x (rfl | rfl)
        · exact UInt64.le_rfl
        · exact UInt64.not_lt.mp hnow
  | update remoteTs physicalNow =>
      obtain ⟨hmem, hnow, hle, hremote⟩ := maxPhysical_spec physicalNow inner.latestPhysical
        (Timestamp.decode remoteTs).physical
      rw [← latestPhysical_update] at hmem hnow hle hremote
      simp only [ClockCall.physicals, List.mem_pair]
      constructor
      · exact or_left_comm.mp hmem
      · rintro x (rfl | rfl | rfl)
        · exact hle
        · exact hnow
        · exact hremote

/-! ## Runs -/

lemma isGreatest_steps (calls : List ClockCall) :
    IsGreatest {x | x = inner.latestPhysical ∨ ∃ c ∈ calls, x ∈ c.physicals}
      (calls.foldl step inner).latestPhysical := by
  induction calls generalizing inner with
  | nil =>
      refine ⟨Or.inl rfl, ?_⟩
      rintro x (rfl | ⟨c, hc, -⟩)
      · exact UInt64.le_rfl
      · exact absurd hc List.not_mem_nil
  | cons c calls ih =>
      obtain ⟨hmem, hupper⟩ := @ih (step inner c)
      obtain ⟨hmem₁, hupper₁⟩ := @isGreatest_step inner c
      constructor
      · rcases hmem with heq | ⟨c', hc', hx⟩
        · rw [List.foldl_cons, heq]
          rcases hmem₁ with hold | hnew
          · exact Or.inl hold
          · exact Or.inr ⟨c, List.mem_cons_self, hnew⟩
        · exact Or.inr ⟨c', List.mem_cons_of_mem c hc', hx⟩
      · have hstep := hupper (Or.inl rfl)
        rintro x (rfl | ⟨c', hc', hx⟩)
        · exact UInt64.le_trans (hupper₁ (Or.inl rfl)) hstep
        · rcases List.mem_cons.mp hc' with rfl | hc'
          · exact UInt64.le_trans (hupper₁ (Or.inr hx)) hstep
          · exact hupper (Or.inr ⟨c', hc', hx⟩)

end

/-- **The clock's state dominates what it has seen.**  As long as the counter does not overflow, in
every run and whatever the system time does: each call takes the pair of physical time and counter
further, after a message it is greater than the timestamp in it, and the physical time is the
greatest that was there at the start or has come in since. -/
theorem state_dominates (inner : HlcInner) (calls : List ClockCall)
    (hroom : Guarded step NoOverflow inner calls) :
    (∀ done c, done ++ [c] <+: calls →
      (done.foldl step inner).pair < ((done ++ [c]).foldl step inner).pair) ∧
    (∀ done remoteTs physicalNow, done ++ [.update remoteTs physicalNow] <+: calls →
      (Timestamp.decode remoteTs).pair <
        ((done ++ [.update remoteTs physicalNow]).foldl step inner).pair) ∧
    ∀ done, done <+: calls →
      IsGreatest {x | x = inner.latestPhysical ∨ ∃ c ∈ done, x ∈ c.physicals}
        (done.foldl step inner).latestPhysical := by
  have hlast : ∀ done c, done ++ [c] <+: calls → NoOverflow (done.foldl step inner) c := by
    rintro done c ⟨rest, rfl⟩
    rw [List.append_assoc] at hroom
    exact (guarded_append.mp hroom).2.1
  refine ⟨fun done c hdone => ?_, fun done remoteTs physicalNow hdone => ?_, fun done _ => ?_⟩
  · rw [List.foldl_append]
    exact lt_step (hlast done c hdone)
  · rw [List.foldl_append]
    exact decode_lt_update (hlast done _ hdone)
  · exact isGreatest_steps done

/-- The system time goes back, and a message comes from ahead with the last counter of sixteen
bits. -/
theorem state_dominates_ahead :
    (Timestamp.decode 524287).pair < ([ClockCall.now 4, .update 524287 3].foldl step (new 5)).pair ∧
      IsGreatest {x | x = (new 5).latestPhysical ∨
          ∃ c ∈ [ClockCall.now 4, .update 524287 3], x ∈ c.physicals}
        ([ClockCall.now 4, .update 524287 3].foldl step (new 5)).latestPhysical := by
  obtain ⟨-, hafter, hgreatest⟩ := state_dominates (new 5) [.now 4, .update 524287 3]
    ⟨fun _ => by decide, fun _ _ => by decide, trivial⟩
  exact ⟨hafter [.now 4] 524287 3 (List.prefix_refl _), hgreatest _ (List.prefix_refl _)⟩

end HybridLogicalClock

end AcidKv
