import AcidKv.Properties.ClockState

/-!
# The clock's timestamps increase

`Below x inner` says that the clock has gone at least as far as the timestamp `x`, counting the
whole of its counter.  Every call keeps that up for all timestamps given out or received, and what
`now` gives out next is greater than all of them (`lt_now`).

Two counters can run over.  The sixteen bits that `encode` keeps do after 65536 calls within a
millisecond, or at once after a message whose logical part is close to their end; the `u32` itself
does after 2^32 messages.  `Room` is what is left out for that.
-/

namespace AcidKv

namespace HybridLogicalClock

/-- The clock has gone at least as far as `x`. -/
def Below (x : UInt64) (inner : HlcInner) : Prop :=
  x.toNat / 2 ^ 16 < inner.latestPhysical.toNat ∨
    x.toNat / 2 ^ 16 = inner.latestPhysical.toNat ∧ x.toNat % 2 ^ 16 ≤ inner.logical.toNat

/-- The counters have room for a call: while the physical time stands still, `now` finds the
logical counter below the last value that fits sixteen bits, and `update` below the last `u32`. -/
def Room (inner : HlcInner) : ClockCall → Prop
  | .now physicalNow => physicalNow ≤ inner.latestPhysical → inner.logical < 0xFFFF
  | .update remoteTs physicalNow => physicalNow ≤ inner.latestPhysical →
      (Timestamp.decode remoteTs).physical ≤ inner.latestPhysical → inner.logical < 0xFFFFFFFF

/-- The physical part fits the forty-eight bits above the logical one. -/
def Fits (inner : HlcInner) : Prop := inner.latestPhysical.toNat < 2 ^ 48

section

variable {inner : HlcInner} {x remoteTs physicalNow : UInt64}

lemma Room.noOverflow {c : ClockCall} (h : Room inner c) : NoOverflow inner c := by
  cases c with
  | now physicalNow => exact fun hle => UInt32.lt_trans (h hle) (by decide)
  | update remoteTs physicalNow => exact h

/-- Below a clock is what its pair has reached. -/
lemma below_iff : Below x inner ↔ (Timestamp.decode x).pair ≤ inner.pair := by
  rw [Timestamp.pair, HlcInner.pair, Prod.Lex.toLex_le_toLex, Timestamp.toNat_decode_physical,
    Timestamp.toNat_decode_logical, Below]

lemma fits_step {c : ClockCall} (hreading : c.reading.toNat < 2 ^ 48) (h : Fits inner) :
    Fits (step inner c) := by
  cases c with
  | now physicalNow =>
      simp only [Fits, step, now_snd]
      split_ifs
      · exact hreading
      · exact h
  | update remoteTs physicalNow =>
      have hremote : (Timestamp.decode remoteTs).physical.toNat < 2 ^ 48 := by
        have hlt := remoteTs.toNat_lt
        rw [Timestamp.toNat_decode_physical]
        omega
      simp only [Fits, step, update]
      obtain ⟨hmax | hmax | hmax, -⟩ := maxPhysical_spec physicalNow inner.latestPhysical
        (Timestamp.decode remoteTs).physical
      · rw [hmax]
        exact hreading
      · rw [hmax]
        exact h
      · rw [hmax]
        exact hremote

/-- What `now` gives out is the state it leaves, packed. -/
lemma toNat_now (hreading : physicalNow.toNat < 2 ^ 48) (hfits : Fits inner) :
    (now physicalNow inner).1.toNat = (now physicalNow inner).2.latestPhysical.toNat * 2 ^ 16 +
      (now physicalNow inner).2.logical.toNat % 2 ^ 16 :=
  Timestamp.toNat_encode (@fits_step inner (.now physicalNow) hreading hfits)

/-- `now` gives out more than anything the clock has gone past, and goes that far itself. -/
lemma lt_now (hroom : Room inner (.now physicalNow)) (hreading : physicalNow.toNat < 2 ^ 48)
    (hfits : Fits inner) (h : Below x inner) : x < (now physicalNow inner).1 := by
  rw [UInt64.lt_iff_toNat_lt, toNat_now hreading hfits, now_snd]
  split_ifs with hnow
  · have hlt : inner.latestPhysical.toNat < physicalNow.toNat := UInt64.lt_iff_toNat_lt.mp hnow
    have hphys : x.toNat / 2 ^ 16 ≤ inner.latestPhysical.toNat := by
      rcases h with h | h
      · exact Nat.le_of_lt h
      · exact Nat.le_of_eq h.1
    simp only
    omega
  · have hlog := hroom (UInt64.not_lt.mp hnow)
    have hsucc : (inner.logical + 1).toNat = inner.logical.toNat + 1 :=
      toNat_succ (UInt32.lt_trans hlog (by decide))
    rw [UInt32.lt_iff_toNat_lt] at hlog
    simp only [UInt32.reduceToNat] at hlog
    simp only [hsucc]
    rcases h with h | ⟨hphys, hle⟩
    · omega
    · omega

lemma Below.now_self (hreading : physicalNow.toNat < 2 ^ 48) (hfits : Fits inner) :
    Below (now physicalNow inner).1 (now physicalNow inner).2 := by
  have hmod : (now physicalNow inner).2.logical.toNat % 2 ^ 16
      ≤ (now physicalNow inner).2.logical.toNat := Nat.mod_le _ _
  rw [Below, toNat_now hreading hfits]
  right
  constructor
  · omega
  · omega

/-- No call takes the clock back. -/
lemma Below.step {c : ClockCall} (hroom : Room inner c) (h : Below x inner) :
    Below x (step inner c) := by
  rw [below_iff] at h ⊢
  exact h.trans (le_of_lt (lt_step hroom.noOverflow))

/-- After a message the clock has gone as far as the timestamp in it. -/
lemma Below.update_self (hroom : Room inner (.update remoteTs physicalNow)) :
    Below remoteTs (update remoteTs physicalNow inner) := by
  rw [below_iff]
  exact le_of_lt (decode_lt_update hroom.noOverflow)

/-- Whatever the clock has gone past is below all that it gives out from then on. -/
lemma Below.lt_issued {calls : List ClockCall} (h : Below x inner) (hfits : Fits inner)
    (hroom : Guarded HybridLogicalClock.step Room inner calls)
    (hreading : ∀ c ∈ calls, c.reading.toNat < 2 ^ 48) : ∀ y ∈ issued inner calls, x < y := by
  induction calls generalizing inner with
  | nil => simp [issued]
  | cons c calls ih =>
      rw [List.forall_mem_cons] at hreading
      have hrest := ih (h.step hroom.1) (fits_step hreading.1 hfits) hroom.2 hreading.2
      cases c with
      | now physicalNow =>
          rw [issued, List.forall_mem_cons]
          exact ⟨lt_now hroom.1 hreading.1 hfits h, hrest⟩
      | update remoteTs physicalNow => exact hrest

lemma issued_increasing {calls : List ClockCall} (hfits : Fits inner)
    (hroom : Guarded HybridLogicalClock.step Room inner calls)
    (hreading : ∀ c ∈ calls, c.reading.toNat < 2 ^ 48) :
    (issued inner calls).Pairwise (· < ·) := by
  induction calls generalizing inner with
  | nil => exact List.Pairwise.nil
  | cons c calls ih =>
      rw [List.forall_mem_cons] at hreading
      have hrest := ih (fits_step hreading.1 hfits) hroom.2 hreading.2
      cases c with
      | now physicalNow =>
          have hself := Below.now_self hreading.1 hfits
          exact List.pairwise_cons.mpr
            ⟨hself.lt_issued (fits_step hreading.1 hfits) hroom.2 hreading.2, hrest⟩
      | update remoteTs physicalNow => exact hrest

lemma fits_steps {calls : List ClockCall} (hfits : Fits inner)
    (hreading : ∀ c ∈ calls, c.reading.toNat < 2 ^ 48) :
    Fits (calls.foldl HybridLogicalClock.step inner) := by
  induction calls generalizing inner with
  | nil => exact hfits
  | cons c calls ih =>
      rw [List.forall_mem_cons] at hreading
      exact ih (fits_step hreading.1 hfits) hreading.2

end

/-- While the counters have room, the timestamps that `now` returns are strictly increasing, and
after `update(r)` they are greater than `r`. -/
theorem now_strictly_increasing (start : UInt64) (calls : List ClockCall)
    (hstart : start.toNat < 2 ^ 48) (hreading : ∀ c ∈ calls, c.reading.toNat < 2 ^ 48)
    (hroom : Guarded step Room (new start) calls) :
    (issued (new start) calls).Pairwise (· < ·) ∧
      ∀ calls₁ remoteTs physicalNow calls₂,
        calls = calls₁ ++ .update remoteTs physicalNow :: calls₂ →
        ∀ x ∈ issued (update remoteTs physicalNow (calls₁.foldl step (new start))) calls₂,
          remoteTs < x := by
  have hfits : Fits (new start) := hstart
  refine ⟨issued_increasing hfits hroom hreading, ?_⟩
  rintro calls₁ remoteTs physicalNow calls₂ rfl
  obtain ⟨-, hroom'⟩ := guarded_append.mp hroom
  rw [List.forall_mem_append, List.forall_mem_cons] at hreading
  have hfits' := fits_step hreading.2.1 (fits_steps hfits hreading.1)
  exact (Below.update_self hroom'.1).lt_issued hfits' hroom'.2 hreading.2.2

/-- A message from ahead, with the system time standing still. -/
theorem now_strictly_increasing_stalled :
    (issued (new 5) [.now 5, .update 458753 5, .now 4]).Pairwise (· < ·) ∧
      ∀ x ∈ issued (update 458753 5 ([.now 5].foldl step (new 5))) [.now 4], 458753 < x := by
  obtain ⟨hincreasing, hafter⟩ := now_strictly_increasing 5 [.now 5, .update 458753 5, .now 4]
    (by decide) (by decide) ⟨fun _ => by decide, fun _ _ => by decide, fun _ => by decide, trivial⟩
  exact ⟨hincreasing, hafter [.now 5] 458753 5 [.now 4] rfl⟩

/-- A message with logical part `0xFFFF` is followed by a lower timestamp, and two `now` calls
around the end of the sixteen bits go backwards. -/
theorem now_falls_back :
    issued (new 0) [.update 393215 0, .now 0] = [327681] ∧
      issued (new 0) [.update 393213 0, .now 0, .now 0] = [393215, 327680] := by
  decide

end HybridLogicalClock

end AcidKv
