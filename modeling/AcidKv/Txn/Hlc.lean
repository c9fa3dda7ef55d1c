import AcidKv.Lib.Runs
import Mathlib.Tactic.Ring

/-!
# The hybrid logical clock

A timestamp is a physical time in milliseconds and a logical counter, packed into one `u64` with
the physical part on top of sixteen bits.  The clock keeps the greatest physical time it has met
and counts up while that does not advance.

The counter in memory is a `u32` and `encode` keeps the low sixteen bits of it, so a packed
timestamp tells the whole state only as long as the counter fits them (`toNat_encode`).
-/

namespace AcidKv

structure Timestamp where
  physical : UInt64
  logical : UInt32
  deriving DecidableEq, Repr

namespace Timestamp

def encode (t : Timestamp) : UInt64 :=
  (t.physical <<< 16) ||| (t.logical.toUInt64 &&& 0xFFFF)

def decode (ts : UInt64) : Timestamp where
  physical := ts >>> 16
  logical := (ts &&& 0xFFFF).toUInt32

/-- The low sixteen bits. -/
lemma toNat_and_mask (x : UInt64) : (x &&& 0xFFFF).toNat = x.toNat % 2 ^ 16 := by
  rw [UInt64.toNat_and]
  exact Nat.and_two_pow_sub_one_eq_mod x.toNat 16

/-- Of the physical part forty-eight bits are left. -/
lemma toNat_encode_mod (t : Timestamp) :
    t.encode.toNat = t.physical.toNat % 2 ^ 48 * 2 ^ 16 + t.logical.toNat % 2 ^ 16 := by
  have hshift : (t.physical <<< 16).toNat = (t.physical.toNat % 2 ^ 48) <<< 16 := by
    have hmod : (t.physical <<< 16).toNat = t.physical.toNat <<< 16 % 2 ^ 64 := by
      rw [UInt64.toNat_shiftLeft]
      rfl
    rw [hmod, Nat.shiftLeft_eq, Nat.shiftLeft_eq]
    omega
  have hlow : t.logical.toNat % 2 ^ 16 < 2 ^ 16 := Nat.mod_lt _ (by decide)
  rw [encode, UInt64.toNat_or, hshift, toNat_and_mask, UInt32.toNat_toUInt64,
    ← Nat.shiftLeft_add_eq_or_of_lt hlow, Nat.shiftLeft_eq]

lemma toNat_encode {t : Timestamp} (h : t.physical.toNat < 2 ^ 48) :
    t.encode.toNat = t.physical.toNat * 2 ^ 16 + t.logical.toNat % 2 ^ 16 := by
  rw [toNat_encode_mod, Nat.mod_eq_of_lt h]

lemma toNat_decode_physical (ts : UInt64) : (decode ts).physical.toNat = ts.toNat / 2 ^ 16 := by
  rw [decode, UInt64.toNat_shiftRight]
  exact Nat.shiftRight_eq_div_pow ts.toNat 16

lemma toNat_decode_logical (ts : UInt64) : (decode ts).logical.toNat = ts.toNat % 2 ^ 16 := by
  have hlow : ts.toNat % 2 ^ 16 < 2 ^ 16 := Nat.mod_lt _ (by decide)
  rw [decode, UInt64.toNat_toUInt32, toNat_and_mask]
  exact Nat.mod_eq_of_lt (by omega)

end Timestamp

/-- What the clock keeps behind its mutex. -/
structure HlcInner where
  latestPhysical : UInt64
  logical : UInt32
  deriving DecidableEq, Repr

namespace HybridLogicalClock

def new (nowMs : UInt64) : HlcInner := ⟨nowMs, 0⟩

/-- A timestamp, and the clock after it was given out. -/
def now (physicalNow : UInt64) (inner : HlcInner) : UInt64 × HlcInner :=
  let inner :=
    if physicalNow > inner.latestPhysical then ⟨physicalNow, 0⟩
    else { inner with logical := inner.logical + 1 }
  (Timestamp.encode ⟨inner.latestPhysical, inner.logical⟩, inner)

/-- The clock after a message with the timestamp `remoteTs`. -/
def update (remoteTs physicalNow : UInt64) (inner : HlcInner) : HlcInner :=
  let remote := Timestamp.decode remoteTs
  let maxPhysical := max (max physicalNow inner.latestPhysical) remote.physical
  let logical :=
    if maxPhysical = inner.latestPhysical ∧ maxPhysical = remote.physical then
      max inner.logical remote.logical + 1
    else if maxPhysical = inner.latestPhysical then inner.logical + 1
    else if maxPhysical = remote.physical then remote.logical + 1
    else 0
  ⟨maxPhysical, logical⟩

/-- A call on the clock, with the reading of the system time that it gets. -/
inductive ClockCall where
  | now (physicalNow : UInt64)
  | update (remoteTs physicalNow : UInt64)
  deriving DecidableEq, Repr

/-- The system time that a call reads. -/
def ClockCall.reading : ClockCall → UInt64
  | .now physicalNow => physicalNow
  | .update _ physicalNow => physicalNow

def step (inner : HlcInner) : ClockCall → HlcInner
  | .now physicalNow => (now physicalNow inner).2
  | .update remoteTs physicalNow => update remoteTs physicalNow inner

/-- The timestamps that the `now` calls return, one after the other. -/
def issued : HlcInner → List ClockCall → List UInt64
  | _, [] => []
  | inner, .now physicalNow :: calls =>
      (now physicalNow inner).1 :: issued (now physicalNow inner).2 calls
  | inner, .update remoteTs physicalNow :: calls =>
      issued (update remoteTs physicalNow inner) calls

end HybridLogicalClock

end AcidKv
