import AcidKv.Lib.Slices
import AcidKv.Storage.Record

/-!
# The stored formats

Locks, write records and versioned keys: each decoder accepts exactly the byte strings that start
with an encoding (a key has to be one as a whole), and returns what was encoded.

The decoders index into a slice whose length and content are whatever is on disk.  The definitions
here with `Checked` in their name have these accesses, and the sum for the length of a lock, as
operations that can fail; they never do.
-/

namespace AcidKv

open KeyEncoder

/-! ## The accesses -/

namespace Lock

def fromBytesChecked (bytes : Bytes) : Option (Except LockError Lock) :=
  if bytes.length < 21 then some (.error (.decodeError "Payload too short"))
  else do
    match opFromByte (← Slice.index bytes 0) with
    | .error e => return .error e
    | .ok op =>
        let startTs := u64FromBeBytes (← (Slice.part bytes 1 9).bind (Slice.array 8))
        let ttl := u64FromBeBytes (← (Slice.part bytes 9 17).bind (Slice.array 8))
        let primaryLen := (u32FromBeBytes (← (Slice.part bytes 17 21).bind (Slice.array 4))).toNat
        if bytes.length < (← Slice.add 21 primaryLen) then
          return .error (.decodeError "Truncated primary key bytes")
        else
          let primaryKey ← Slice.part bytes 21 (← Slice.add 21 primaryLen)
          return .ok ⟨primaryKey, startTs, ttl, op⟩

theorem fromBytesChecked_eq (bytes : Bytes) : fromBytesChecked bytes = some (fromBytes bytes) := by
  unfold fromBytesChecked fromBytes
  split_ifs with hshort
  · rfl
  have hop : Slice.index bytes 0 = some (bytes.headD 0) := Slice.index_zero 0 (by omega)
  have hstart := @Slice.array_part _ bytes 1 8 (by omega)
  have httl := @Slice.array_part _ bytes 9 8 (by omega)
  have hlen := @Slice.array_part _ bytes 17 4 (by omega)
  -- a `u32` and 21 are far from the end of a `usize`
  have hlt := (u32FromBeBytes ((bytes.drop 17).take 4)).toNat_lt
  have hadd := @Slice.add_eq 21 (u32FromBeBytes ((bytes.drop 17).take 4)).toNat (by omega)
  simp only [Nat.reduceAdd] at hstart httl hlen
  simp only [hop, Option.bind_some, bind, Except.bind]
  cases opFromByte (bytes.headD 0) with
  | error e => rfl
  | ok op =>
      simp only [hstart, httl, hlen, hadd, Option.bind_some]
      split_ifs with htrunc
      · rfl
      · rw [Slice.part_eq (Nat.le_add_right _ _) (Nat.not_lt.mp htrunc), Nat.add_sub_cancel_left]
        rfl

end Lock

namespace WriteRecord

/-- The operation byte of a record. -/
def opFromByte : UInt8 → Option OpType
  | 0 => some .put
  | 1 => some .delete
  | 2 => some .rollback
  | _ => none

def fromBytesChecked (bytes : Bytes) : Option (Option WriteRecord) :=
  if bytes.length < 9 then some none
  else do
    match opFromByte (← Slice.index bytes 0) with
    | none => return none
    | some op =>
        let startTs := u64FromBeBytes (← (Slice.part bytes 1 9).bind (Slice.array 8))
        return some ⟨startTs, op⟩

lemma fromBytes_of_long {bytes : Bytes} (h : ¬ bytes.length < 9) : fromBytes bytes =
    (opFromByte (bytes.headD 0)).map fun op => ⟨u64FromBeBytes ((bytes.drop 1).take 8), op⟩ := by
  rw [fromBytes, if_neg h]
  unfold opFromByte
  generalize bytes.headD 0 = opByte
  split <;> simp_all

theorem fromBytesChecked_eq (bytes : Bytes) : fromBytesChecked bytes = some (fromBytes bytes) := by
  unfold fromBytesChecked
  split_ifs with hshort
  · rw [fromBytes, if_pos hshort]
  have hop : Slice.index bytes 0 = some (bytes.headD 0) := Slice.index_zero 0 (by omega)
  have hstart := @Slice.array_part _ bytes 1 8 (by omega)
  simp only [Nat.reduceAdd] at hstart
  simp only [fromBytes_of_long hshort, hop, hstart, Option.bind_some, bind]
  cases opFromByte (bytes.headD 0) with
  | none => rfl
  | some op => rfl

end WriteRecord

namespace KeyEncoder

def decodeChecked (encoded : Bytes) : Option (Except KeyError (Bytes × UInt64)) :=
  if encoded.length < 8 then some (.error .tooShort)
  else do
    let splitIdx ← Slice.sub encoded.length 8
    let userKey ← Slice.part encoded 0 splitIdx
    let tsBytes ← (Slice.part encoded splitIdx encoded.length).bind (Slice.array 8)
    let invertedTs := u64FromBeBytes tsBytes
    return .ok (userKey, ~~~invertedTs)

theorem decodeChecked_eq (encoded : Bytes) : decodeChecked encoded = some (decode encoded) := by
  unfold decodeChecked decode
  split_ifs with hshort
  · rfl
  have hsplit := @Slice.sub_eq encoded.length 8 (by omega)
  have hkey := @Slice.part_eq _ encoded 0 (encoded.length - 8) (by omega) (by omega)
  have hts := @Slice.array_part _ encoded (encoded.length - 8) 8 (by omega)
  rw [Nat.sub_add_cancel (by omega), List.take_of_length_le] at hts
  · simp only [hsplit, hkey, hts, bind, Option.bind_some, List.drop_zero, Nat.sub_zero]
    rfl
  · rw [List.length_drop]
    omega

/-- A key decodes exactly if it has room for a timestamp. -/
lemma decode_isOk_iff {b : Bytes} : (∃ kt, decode b = .ok kt) ↔ 8 ≤ b.length := by
  unfold decode
  split_ifs with hshort
  · simp only [exists_false, false_iff]
    omega
  · exact iff_of_true ⟨_, rfl⟩ (Nat.not_lt.mp hshort)

end KeyEncoder

/-! ## What is accepted -/

lemma Lock.fromBytes_eq_ok_iff {b : Bytes} {l : Lock} : Lock.fromBytes b = .ok l ↔
    l.op ≠ .rollback ∧ l.primaryKey.length < 2 ^ 32 ∧ l.toBytes <+: b := by
  refine ⟨Lock.toBytes_prefix_of_fromBytes, ?_⟩
  rintro ⟨hop, hlen, rest, rfl⟩
  exact Lock.fromBytes_append hop hlen rest

lemma WriteRecord.fromBytes_eq_some_iff {b : Bytes} {w : WriteRecord} :
    WriteRecord.fromBytes b = some w ↔ w.toBytes <+: b := by
  refine ⟨WriteRecord.toBytes_prefix_of_fromBytes, ?_⟩
  rintro ⟨rest, rfl⟩
  exact WriteRecord.fromBytes_append w rest

/-- **The codecs are inverse.**  What is encoded is decoded; and on any byte string no decoder
leaves its slice, the decoders of locks and records return a value exactly if the string starts with
its encoding, and that of keys returns one exactly on eight bytes or more, which its encoding is. -/
theorem codecs_inverse :
    (∀ l : Lock, l.op ≠ .rollback → l.primaryKey.length < 2 ^ 32 →
        Lock.fromBytes l.toBytes = .ok l) ∧
      (∀ w : WriteRecord, WriteRecord.fromBytes w.toBytes = some w) ∧
      (∀ k ts, decode (encode k ts) = .ok (k, ts)) ∧
      ∀ b : Bytes,
        (Lock.fromBytesChecked b = some (Lock.fromBytes b) ∧
          WriteRecord.fromBytesChecked b = some (WriteRecord.fromBytes b) ∧
          decodeChecked b = some (decode b)) ∧
        (∀ l, Lock.fromBytes b = .ok l ↔
          l.op ≠ .rollback ∧ l.primaryKey.length < 2 ^ 32 ∧ l.toBytes <+: b) ∧
        (∀ w, WriteRecord.fromBytes b = some w ↔ w.toBytes <+: b) ∧
        ((∃ kt, decode b = .ok kt) ↔ 8 ≤ b.length) ∧
        ∀ k ts, decode b = .ok (k, ts) → encode k ts = b := by
  refine ⟨fun l hop hlen => ?_, WriteRecord.fromBytes_toBytes, decode_encode, fun b => ?_⟩
  · rw [Lock.fromBytes_toBytes hop, Lock.stored_eq hlen]
  · exact ⟨⟨Lock.fromBytesChecked_eq b, WriteRecord.fromBytesChecked_eq b, decodeChecked_eq b⟩,
      fun l => Lock.fromBytes_eq_ok_iff, fun w => WriteRecord.fromBytes_eq_some_iff,
      decode_isOk_iff, fun k ts => encode_of_decode⟩

end AcidKv
