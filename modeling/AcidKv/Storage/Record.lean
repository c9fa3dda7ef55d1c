import AcidKv.Storage.Key

/-!
# Write records and locks

The two values the transaction layer stores beside user data, with their byte formats.  A write
record is an operation byte and the start timestamp.  A lock is an operation byte, the start
timestamp, the TTL, a 32-bit length and the primary key.

The length field is `primary_key.len() as u32`, so a primary key of `2 ^ 32` bytes or more comes
back cut short: what is read back from an encoded lock is `Lock.stored`, and that is the lock
itself for every shorter key (`Lock.stored_eq`).
-/

namespace AcidKv

open BigEndian

inductive OpType where
  | put
  | delete
  | rollback
  deriving DecidableEq, Repr

/-- `op as u8`. -/
def OpType.toByte : OpType → UInt8
  | .put => 0
  | .delete => 1
  | .rollback => 2

structure WriteRecord where
  startTs : UInt64
  op : OpType
  deriving DecidableEq, Repr

namespace WriteRecord

def toBytes (w : WriteRecord) : Bytes :=
  w.op.toByte :: u64ToBeBytes w.startTs

def fromBytes (bytes : Bytes) : Option WriteRecord :=
  if bytes.length < 9 then none
  else
    let startTs := u64FromBeBytes ((bytes.drop 1).take 8)
    match bytes.headD 0 with
    | 0 => some ⟨startTs, .put⟩
    | 1 => some ⟨startTs, .delete⟩
    | 2 => some ⟨startTs, .rollback⟩
    | _ => none

/-- An encoded record is read back, whatever follows it. -/
theorem fromBytes_append (w : WriteRecord) (rest : Bytes) :
    fromBytes (w.toBytes ++ rest) = some w := by
  obtain ⟨s, op⟩ := w
  have htake : (u64ToBeBytes s ++ rest).take 8 = u64ToBeBytes s :=
    List.take_left' (length_u64ToBeBytes s)
  have hlong : ¬ (8 + rest.length + 1 < 9) := by omega
  cases op <;> simp [toBytes, fromBytes, OpType.toByte, htake, hlong]

@[simp] theorem fromBytes_toBytes (w : WriteRecord) : fromBytes w.toBytes = some w := by
  rw [← List.append_nil w.toBytes, fromBytes_append]

/-- What decodes starts with the encoding of what it decodes to. -/
theorem toBytes_prefix_of_fromBytes {b : Bytes} {w : WriteRecord} (h : fromBytes b = some w) :
    w.toBytes <+: b := by
  unfold fromBytes at h
  split_ifs at h with hshort
  cases b with
  | nil => simp at hshort
  | cons opByte b =>
      have hlen : (b.take 8).length = 8 := by
        rw [List.length_cons] at hshort
        rw [List.length_take]
        omega
      have hstart : u64ToBeBytes (u64FromBeBytes (b.take 8)) = b.take 8 :=
        u64ToBeBytes_fromBeBytes hlen
      refine ⟨b.drop 8, ?_⟩
      simp only [List.drop_one, List.tail_cons, List.headD_cons] at h
      split at h
      case h_4 => cases h
      all_goals
        cases h
        simp only [toBytes, OpType.toByte, hstart, List.cons_append, List.take_append_drop]

end WriteRecord

inductive LockError where
  | decodeError (msg : String)
  deriving DecidableEq, Repr

structure Lock where
  primaryKey : Bytes
  startTs : UInt64
  ttl : UInt64
  op : OpType
  deriving DecidableEq, Repr

/-- `u32::to_be_bytes`. -/
def u32ToBeBytes (x : UInt32) : Bytes := toBe 4 x.toNat

/-- `u32::from_be_bytes`. -/
def u32FromBeBytes (bs : Bytes) : UInt32 := UInt32.ofNat (ofBe bs)

namespace Lock

def toBytes (l : Lock) : Bytes :=
  l.op.toByte :: (u64ToBeBytes l.startTs ++ (u64ToBeBytes l.ttl ++
    (u32ToBeBytes (UInt32.ofNat l.primaryKey.length) ++ l.primaryKey)))

/-- The operation byte of a lock; a lock is never a rollback. -/
def opFromByte : UInt8 → Except LockError OpType
  | 0 => .ok .put
  | 1 => .ok .delete
  | _ => .error (.decodeError "Invalid OpType byte")

def fromBytes (bytes : Bytes) : Except LockError Lock :=
  if bytes.length < 21 then .error (.decodeError "Payload too short")
  else do
    let op ← opFromByte (bytes.headD 0)
    let startTs := u64FromBeBytes ((bytes.drop 1).take 8)
    let ttl := u64FromBeBytes ((bytes.drop 9).take 8)
    let primaryLen := (u32FromBeBytes ((bytes.drop 17).take 4)).toNat
    if bytes.length < 21 + primaryLen then .error (.decodeError "Truncated primary key bytes")
    else .ok ⟨(bytes.drop 21).take primaryLen, startTs, ttl, op⟩

/-- A primary key as its four length bytes give it back. -/
def storedKey (p : Bytes) : Bytes := p.take (p.length % 2 ^ 32)

/-- The lock that is read back after this one is stored. -/
def stored (l : Lock) : Lock := { l with primaryKey := storedKey l.primaryKey }

@[simp] lemma stored_primaryKey (l : Lock) : l.stored.primaryKey = storedKey l.primaryKey := rfl
@[simp] lemma stored_startTs (l : Lock) : l.stored.startTs = l.startTs := rfl
@[simp] lemma stored_ttl (l : Lock) : l.stored.ttl = l.ttl := rfl
@[simp] lemma stored_op (l : Lock) : l.stored.op = l.op := rfl

lemma storedKey_eq {p : Bytes} (h : p.length < 2 ^ 32) : storedKey p = p := by
  simp only [storedKey, Nat.mod_eq_of_lt h, List.take_length]

lemma stored_eq {l : Lock} (h : l.primaryKey.length < 2 ^ 32) : l.stored = l := by
  simp only [stored, storedKey_eq h]

lemma u32FromBeBytes_toBeBytes (x : UInt32) : u32FromBeBytes (u32ToBeBytes x) = x := by
  have hlt : x.toNat < 256 ^ 4 := x.toNat_lt
  rw [u32FromBeBytes, u32ToBeBytes, ofBe_toBe hlt, UInt32.ofNat_toNat]

lemma length_u32ToBeBytes (x : UInt32) : (u32ToBeBytes x).length = 4 := length_toBe 4 _

lemma u32ToBeBytes_fromBeBytes {bs : Bytes} (h : bs.length = 4) :
    u32ToBeBytes (u32FromBeBytes bs) = bs := by
  have hlt := ofBe_lt bs
  rw [h] at hlt
  rw [u32ToBeBytes, u32FromBeBytes, UInt32.toNat_ofNat_of_lt' hlt, ← h, toBe_ofBe]

/-- The decoder on a byte string that is cut into the fields. -/
lemma fromBytes_fields {opByte : UInt8} {startTs ttl len : Bytes} (hs : startTs.length = 8)
    (ht : ttl.length = 8) (hn : len.length = 4) (rest : Bytes) :
    fromBytes (opByte :: (startTs ++ (ttl ++ (len ++ rest)))) =
      (opFromByte opByte).bind fun op =>
        if rest.length < (u32FromBeBytes len).toNat then
          .error (.decodeError "Truncated primary key bytes")
        else .ok ⟨rest.take (u32FromBeBytes len).toNat, u64FromBeBytes startTs,
          u64FromBeBytes ttl, op⟩ := by
  have h9 : (opByte :: (startTs ++ (ttl ++ (len ++ rest)))).drop 9 = ttl ++ (len ++ rest) :=
    List.drop_left' hs
  have h17 : (opByte :: (startTs ++ (ttl ++ (len ++ rest)))).drop 17 = len ++ rest := by
    rw [show 17 = 9 + 8 from rfl, ← List.drop_drop, h9, List.drop_left' ht]
  have h21 : (opByte :: (startTs ++ (ttl ++ (len ++ rest)))).drop 21 = rest := by
    rw [show 21 = 17 + 4 from rfl, ← List.drop_drop, h17, List.drop_left' hn]
  have hlong : ¬ (8 + (8 + (4 + rest.length)) + 1 < 21) := by omega
  have hfull : ∀ n, 8 + (8 + (4 + rest.length)) + 1 < 21 + n ↔ rest.length < n := by omega
  simp only [fromBytes, h9, h17, h21, List.drop_one, List.tail_cons, List.headD_cons,
    List.take_left' hs, List.take_left' ht, List.take_left' hn, List.length_cons,
    List.length_append, hs, ht, hn, hlong, hfull, if_false]
  rfl

lemma opFromByte_toByte {op : OpType} (h : op ≠ .rollback) : opFromByte op.toByte = .ok op := by
  cases op with
  | put => rfl
  | delete => rfl
  | rollback => exact absurd rfl h

lemma opFromByte_eq_ok {b : UInt8} {op : OpType} (h : opFromByte b = .ok op) :
    op ≠ .rollback ∧ op.toByte = b := by
  unfold opFromByte at h
  split at h
  · cases h
    exact ⟨by decide, rfl⟩
  · cases h
    exact ⟨by decide, rfl⟩
  · cases h

/-- An encoded lock is read back, whatever follows it. -/
theorem fromBytes_append {l : Lock} (hop : l.op ≠ .rollback) (hlen : l.primaryKey.length < 2 ^ 32)
    (rest : Bytes) : fromBytes (l.toBytes ++ rest) = .ok l := by
  have hlen' : (UInt32.ofNat l.primaryKey.length).toNat = l.primaryKey.length :=
    UInt32.toNat_ofNat_of_lt' hlen
  have hfields : l.toBytes ++ rest = l.op.toByte :: (u64ToBeBytes l.startTs ++
      (u64ToBeBytes l.ttl ++ (u32ToBeBytes (UInt32.ofNat l.primaryKey.length) ++
        (l.primaryKey ++ rest)))) := by
    simp [toBytes]
  have hfits : ¬ (l.primaryKey ++ rest).length < l.primaryKey.length := by
    rw [List.length_append]
    omega
  rw [hfields, fromBytes_fields (length_u64ToBeBytes _) (length_u64ToBeBytes _)
    (length_u32ToBeBytes _), opFromByte_toByte hop, Except.bind, u32FromBeBytes_toBeBytes, hlen',
    if_neg hfits, List.take_left, u64FromBeBytes_toBeBytes, u64FromBeBytes_toBeBytes]

/-- Of a primary key that is too long the rest stands behind the encoded lock. -/
lemma toBytes_eq_stored (l : Lock) :
    l.toBytes = l.stored.toBytes ++ l.primaryKey.drop (l.primaryKey.length % 2 ^ 32) := by
  have hlen : UInt32.ofNat (storedKey l.primaryKey).length = UInt32.ofNat l.primaryKey.length := by
    rw [storedKey, List.length_take_of_le (Nat.mod_le _ _)]
    exact UInt32.toNat_inj.mp (by simp)
  simp only [toBytes, stored, hlen, List.cons_append, List.append_assoc]
  rw [storedKey, List.take_append_drop]

/-- Decoding a stored lock, whatever the length of its primary key. -/
theorem fromBytes_toBytes {l : Lock} (hop : l.op ≠ .rollback) :
    fromBytes l.toBytes = .ok l.stored := by
  have hlen : l.stored.primaryKey.length < 2 ^ 32 := by
    rw [stored_primaryKey, storedKey, List.length_take_of_le (Nat.mod_le _ _)]
    exact Nat.mod_lt _ (by decide)
  rw [toBytes_eq_stored]
  exact @fromBytes_append l.stored hop hlen _

/-- Twenty-one bytes are enough for the fields. -/
lemma exists_fields {b : Bytes} (h : 21 ≤ b.length) : ∃ opByte startTs ttl len rest,
    b = opByte :: (startTs ++ (ttl ++ (len ++ rest))) ∧ startTs.length = 8 ∧ ttl.length = 8 ∧
      len.length = 4 := by
  cases b with
  | nil => simp at h
  | cons opByte b =>
      rw [List.length_cons] at h
      refine ⟨opByte, b.take 8, (b.drop 8).take 8, ((b.drop 8).drop 8).take 4,
        ((b.drop 8).drop 8).drop 4, ?_, ?_, ?_, ?_⟩
      · rw [List.take_append_drop, List.take_append_drop, List.take_append_drop]
      all_goals
        simp only [List.length_take, List.length_drop]
        omega

/-- What decodes starts with the encoding of what it decodes to, which is a prewrite's: its
operation is a put or a delete, and its primary key fits the length field. -/
theorem toBytes_prefix_of_fromBytes {b : Bytes} {l : Lock} (h : fromBytes b = .ok l) :
    l.op ≠ .rollback ∧ l.primaryKey.length < 2 ^ 32 ∧ l.toBytes <+: b := by
  have hlong : 21 ≤ b.length := by
    by_contra hshort
    rw [fromBytes, if_pos (by omega)] at h
    cases h
  obtain ⟨opByte, startTs, ttl, len, rest, rfl, hs, ht, hn⟩ := exists_fields hlong
  rw [fromBytes_fields hs ht hn] at h
  cases hop : opFromByte opByte with
  | error e =>
      rw [hop] at h
      cases h
  | ok op =>
      rw [hop, Except.bind] at h
      split_ifs at h with htrunc
      cases h
      obtain ⟨hne, hbyte⟩ := opFromByte_eq_ok hop
      have hkey : (rest.take (u32FromBeBytes len).toNat).length = (u32FromBeBytes len).toNat :=
        List.length_take_of_le (Nat.not_lt.mp htrunc)
      refine ⟨hne, ?_, rest.drop (u32FromBeBytes len).toNat, ?_⟩
      · rw [hkey]
        exact (u32FromBeBytes len).toNat_lt
      · simp only [toBytes, hbyte, hkey, UInt32.ofNat_toNat, u64ToBeBytes_fromBeBytes hs,
          u64ToBeBytes_fromBeBytes ht, u32ToBeBytes_fromBeBytes hn, List.cons_append,
          List.append_assoc, List.take_append_drop]

theorem of_fromBytes {b : Bytes} {l : Lock} (h : fromBytes b = .ok l) :
    l.op ≠ .rollback ∧ l.primaryKey.length < 2 ^ 32 :=
  ⟨(toBytes_prefix_of_fromBytes h).1, (toBytes_prefix_of_fromBytes h).2.1⟩

end Lock

end AcidKv
