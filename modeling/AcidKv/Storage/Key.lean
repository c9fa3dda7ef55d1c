import AcidKv.Lib.BigEndian

/-!
# Versioned keys

`KeyEncoder::encode` appends the bitwise inverted timestamp, big-endian, to the user key, so
that within one user key newer versions sort before older ones.  There is no terminator between
the two parts.  For two keys neither of which is a prefix of the other the key bytes decide
every comparison (`encode_lt_encode_of_unrelated`); for a key and a proper extension of it the
timestamp bytes of the shorter key are compared with *key* bytes of the longer one, and
`Overtaken` says when that comes out the wrong way round.
-/

namespace AcidKv

open BigEndian

abbrev Bytes := List UInt8

/-- `u64::MAX`. -/
def u64Max : UInt64 := 18446744073709551615

lemma le_u64Max (x : UInt64) : x ≤ u64Max := by
  rw [UInt64.le_iff_toNat_le]
  exact Nat.le_of_lt_succ x.toNat_lt

/-- `u64::to_be_bytes`. -/
def u64ToBeBytes (x : UInt64) : Bytes := toBe 8 x.toNat

/-- `u64::from_be_bytes`. -/
def u64FromBeBytes (bs : Bytes) : UInt64 := UInt64.ofNat (ofBe bs)

@[simp] lemma length_u64ToBeBytes (x : UInt64) : (u64ToBeBytes x).length = 8 := length_toBe 8 _

lemma toNat_lt_pow (x : UInt64) : x.toNat < 256 ^ 8 := x.toNat_lt

@[simp] lemma u64FromBeBytes_toBeBytes (x : UInt64) : u64FromBeBytes (u64ToBeBytes x) = x := by
  rw [u64FromBeBytes, u64ToBeBytes, ofBe_toBe (toNat_lt_pow x), UInt64.ofNat_toNat]

lemma toNat_u64FromBeBytes {bs : Bytes} (h : bs.length = 8) :
    (u64FromBeBytes bs).toNat = ofBe bs := by
  refine UInt64.toNat_ofNat_of_lt' ?_
  have hlt := ofBe_lt bs
  rwa [h] at hlt

lemma u64ToBeBytes_fromBeBytes {bs : Bytes} (h : bs.length = 8) :
    u64ToBeBytes (u64FromBeBytes bs) = bs := by
  rw [u64ToBeBytes, toNat_u64FromBeBytes h, ← h, toBe_ofBe]

lemma u64ToBeBytes_inj {x y : UInt64} (h : u64ToBeBytes x = u64ToBeBytes y) : x = y := by
  rw [← u64FromBeBytes_toBeBytes x, h, u64FromBeBytes_toBeBytes]

lemma u64ToBeBytes_lt_iff {x y : UInt64} : u64ToBeBytes x < u64ToBeBytes y ↔ x < y := by
  rw [u64ToBeBytes, u64ToBeBytes, toBe_lt_toBe_iff (toNat_lt_pow x) (toNat_lt_pow y),
    UInt64.lt_iff_toNat_lt]

/-- Inverting the bits of a timestamp reverses the order. -/
lemma not_lt_not_iff {x y : UInt64} : ~~~x < ~~~y ↔ y < x := by
  have hx := x.toNat_lt
  have hy := y.toNat_lt
  rw [UInt64.lt_iff_toNat_lt, UInt64.lt_iff_toNat_lt, UInt64.toNat_not, UInt64.toNat_not]
  simp only [UInt64.size]
  omega

lemma not_inj {x y : UInt64} (h : ~~~x = ~~~y) : x = y := by
  rw [← UInt64.not_not (a := x), h, UInt64.not_not]

inductive KeyError where
  | tooShort
  deriving DecidableEq, Repr

namespace KeyEncoder

/-- The user key followed by the inverted timestamp. -/
def encode (userKey : Bytes) (ts : UInt64) : Bytes :=
  userKey ++ u64ToBeBytes (~~~ts)

def decode (encoded : Bytes) : Except KeyError (Bytes × UInt64) :=
  if encoded.length < 8 then .error .tooShort
  else
    let splitIdx := encoded.length - 8
    let userKey := encoded.take splitIdx
    let invertedTs := u64FromBeBytes (encoded.drop splitIdx)
    .ok (userKey, ~~~invertedTs)

@[simp] lemma length_encode (k : Bytes) (t : UInt64) : (encode k t).length = k.length + 8 := by
  simp [encode]

@[simp] theorem decode_encode (k : Bytes) (t : UInt64) : decode (encode k t) = .ok (k, t) := by
  have hlen : ¬ k.length + 8 < 8 := by omega
  simp [decode, encode, hlen, UInt64.not_not]

/-- What decodes is the encoding of what it decodes to. -/
theorem encode_of_decode {e k : Bytes} {t : UInt64} (h : decode e = .ok (k, t)) :
    encode k t = e := by
  unfold decode at h
  split_ifs at h with hlen
  simp only [Except.ok.injEq, Prod.mk.injEq] at h
  obtain ⟨hk, ht⟩ := h
  have hdrop : (e.drop (e.length - 8)).length = 8 := by rw [List.length_drop]; omega
  rw [encode, ← hk, ← ht, UInt64.not_not, u64ToBeBytes_fromBeBytes hdrop,
    List.take_append_drop]

lemma encode_inj {k k' : Bytes} {t t' : UInt64} :
    encode k t = encode k' t' ↔ k = k' ∧ t = t' := by
  constructor
  · intro h
    have hd := decode_encode k t
    rw [h, decode_encode] at hd
    simp only [Except.ok.injEq, Prod.mk.injEq] at hd
    exact ⟨hd.1.symm, hd.2.symm⟩
  · rintro ⟨rfl, rfl⟩; rfl

/-! ## Order of encoded keys -/

/-- Versions of one user key sort newest first. -/
lemma encode_lt_encode_same {k : Bytes} {t t' : UInt64} :
    encode k t < encode k t' ↔ t' < t := by
  rw [encode, encode, append_lt_append_iff_of_length_eq rfl]
  simp only [List.lt_irrefl, false_or, true_and, u64ToBeBytes_lt_iff, not_lt_not_iff]

/-- Where neither key is a prefix of the other, the first differing key byte decides. -/
lemma append_lt_append_of_unrelated : ∀ {a b : Bytes} (c d : Bytes), ¬ a <+: b → ¬ b <+: a →
    (a ++ c < b ++ d ↔ a < b)
  | [], b, _, _, h, _ => absurd List.nil_prefix h
  | _ :: _, [], _, _, _, h => absurd List.nil_prefix h
  | x :: a, y :: b, c, d, h, h' => by
      simp only [List.cons_append, List.cons_lt_cons_iff]
      by_cases hxy : x = y
      · subst hxy
        have ih := append_lt_append_of_unrelated c d
          (fun hp => h (List.cons_prefix_cons.mpr ⟨rfl, hp⟩))
          (fun hp => h' (List.cons_prefix_cons.mpr ⟨rfl, hp⟩))
        simp only [ih]
      · simp [hxy]

lemma encode_lt_encode_of_unrelated {k k' : Bytes} {t t' : UInt64} (h : ¬ k <+: k')
    (h' : ¬ k' <+: k) : encode k t < encode k' t' ↔ k < k' :=
  append_lt_append_of_unrelated _ _ h h'

/-- The timestamp that the first eight bytes of `rest` spell. -/
def spelledTs (rest : Bytes) : UInt64 := ~~~(u64FromBeBytes (rest.take 8))

/-- A version of `k` against a longer byte string that starts with `k`: the timestamp is
compared with the one spelled by the bytes after `k`, and a tie goes to the shorter string. -/
lemma encode_lt_append_iff {k rest : Bytes} {t : UInt64} (h : 8 < rest.length) :
    encode k t < k ++ rest ↔ spelledTs rest ≤ t := by
  have hlen : (rest.take 8).length = 8 := by rw [List.length_take]; omega
  have hne : rest.drop 8 ≠ [] := by
    intro hnil
    have := congrArg List.length hnil
    simp only [List.length_drop, List.length_nil] at this
    omega
  have htail : ([] : Bytes) < rest.drop 8 := by
    cases hd : rest.drop 8 with
    | nil => exact absurd hd hne
    | cons b bs => simp
  have hspell : u64ToBeBytes (~~~(spelledTs rest)) = rest.take 8 := by
    rw [spelledTs, UInt64.not_not, u64ToBeBytes_fromBeBytes hlen]
  have hsplit : k ++ rest = k ++ (rest.take 8 ++ rest.drop 8) := by rw [List.take_append_drop]
  rw [encode, hsplit, append_lt_append_iff_of_length_eq rfl,
    ← List.append_nil (u64ToBeBytes (~~~t)),
    append_lt_append_iff_of_length_eq (by simp [hlen]), ← hspell]
  simp only [List.lt_irrefl, false_or, true_and, htail, and_true, u64ToBeBytes_lt_iff,
    not_lt_not_iff]
  constructor
  · rintro (hlt | heq)
    · exact UInt64.le_of_lt hlt
    · rw [not_inj (u64ToBeBytes_inj heq)]; exact UInt64.le_refl _
  · intro hle
    by_cases heq : t = spelledTs rest
    · right; rw [heq]
    · left
      exact UInt64.lt_of_le_of_ne hle fun he => heq he.symm

/-- The version `(k', t')` of a proper extension of `k` sorts before the version `(k, t)`,
although its user key is the greater one: the eight bytes that follow `k` in its encoded key
spell a timestamp above `t`. -/
def Overtaken (k : Bytes) (t : UInt64) (k' : Bytes) (t' : UInt64) : Prop :=
  k <+: k' ∧ k ≠ k' ∧ t < spelledTs ((encode k' t').drop k.length)

instance (k : Bytes) (t : UInt64) (k' : Bytes) (t' : UInt64) : Decidable (Overtaken k t k' t') :=
  inferInstanceAs (Decidable (_ ∧ _ ∧ _))

/-- A version of a key sorts before a version of a proper extension unless it is overtaken. -/
lemma encode_lt_encode_of_extends {k k' : Bytes} {t t' : UInt64} (h : k <+: k') (hne : k ≠ k') :
    encode k t < encode k' t' ↔ ¬ Overtaken k t k' t' := by
  obtain ⟨d, rfl⟩ := h
  have hd : d ≠ [] := by rintro rfl; exact hne (List.append_nil k).symm
  have hlen : 8 < (d ++ u64ToBeBytes (~~~t')).length := by
    have := List.length_pos_of_ne_nil hd
    simp only [List.length_append, length_u64ToBeBytes]
    omega
  have hdrop : (encode (k ++ d) t').drop k.length = d ++ u64ToBeBytes (~~~t') := by
    simp [encode]
  have henc : encode (k ++ d) t' = k ++ (d ++ u64ToBeBytes (~~~t')) := by simp [encode]
  have hpre : k <+: k ++ d := List.prefix_append k d
  rw [Overtaken, hdrop, henc, encode_lt_append_iff hlen]
  simp only [hpre, hne, ne_eq, not_false_eq_true, true_and, UInt64.not_lt]

lemma encode_ne_encode {k k' : Bytes} {t t' : UInt64} (hne : k ≠ k') :
    encode k t ≠ encode k' t' := fun h => hne (encode_inj.mp h).1

/-- The converse comparison, by totality of the byte order. -/
lemma encode_gt_encode_of_extends {k k' : Bytes} {t t' : UInt64} (h : k <+: k') (hne : k ≠ k') :
    encode k' t' < encode k t ↔ Overtaken k t k' t' := by
  have hlt := @encode_lt_encode_of_extends k k' t t' h hne
  constructor
  · intro hgt
    by_contra hno
    exact List.lt_asymm hgt (hlt.mpr hno)
  · intro ho
    have hnot : ¬ encode k t < encode k' t' := fun hh => hlt.mp hh ho
    exact Std.lt_of_le_of_ne hnot (encode_ne_encode hne.symm)

lemma lt_of_extends {k k' : Bytes} (h : k <+: k') (hne : k ≠ k') : k < k' := by
  obtain ⟨d, rfl⟩ := h
  have hd : ([] : Bytes) < d := by
    cases d with
    | nil => exact absurd (List.append_nil k).symm hne
    | cons b bs => simp
  calc k = k ++ [] := (List.append_nil k).symm
    _ < k ++ d := List.append_left_lt hd

/-- What the order of encoded keys is meant to be: by user key, and newest first within one. -/
def Ordered (k₁ : Bytes) (t₁ : UInt64) (k₂ : Bytes) (t₂ : UInt64) : Prop :=
  encode k₁ t₁ < encode k₂ t₂ ↔ k₁ < k₂ ∨ k₁ = k₂ ∧ t₁ > t₂

instance (k₁ : Bytes) (t₁ : UInt64) (k₂ : Bytes) (t₂ : UInt64) :
    Decidable (Ordered k₁ t₁ k₂ t₂) := inferInstanceAs (Decidable (_ ↔ _))

/-- **Two versions are in the intended order unless one overtakes the other.** -/
lemma ordered_iff (k₁ : Bytes) (t₁ : UInt64) (k₂ : Bytes) (t₂ : UInt64) :
    Ordered k₁ t₁ k₂ t₂ ↔ ¬ Overtaken k₁ t₁ k₂ t₂ ∧ ¬ Overtaken k₂ t₂ k₁ t₁ := by
  have hself : ∀ {k : Bytes} {t t' : UInt64}, ¬ Overtaken k t k t' := fun h => h.2.1 rfl
  by_cases heq : k₁ = k₂
  · subst heq
    simp only [Ordered, encode_lt_encode_same, hself, not_false_eq_true, and_self, iff_true]
    simp
  by_cases h₁ : k₁ <+: k₂
  · have hback : ¬ Overtaken k₂ t₂ k₁ t₁ := fun h =>
      heq (h₁.eq_of_length_le h.1.length_le)
    simp only [Ordered, encode_lt_encode_of_extends h₁ heq, lt_of_extends h₁ heq, true_or, iff_true,
      hback, not_false_eq_true, and_true]
  by_cases h₂ : k₂ <+: k₁
  · have hfwd : ¬ Overtaken k₁ t₁ k₂ t₂ := fun h => h₁ h.1
    have hnlt : ¬ k₁ < k₂ := List.lt_asymm (lt_of_extends h₂ (Ne.symm heq))
    simp only [Ordered, encode_gt_encode_of_extends h₂ (Ne.symm heq), hnlt, heq, false_and,
      or_self, iff_false, hfwd, not_false_eq_true, true_and]
  · have hfwd : ¬ Overtaken k₁ t₁ k₂ t₂ := fun h => h₁ h.1
    have hback : ¬ Overtaken k₂ t₂ k₁ t₁ := fun h => h₂ h.1
    simp only [Ordered, encode_lt_encode_of_unrelated h₁ h₂, heq, false_and, or_false, hfwd,
      hback, not_false_eq_true, and_self]

/-- The versions of `k` among `versions` stand together: in encoded order nothing of another
user key comes between two of them. -/
def Contiguous (versions : Set (Bytes × UInt64)) (k : Bytes) : Prop :=
  ∀ t₁ t₂ k' t', (k, t₁) ∈ versions → (k, t₂) ∈ versions → (k', t') ∈ versions →
    encode k t₁ < encode k' t' → encode k' t' < encode k t₂ → k' = k

/-- The version `(k', t')` is on different sides of the versions `(k, t₁)` and `(k, t₂)`: behind
the first and before the second. -/
def Splits (k : Bytes) (t₁ t₂ : UInt64) (k' : Bytes) (t' : UInt64) : Prop :=
  (¬ Overtaken k t₁ k' t' ∧ Overtaken k t₂ k' t') ∨
    (Overtaken k' t' k t₁ ∧ ¬ Overtaken k' t' k t₂)

lemma between_iff_splits {k k' : Bytes} {t₁ t₂ t' : UInt64} (hne : k ≠ k') :
    encode k t₁ < encode k' t' ∧ encode k' t' < encode k t₂ ↔ Splits k t₁ t₂ k' t' := by
  by_cases h : k <+: k'
  · have hback : ∀ t, ¬ Overtaken k' t' k t := fun t hov =>
      hne (h.eq_of_length_le hov.1.length_le)
    simp only [Splits, encode_lt_encode_of_extends h hne, encode_gt_encode_of_extends h hne, hback,
      false_and, or_false]
  by_cases h' : k' <+: k
  · have hfwd : ∀ t, ¬ Overtaken k t k' t' := fun t hov => h hov.1
    simp only [Splits, encode_lt_encode_of_extends h' hne.symm,
      encode_gt_encode_of_extends h' hne.symm, hfwd, and_false, false_or]
  · have hfwd : ∀ t, ¬ Overtaken k t k' t' := fun t hov => h hov.1
    have hback : ∀ t, ¬ Overtaken k' t' k t := fun t hov => h' hov.1
    simp only [Splits, encode_lt_encode_of_unrelated h h', encode_lt_encode_of_unrelated h' h,
      hfwd, hback, and_false, false_and, or_self, iff_false, not_and]
    exact fun hlt => List.lt_asymm hlt

/-- Exactly the overtaken versions are out of order, and the versions of a user key in a
partition are contiguous exactly when no version of another key there splits two of them. -/
theorem encode_ordered_iff_not_overtaken (k₁ : Bytes) (t₁ : UInt64) (k₂ : Bytes) (t₂ : UInt64)
    (versions : Set (Bytes × UInt64)) (k : Bytes) :
    (Ordered k₁ t₁ k₂ t₂ ↔ ¬ Overtaken k₁ t₁ k₂ t₂ ∧ ¬ Overtaken k₂ t₂ k₁ t₁) ∧
    (Contiguous versions k ↔
      ∀ t₁ t₂ k' t', (k, t₁) ∈ versions → (k, t₂) ∈ versions → (k', t') ∈ versions →
        k ≠ k' → ¬ Splits k t₁ t₂ k' t') := by
  refine ⟨ordered_iff k₁ t₁ k₂ t₂, ?_⟩
  constructor
  · intro hc t₁ t₂ k' t' h₁ h₂ h' hne hsplit
    obtain ⟨hlt, hgt⟩ := (between_iff_splits hne).mpr hsplit
    exact hne (hc t₁ t₂ k' t' h₁ h₂ h' hlt hgt).symm
  · intro hno t₁ t₂ k' t' h₁ h₂ h' hlt hgt
    by_contra hne
    exact hno t₁ t₂ k' t' h₁ h₂ h' (Ne.symm hne)
      ((between_iff_splits (Ne.symm hne)).mp ⟨hlt, hgt⟩)

/-- A version of `user10` sorts before a present-day version of `user1`, and the versions of
`a` at `2 ^ 63` and at `0` enclose one of a two-byte key. -/
theorem encode_prefix_misordered :
    ¬ Ordered [117, 115, 101, 114, 49] 112590848000000000
        [117, 115, 101, 114, 49, 48] 112590848000000001 ∧
      ¬ Contiguous {([97], 9223372036854775808), ([97], 0), ([97, 128], 0)} [97] := by
  refine ⟨by decide +kernel, ?_⟩
  intro h
  have := h 9223372036854775808 0 [97, 128] 0 (by simp) (by simp) (by simp)
    (by decide +kernel) (by decide +kernel)
  simp at this

end KeyEncoder

end AcidKv
