import AcidKv.Lib.BigEndian

/-!
# Decimal numerals in byte strings

What a formatting macro prints for a number, as bytes: `decimal n` without and `padded w n` with
leading zeros up to a width.  A numeral spells its number (`value_decimal`, `value_padded`), so
different numbers have different numerals; it consists of digits, so a separator ends it; and
padded numerals of one width are ordered as the numbers are (`padded_lt_padded_iff`).
-/

namespace Decimal

/-- The bytes of an ASCII text. -/
def ascii (s : List Char) : List UInt8 := s.map fun c => UInt8.ofNat c.toNat

/-- The number in decimal. -/
def decimal (n : ℕ) : List UInt8 := ascii (Nat.toDigits 10 n)

/-- The number in decimal, with leading zeros up to width `w`. -/
def padded (w n : ℕ) : List UInt8 := List.replicate (w - (decimal n).length) 48 ++ decimal n

/-- The number a numeral spells. -/
def value (bs : List UInt8) : ℕ := bs.foldl (fun acc b => acc * 10 + (b.toNat - 48)) 0

/-- The byte is a digit. -/
def IsDigit (b : UInt8) : Prop := 48 ≤ b.toNat ∧ b.toNat ≤ 57

lemma foldl_value (bs : List UInt8) : ∀ acc : ℕ,
    bs.foldl (fun acc b => acc * 10 + (b.toNat - 48)) acc = acc * 10 ^ bs.length + value bs := by
  induction bs with
  | nil => intro acc; simp [value]
  | cons b bs ih =>
      intro acc
      simp only [List.foldl_cons, List.length_cons, value]
      rw [ih, ih (0 * 10 + (b.toNat - 48))]
      ring

lemma value_cons (b : UInt8) (bs : List UInt8) :
    value (b :: bs) = (b.toNat - 48) * 10 ^ bs.length + value bs := by
  rw [value, List.foldl_cons, foldl_value]
  ring

@[simp] lemma value_zeros (n : ℕ) (bs : List UInt8) :
    value (List.replicate n 48 ++ bs) = value bs := by
  induction n with
  | zero => rfl
  | succ n ih => simpa [List.replicate_succ, value_cons] using ih

/-- The byte of an ASCII character has its number. -/
lemma toNat_ofNat_digit {c : Char} (h : c.isDigit) :
    (UInt8.ofNat c.toNat).toNat = c.toNat ∧ IsDigit (UInt8.ofNat c.toNat) := by
  obtain ⟨hlo, hhi⟩ := Char.isDigit_iff_toNat.mp h
  have hlo' : 48 ≤ c.toNat := hlo
  have hhi' : c.toNat ≤ 57 := hhi
  have hbyte : (UInt8.ofNat c.toNat).toNat = c.toNat := by
    refine UInt8.toNat_ofNat_of_lt' ?_
    simp only [UInt8.size]
    omega
  exact ⟨hbyte, by rw [IsDigit, hbyte]; exact ⟨hlo', hhi'⟩⟩

/-- Reading the bytes of a digit string is reading its characters. -/
lemma value_ascii {s : List Char} (h : ∀ c ∈ s, c.isDigit) :
    value (ascii s) = Nat.ofDigitChars 10 s 0 := by
  induction s with
  | nil => rfl
  | cons c s ih =>
      rw [List.forall_mem_cons] at h
      have hlen : (ascii s).length = s.length := List.length_map _
      rw [Nat.ofDigitChars_cons, Nat.ofDigitChars_eq_ofDigitChars_zero, ← ih h.2]
      change value (UInt8.ofNat c.toNat :: ascii s) = _
      rw [value_cons, (toNat_ofNat_digit h.1).1, hlen]
      change _ = 10 ^ s.length * (10 * 0 + (c.toNat - 48)) + _
      ring

lemma isDigit_of_mem_toDigits {n : ℕ} : ∀ c ∈ Nat.toDigits 10 n, c.isDigit :=
  fun _ hc => Nat.isDigit_of_mem_toDigits (by decide) (by decide) hc

lemma isDigit_of_mem_decimal {n : ℕ} {b : UInt8} (h : b ∈ decimal n) : IsDigit b := by
  obtain ⟨c, hc, rfl⟩ := List.mem_map.mp h
  exact (toNat_ofNat_digit (isDigit_of_mem_toDigits c hc)).2

lemma isDigit_of_mem_padded {w n : ℕ} {b : UInt8} (h : b ∈ padded w n) : IsDigit b := by
  rcases List.mem_append.mp h with hz | hd
  · rw [List.eq_of_mem_replicate hz]
    exact ⟨by decide, by decide⟩
  · exact isDigit_of_mem_decimal hd

@[simp] lemma value_decimal (n : ℕ) : value (decimal n) = n := by
  rw [decimal, value_ascii isDigit_of_mem_toDigits, Nat.ofDigitChars_ten_toDigits]

@[simp] lemma value_padded (w n : ℕ) : value (padded w n) = n := by
  rw [padded, value_zeros, value_decimal]

lemma decimal_inj {m n : ℕ} (h : decimal m = decimal n) : m = n := by
  rw [← value_decimal m, h, value_decimal]

lemma padded_inj {w m n : ℕ} (h : padded w m = padded w n) : m = n := by
  rw [← value_padded w m, h, value_padded]

lemma length_padded {w n : ℕ} (hw : 0 < w) (h : n < 10 ^ w) : (padded w n).length = w := by
  have hle : (decimal n).length ≤ w := by
    rw [decimal, ascii, List.length_map]
    exact (Nat.length_toDigits_le_iff (by decide) hw).mpr h
  rw [padded, List.length_append, List.length_replicate]
  omega

/-! ## Order -/

lemma value_lt {bs : List UInt8} (h : ∀ b ∈ bs, IsDigit b) : value bs < 10 ^ bs.length := by
  induction bs with
  | nil => simp [value]
  | cons b bs ih =>
      rw [List.forall_mem_cons] at h
      have hb : b.toNat - 48 ≤ 9 := by have := h.1.2; omega
      have hlt := ih h.2
      rw [value_cons, List.length_cons, pow_succ]
      calc (b.toNat - 48) * 10 ^ bs.length + value bs
          < (b.toNat - 48) * 10 ^ bs.length + 10 ^ bs.length := by omega
        _ = (b.toNat - 48 + 1) * 10 ^ bs.length := by ring
        _ ≤ 10 * 10 ^ bs.length := Nat.mul_le_mul_right _ (by omega)
        _ = 10 ^ bs.length * 10 := by ring

/-- **Numerals of one length are ordered as the numbers they spell.** -/
theorem lt_iff_value_lt : ∀ {a b : List UInt8}, a.length = b.length → (∀ x ∈ a, IsDigit x) →
    (∀ x ∈ b, IsDigit x) → (a < b ↔ value a < value b)
  | [], [], _, _, _ => by simp
  | x :: a, y :: b, hlen, ha, hb => by
      rw [List.forall_mem_cons] at ha hb
      have hlen' : a.length = b.length := Nat.succ.inj hlen
      have ih := lt_iff_value_lt hlen' ha.2 hb.2
      have hva := value_lt ha.2
      have hvb := value_lt hb.2
      obtain ⟨hx, -⟩ := ha.1
      obtain ⟨hy, -⟩ := hb.1
      rw [List.cons_lt_cons_iff, ih, UInt8.lt_iff_toNat_lt, ← UInt8.toNat_inj, value_cons,
        value_cons, hlen']
      rw [hlen'] at hva
      -- the leading digit decides, unless the two are equal
      rcases lt_trichotomy x.toNat y.toNat with h | h | h
      · have hle : (x.toNat - 48 + 1) * 10 ^ b.length ≤ (y.toNat - 48) * 10 ^ b.length :=
          Nat.mul_le_mul_right _ (by omega)
        rw [Nat.add_mul, Nat.one_mul] at hle
        simp only [h, true_or, true_iff]
        omega
      · simp only [h, lt_self_iff_false, true_and, false_or]
        omega
      · have hle : (y.toNat - 48 + 1) * 10 ^ b.length ≤ (x.toNat - 48) * 10 ^ b.length :=
          Nat.mul_le_mul_right _ (by omega)
        rw [Nat.add_mul, Nat.one_mul] at hle
        constructor
        · rintro (hlt | ⟨heq, -⟩) <;> omega
        · intro hlt; omega

theorem padded_lt_padded_iff {w m n : ℕ} (hw : 0 < w) (hm : m < 10 ^ w) (hn : n < 10 ^ w) :
    padded w m < padded w n ↔ m < n := by
  rw [lt_iff_value_lt ((length_padded hw hm).trans (length_padded hw hn).symm)
    (fun _ h => isDigit_of_mem_padded h) (fun _ h => isDigit_of_mem_padded h), value_padded,
    value_padded]

/-! ## Separators -/

/-- A separator that occurs in neither of two fields ends both at the same place. -/
lemma append_cons_inj {α : Type} {a : α} : ∀ {x y s t : List α}, a ∉ x → a ∉ y →
    x ++ a :: s = y ++ a :: t → x = y ∧ s = t
  | [], [], _, _, _, _, h => ⟨rfl, (List.cons.inj h).2⟩
  | [], b :: y, _, _, _, hy, h =>
      absurd (List.cons.inj h).1 fun hab => hy (hab ▸ List.mem_cons_self)
  | b :: x, [], _, _, hx, _, h =>
      absurd (List.cons.inj h).1 fun hba => hx (hba ▸ List.mem_cons_self)
  | b :: x, c :: y, s, t, hx, hy, h => by
      obtain ⟨hbc, hrest⟩ := List.cons.inj h
      obtain ⟨hxy, hst⟩ := append_cons_inj (fun hm => hx (List.mem_cons_of_mem b hm))
        (fun hm => hy (List.mem_cons_of_mem c hm)) hrest
      exact ⟨by rw [hbc, hxy], hst⟩

/-- A byte that is no digit separates numerals. -/
lemma decimal_append_inj {sep : UInt8} (hsep : ¬ IsDigit sep) {m n : ℕ} {s t : List UInt8}
    (h : decimal m ++ sep :: s = decimal n ++ sep :: t) : m = n ∧ s = t := by
  obtain ⟨hmn, hst⟩ := append_cons_inj (fun hm => hsep (isDigit_of_mem_decimal hm))
    (fun hm => hsep (isDigit_of_mem_decimal hm)) h
  exact ⟨decimal_inj hmn, hst⟩

end Decimal
