import Mathlib.Data.List.Basic
import Mathlib.Tactic.Ring
import Mathlib.Tactic.Linarith

/-!
# Fixed-width big-endian numerals

`toBe w n` writes a number in `w` bytes, most significant byte first; `ofBe` reads one back.
The two are inverse on the numbers that fit (`ofBe_toBe`) and on the byte strings of that
length (`toBe_ofBe`).

The reason to write numbers this way round is the order: on numerals of one width, comparing
the bytes from the left is comparing the numbers (`toBe_lt_toBe_iff`), and what stands behind
the numeral cannot change a comparison that the numeral decides
(`append_lt_append_iff_of_length_eq`).
-/

namespace BigEndian

/-- The `w` bytes of `n`, most significant first.  What does not fit is cut off at the top, as
a narrowing cast does. -/
def toBe : (w : ℕ) → ℕ → List UInt8
  | 0, _ => []
  | w + 1, n => UInt8.ofNat (n / 256 ^ w) :: toBe w (n % 256 ^ w)

/-- The number a byte string spells, read from the left. -/
def ofBe (bs : List UInt8) : ℕ :=
  bs.foldl (fun acc b => acc * 256 + b.toNat) 0

@[simp] lemma length_toBe : ∀ w n : ℕ, (toBe w n).length = w
  | 0, _ => rfl
  | w + 1, n => by simp [toBe, length_toBe w]

/-- The accumulator of the reading loop moves out as a leading term. -/
lemma foldl_ofBe (bs : List UInt8) : ∀ acc : ℕ,
    bs.foldl (fun acc b => acc * 256 + b.toNat) acc = acc * 256 ^ bs.length + ofBe bs := by
  induction bs with
  | nil => intro acc; simp [ofBe]
  | cons b bs ih =>
      intro acc
      simp only [List.foldl_cons, List.length_cons, ofBe]
      rw [ih, ih (0 * 256 + b.toNat)]
      ring

lemma ofBe_cons (b : UInt8) (bs : List UInt8) :
    ofBe (b :: bs) = b.toNat * 256 ^ bs.length + ofBe bs := by
  rw [ofBe, List.foldl_cons, foldl_ofBe]
  ring

/-- A byte string spells a number that fits its length. -/
lemma ofBe_lt (bs : List UInt8) : ofBe bs < 256 ^ bs.length := by
  induction bs with
  | nil => simp [ofBe]
  | cons b bs ih =>
      rw [ofBe_cons, List.length_cons, pow_succ]
      have hb : b.toNat ≤ 255 := Nat.le_of_lt_succ b.toNat_lt
      calc b.toNat * 256 ^ bs.length + ofBe bs
          < b.toNat * 256 ^ bs.length + 256 ^ bs.length := by omega
        _ = (b.toNat + 1) * 256 ^ bs.length := by ring
        _ ≤ 256 * 256 ^ bs.length := Nat.mul_le_mul_right _ (by omega)
        _ = 256 ^ bs.length * 256 := by ring

/-- The leading byte of a number that fits is its top digit. -/
lemma toNat_ofNat_div {w n : ℕ} (h : n < 256 ^ (w + 1)) :
    (UInt8.ofNat (n / 256 ^ w)).toNat = n / 256 ^ w := by
  refine UInt8.toNat_ofNat_of_lt' ?_
  exact Nat.div_lt_of_lt_mul (by rwa [← pow_succ])

/-- Writing a number that fits and reading it back gives the number. -/
theorem ofBe_toBe : ∀ {w n : ℕ}, n < 256 ^ w → ofBe (toBe w n) = n
  | 0, n, h => by simp only [pow_zero, Nat.lt_one_iff] at h; subst h; rfl
  | w + 1, n, h => by
      have hmod : n % 256 ^ w < 256 ^ w := Nat.mod_lt _ (by positivity)
      rw [toBe, ofBe_cons, length_toBe, ofBe_toBe hmod, toNat_ofNat_div h]
      exact Nat.div_add_mod' n (256 ^ w)

/-- Reading a byte string and writing it back at its own length gives the byte string. -/
theorem toBe_ofBe (bs : List UInt8) : toBe bs.length (ofBe bs) = bs := by
  induction bs with
  | nil => rfl
  | cons b bs ih =>
      have hlt := ofBe_lt bs
      have hdiv : (b.toNat * 256 ^ bs.length + ofBe bs) / 256 ^ bs.length = b.toNat := by
        rw [Nat.add_comm, Nat.add_mul_div_right _ _ (by positivity), Nat.div_eq_of_lt hlt]
        omega
      have hmod : (b.toNat * 256 ^ bs.length + ofBe bs) % 256 ^ bs.length = ofBe bs := by
        rw [Nat.add_comm, Nat.add_mul_mod_self_right, Nat.mod_eq_of_lt hlt]
      rw [List.length_cons, toBe, ofBe_cons, hdiv, hmod, ih]
      simp

/-! ## Order -/

/-- A comparison of byte strings is decided by leading parts of equal length, unless these are
equal. -/
lemma append_lt_append_iff_of_length_eq : ∀ {a b c d : List UInt8}, a.length = b.length →
    (a ++ c < b ++ d ↔ a < b ∨ a = b ∧ c < d)
  | [], [], c, d, _ => by simp
  | x :: a, y :: b, c, d, h => by
      have ih := append_lt_append_iff_of_length_eq (c := c) (d := d)
        (Nat.succ.inj h : a.length = b.length)
      simp only [List.cons_append, List.cons_lt_cons_iff, ih, List.cons.injEq]
      tauto

/-- The three-way comparison of byte strings is their lexicographic order. -/
lemma compare_eq_lt_iff : ∀ {a b : List UInt8}, compare a b = .lt ↔ a < b
  | [], [] => by simp
  | [], _ :: _ => by simp [List.compare_nil_cons]
  | _ :: _, [] => by simp [List.compare_cons_nil]
  | x :: a, y :: b => by
      rw [List.compare_cons_cons, Ordering.then_eq_lt, List.cons_lt_cons_iff,
        Std.compare_eq_lt, Std.LawfulEqCmp.compare_eq_iff_eq, compare_eq_lt_iff]

lemma compare_isLE_iff {a b : List UInt8} : (compare a b).isLE ↔ a ≤ b := by
  rw [← List.not_lt, ← compare_eq_lt_iff, @Std.OrientedCmp.eq_swap _ compare _ b a]
  cases compare a b <;> simp

/-- **The byte order of numerals of one width is the order of the numbers.** -/
theorem toBe_lt_toBe_iff : ∀ {w m n : ℕ}, m < 256 ^ w → n < 256 ^ w →
    (toBe w m < toBe w n ↔ m < n)
  | 0, m, n, hm, hn => by
      simp only [pow_zero, Nat.lt_one_iff] at hm hn
      subst hm; subst hn
      simp [toBe]
  | w + 1, m, n, hm, hn => by
      have hpos : 0 < 256 ^ w := by positivity
      have ih := toBe_lt_toBe_iff (w := w) (Nat.mod_lt m hpos) (Nat.mod_lt n hpos)
      have hm' := Nat.div_add_mod m (256 ^ w)
      have hn' := Nat.div_add_mod n (256 ^ w)
      have hml := Nat.mod_lt m hpos
      have hnl := Nat.mod_lt n hpos
      rw [toBe, toBe, List.cons_lt_cons_iff, ih, UInt8.lt_iff_toNat_lt, ← UInt8.toNat_inj,
        toNat_ofNat_div hm, toNat_ofNat_div hn]
      -- compare the leading digits; only when they agree does the remainder decide
      rcases lt_trichotomy (m / 256 ^ w) (n / 256 ^ w) with h | h | h
      · have hle : 256 ^ w * (m / 256 ^ w) + 256 ^ w ≤ 256 ^ w * (n / 256 ^ w) := by
          rw [← Nat.mul_succ]; exact Nat.mul_le_mul_left _ h
        simp only [h, true_or, true_iff]
        omega
      · rw [h] at hm'
        simp only [h, lt_self_iff_false, true_and, false_or]
        omega
      · have hle : 256 ^ w * (n / 256 ^ w) + 256 ^ w ≤ 256 ^ w * (m / 256 ^ w) := by
          rw [← Nat.mul_succ]; exact Nat.mul_le_mul_left _ h
        constructor
        · rintro (hlt | ⟨heq, -⟩) <;> omega
        · intro hlt; omega

end BigEndian
