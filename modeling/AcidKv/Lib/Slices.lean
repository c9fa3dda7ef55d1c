import Mathlib.Data.List.Basic
import Mathlib.Tactic.Ring

/-!
# Reading from slices

Indexing a slice, taking a part of one, turning one into an array and adding two sizes: in a program
these stop it where they are out of range.  Here they return `none` there, and each comes with the
lemma that says when it does not.
-/

namespace Slice

variable {α : Type}

/-- `xs[i]`. -/
def index (xs : List α) (i : ℕ) : Option α := xs[i]?

/-- `xs[lo..hi]`. -/
def part (xs : List α) (lo hi : ℕ) : Option (List α) :=
  if lo ≤ hi ∧ hi ≤ xs.length then some ((xs.take hi).drop lo) else none

/-- `xs.try_into().unwrap()` for an array of `n`, and `copy_from_slice` into one. -/
def array (n : ℕ) (xs : List α) : Option (List α) := if xs.length = n then some xs else none

/-- `a + b` for sizes of sixty-four bits. -/
def add (a b : ℕ) : Option ℕ := if a + b < 2 ^ 64 then some (a + b) else none

/-- `a - b` for sizes. -/
def sub (a b : ℕ) : Option ℕ := if b ≤ a then some (a - b) else none

lemma index_zero {xs : List α} (d : α) (h : 0 < xs.length) : index xs 0 = some (xs.headD d) := by
  cases xs with
  | nil => exact absurd h (Nat.lt_irrefl 0)
  | cons x xs => rfl

lemma part_eq {xs : List α} {lo hi : ℕ} (hle : lo ≤ hi) (h : hi ≤ xs.length) :
    part xs lo hi = some ((xs.drop lo).take (hi - lo)) := by
  rw [part, if_pos ⟨hle, h⟩, List.drop_take]

/-- A part of `n` elements is an array of `n`. -/
lemma array_part {xs : List α} {lo n : ℕ} (h : lo + n ≤ xs.length) :
    (part xs lo (lo + n)).bind (array n) = some ((xs.drop lo).take n) := by
  have hlen : ((xs.drop lo).take n).length = n := by
    rw [List.length_take, List.length_drop]
    omega
  rw [part_eq (Nat.le_add_right lo n) h, Nat.add_sub_cancel_left, Option.bind_some, array,
    if_pos hlen]

lemma add_eq {a b : ℕ} (h : a + b < 2 ^ 64) : add a b = some (a + b) := if_pos h

lemma sub_eq {a b : ℕ} (h : b ≤ a) : sub a b = some (a - b) := if_pos h

end Slice
