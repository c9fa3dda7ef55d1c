import AcidKv.Lib.BigEndian

/-!
# Codecs for byte strings

A `Codec` writes values as byte strings and reads them back; writing may fail in principle, but
the law says that it does not, and that what was written is read back.  Programs that take their
serialisation from a library are parametrised by one.

To build one, `PrefixCode` is a code whose decoder returns what is left of the input.  These
compose: a pair is one code after the other, a list is a marker in front of each element.
-/

/-- A serialisation of `α`. -/
structure Codec (α : Type) where
  writeToBytes : α → Option (List UInt8)
  parseFromBytes : List UInt8 → Option α
  roundTrip : ∀ a, ∃ b, writeToBytes a = some b ∧ parseFromBytes b = some a

/-- A code whose decoder returns the value and the rest of the input. -/
structure PrefixCode (α : Type) where
  enc : α → List UInt8
  dec : List UInt8 → Option (α × List UInt8)
  dec_enc : ∀ a rest, dec (enc a ++ rest) = some (a, rest)

namespace PrefixCode

open BigEndian

variable {α β : Type}

/-- A pair is one code after the other. -/
def pair (c : PrefixCode α) (d : PrefixCode β) : PrefixCode (α × β) where
  enc x := c.enc x.1 ++ d.enc x.2
  dec bs := (c.dec bs).bind fun x => (d.dec x.2).map fun y => ((x.1, y.1), y.2)
  dec_enc x rest := by simp [List.append_assoc, c.dec_enc, d.dec_enc]

/-- The same code for a type of the same values. -/
def map (c : PrefixCode α) (f : α → β) (g : β → α) (h : ∀ b, f (g b) = b) : PrefixCode β where
  enc b := c.enc (g b)
  dec bs := (c.dec bs).map fun x => (f x.1, x.2)
  dec_enc b rest := by simp [c.dec_enc, h]

/-- One byte. -/
def byte : PrefixCode UInt8 where
  enc b := [b]
  dec
    | [] => none
    | b :: rest => some (b, rest)
  dec_enc _ _ := rfl

/-- Eight bytes. -/
def u64 : PrefixCode UInt64 where
  enc x := toBe 8 x.toNat
  dec bs := if bs.length < 8 then none else some (UInt64.ofNat (ofBe (bs.take 8)), bs.drop 8)
  dec_enc x rest := by
    have hfit : x.toNat < 256 ^ 8 := x.toNat_lt
    simp [ofBe_toBe hfit]

/-- A list: a one in front of each element, and a zero at the end. -/
def listEnc (c : PrefixCode α) : List α → List UInt8
  | [] => [0]
  | a :: as => 1 :: (c.enc a ++ listEnc c as)

/-- Reading a list; an input of length `fuel` has at most that many elements. -/
def listDec (c : PrefixCode α) : ℕ → List UInt8 → Option (List α × List UInt8)
  | 0, _ => none
  | _, [] => none
  | fuel + 1, b :: bs =>
      if b = 0 then some ([], bs)
      else (c.dec bs).bind fun x => (listDec c fuel x.2).map fun y => (x.1 :: y.1, y.2)

lemma listDec_listEnc (c : PrefixCode α) (rest : List UInt8) : ∀ (as : List α) (fuel : ℕ),
    as.length < fuel → listDec c fuel (listEnc c as ++ rest) = some (as, rest)
  | [], fuel + 1, _ => rfl
  | a :: as, fuel + 1, h => by
      have ih := listDec_listEnc c rest as fuel (by simpa using h)
      simp [listEnc, listDec, List.append_assoc, c.dec_enc, ih]

lemma length_le_listEnc (c : PrefixCode α) (as : List α) :
    as.length < (listEnc c as).length := by
  induction as with
  | nil => simp [listEnc]
  | cons a as ih => simp only [listEnc, List.length_cons, List.length_append]; omega

def list (c : PrefixCode α) : PrefixCode (List α) where
  enc := listEnc c
  dec bs := listDec c bs.length bs
  dec_enc as rest := by
    refine listDec_listEnc c rest as _ ?_
    have := length_le_listEnc c as
    rw [List.length_append]
    omega

/-- The codec that reads the whole input. -/
def codec (c : PrefixCode α) : Codec α where
  writeToBytes a := some (c.enc a)
  parseFromBytes bs :=
    match c.dec bs with
    | some (a, []) => some a
    | _ => none
  roundTrip a := by
    have h := c.dec_enc a []
    rw [List.append_nil] at h
    exact ⟨c.enc a, rfl, by rw [h]⟩

end PrefixCode
