import Mathlib.Logic.Function.Basic
import Mathlib.Tactic.Common

/-!
# Records under two keys

A record that has two keys is kept in two maps, one for each.  An insertion overwrites one entry of
either map, and what was there may still be in the other.  The maps go on holding the same records
exactly if the two entries that are overwritten belong to the same record (`Replaces`).
-/

/-- Two maps of records of type `α`. -/
structure TwoIndexes (ι κ α : Type) where
  byId : ι → Option α
  byKey : κ → Option α

namespace TwoIndexes

variable {ι κ α : Type} [DecidableEq ι] [DecidableEq κ] {id : α → ι} {key : α → κ}

/-- Every record is where it belongs. -/
structure Matched (id : α → ι) (key : α → κ) (t : TwoIndexes ι κ α) : Prop where
  id_eq : ∀ {i a}, t.byId i = some a → id a = i
  key_eq : ∀ {k a}, t.byKey k = some a → key a = k

/-- The records of either map are found in the other. -/
structure Agree (id : α → ι) (key : α → κ) (t : TwoIndexes ι κ α) : Prop where
  byKey : ∀ {k a}, t.byKey k = some a → t.byId (id a) = some a
  byId : ∀ {i a}, t.byId i = some a → t.byKey (key a) = some a

def insert (id : α → ι) (key : α → κ) (t : TwoIndexes ι κ α) (a : α) : TwoIndexes ι κ α where
  byId := Function.update t.byId (id a) (some a)
  byKey := Function.update t.byKey (key a) (some a)

/-- What `a` overwrites has both keys of `a`. -/
def Replaces (id : α → ι) (key : α → κ) (t : TwoIndexes ι κ α) (a : α) : Prop :=
  (∀ x, t.byId (id a) = some x → key x = key a) ∧ ∀ x, t.byKey (key a) = some x → id x = id a

/-- The roles of the keys exchanged. -/
def swap (t : TwoIndexes ι κ α) : TwoIndexes κ ι α := ⟨t.byKey, t.byId⟩

variable {t : TwoIndexes ι κ α} {a : α}

omit [DecidableEq ι] [DecidableEq κ] in
lemma Matched.swap (h : t.Matched id key) : t.swap.Matched key id := ⟨h.key_eq, h.id_eq⟩

omit [DecidableEq ι] [DecidableEq κ] in
lemma Agree.swap (h : t.Agree id key) : t.swap.Agree key id := ⟨h.byId, h.byKey⟩

lemma Matched.insert (h : t.Matched id key) : (t.insert id key a).Matched id key := by
  constructor
  · intro i x hx
    simp only [TwoIndexes.insert, Function.update_apply] at hx
    split_ifs at hx with hi
    · rw [← Option.some.inj hx, hi]
    · exact h.id_eq hx
  · intro k x hx
    simp only [TwoIndexes.insert, Function.update_apply] at hx
    split_ifs at hx with hk
    · rw [← Option.some.inj hx, hk]
    · exact h.key_eq hx

/-- A record that is overwritten in the first map stays in the second if it has another key. -/
lemma Agree.key_eq_of_insert (hm : t.Matched id key) (h : t.Agree id key)
    (h' : (t.insert id key a).Agree id key) {x : α} (hx : t.byId (id a) = some x) :
    key x = key a := by
  by_contra hne
  have hstale : (t.insert id key a).byKey (key x) = some x := by
    simp [TwoIndexes.insert, hne, h.byId hx]
  have hfound := h'.byKey hstale
  rw [hm.id_eq hx] at hfound
  obtain rfl : a = x := by simpa [TwoIndexes.insert] using hfound
  exact hne rfl

/-- What stays in the second map has not been overwritten in the first. -/
lemma Agree.byId_insert (hm : t.Matched id key) (h : t.Agree id key)
    (ha : ∀ x, t.byId (id a) = some x → key x = key a) {k : κ} {x : α}
    (hx : (t.insert id key a).byKey k = some x) : (t.insert id key a).byId (id x) = some x := by
  simp only [TwoIndexes.insert, Function.update_apply] at hx ⊢
  split_ifs at hx with hk
  · obtain rfl := Option.some.inj hx
    rw [if_pos rfl]
  · have hold := h.byKey hx
    rw [if_neg, hold]
    intro hid
    rw [hid] at hold
    exact hk ((hm.key_eq hx).symm.trans (ha x hold))

/-- **An insertion keeps the maps in agreement exactly if it replaces the same record in both.** -/
theorem Agree.insert_iff (hm : t.Matched id key) (h : t.Agree id key) :
    (t.insert id key a).Agree id key ↔ t.Replaces id key a := by
  constructor
  · intro h'
    exact ⟨fun x => h.key_eq_of_insert hm h', fun x => h.swap.key_eq_of_insert hm.swap h'.swap⟩
  · rintro ⟨hid, hkey⟩
    exact ⟨fun hx => h.byId_insert hm hid hx, fun hx => h.swap.byId_insert hm.swap hkey hx⟩

end TwoIndexes
