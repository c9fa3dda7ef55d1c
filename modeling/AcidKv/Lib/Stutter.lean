import Mathlib.Data.Finset.Card
import Mathlib.Data.List.Destutter

/-!
# Runs of equal elements

`List.destutter (· ≠ ·)` keeps one element of each run of equal neighbours.  It has as many elements
as the list has different ones exactly if no element comes back after another one (`Unbroken`).
-/

variable {α : Type}

/-- No element comes back after another one. -/
def Unbroken (l : List α) : Prop := ∀ a b : α, [a, b, a].Sublist l → b = a

lemma Unbroken.sublist {l l' : List α} (h : Unbroken l) (hl : l'.Sublist l) : Unbroken l' :=
  fun a b hab => h a b (hab.trans hl)

/-- The places that a sublist of a `filterMap` comes from. -/
lemma sublist_filterMap_origin {β : Type} {f : β → Option α} {l : List β} {c : List α}
    (h : c.Sublist (l.filterMap f)) : ∃ xs : List β, xs.Sublist l ∧ xs.map f = c.map some := by
  induction l generalizing c with
  | nil =>
      obtain rfl : c = [] := by simpa using h
      exact ⟨[], List.Sublist.refl _, rfl⟩
  | cons x l ih =>
      cases hx : f x with
      | none =>
          rw [List.filterMap_cons_none hx] at h
          obtain ⟨xs, hxs, heq⟩ := ih h
          exact ⟨xs, hxs.cons x, heq⟩
      | some a =>
          rw [List.filterMap_cons_some hx] at h
          cases h with
          | cons _ h =>
              obtain ⟨xs, hxs, heq⟩ := ih h
              exact ⟨xs, hxs.cons x, heq⟩
          | cons_cons _ h =>
              obtain ⟨xs, hxs, heq⟩ := ih h
              exact ⟨x :: xs, hxs.cons_cons x, by simp [hx, heq]⟩

variable [DecidableEq α]

lemma mem_destutter'_ne {a x : α} {l : List α} : x ∈ l.destutter' (· ≠ ·) a ↔ x ∈ a :: l := by
  induction l generalizing a with
  | nil => simp
  | cons b l ih =>
      rw [List.destutter'_cons]
      split_ifs with hne
      · simp [ih]
      · rw [ih, not_ne_iff.mp hne]
        simp

@[simp] lemma mem_destutter_ne {x : α} {l : List α} : x ∈ l.destutter (· ≠ ·) ↔ x ∈ l := by
  cases l with
  | nil => simp
  | cons a l => rw [List.destutter_cons', mem_destutter'_ne]

/-- What is left still has every sublist without equal neighbours. -/
lemma sublist_destutter'_ne {a : α} {l c : List α} (hc : c.IsChain (· ≠ ·))
    (h : c.Sublist (a :: l)) : c.Sublist (l.destutter' (· ≠ ·) a) := by
  induction l generalizing a c with
  | nil => exact h
  | cons b l ih =>
      rw [List.destutter'_cons]
      split_ifs with hne
      · cases h with
        | cons _ h => exact (ih hc h).cons a
        | cons_cons _ h => exact (ih hc.tail h).cons_cons a
      · obtain rfl := not_ne_iff.mp hne
        refine ih hc ?_
        cases h with
        | cons _ h => exact h
        | cons_cons _ h =>
            -- the next element is another one, so it is taken from behind the second `a`
            cases h with
            | cons _ h => exact h.cons_cons a
            | cons_cons _ h => simp at hc

lemma nodup_destutter'_ne {a : α} {l : List α} (h : Unbroken (a :: l)) :
    (l.destutter' (· ≠ ·) a).Nodup := by
  induction l generalizing a with
  | nil => simp
  | cons b l ih =>
      rw [List.destutter'_cons]
      split_ifs with hne
      · refine List.nodup_cons.mpr ⟨fun hmem => ?_, ih (h.sublist (List.sublist_cons_self a _))⟩
        rcases List.mem_cons.mp (mem_destutter'_ne.mp hmem) with heq | hmem
        · exact hne heq
        · have hback : [a, b, a].Sublist (a :: b :: l) := by simpa using hmem
          exact hne (h a b hback).symm
      · obtain rfl := not_ne_iff.mp hne
        exact ih (h.sublist (List.sublist_cons_self a _))

lemma nodup_destutter_ne_iff {l : List α} : (l.destutter (· ≠ ·)).Nodup ↔ Unbroken l := by
  cases l with
  | nil => simp [Unbroken]
  | cons a l =>
      rw [List.destutter_cons']
      refine ⟨fun h x y hxy => ?_, nodup_destutter'_ne⟩
      by_contra hne
      have hc : [x, y, x].IsChain (· ≠ ·) := by simp [hne, Ne.symm hne]
      have hnodup := (sublist_destutter'_ne hc hxy).nodup h
      simp at hnodup

/-- **One element of each run is one of each element, exactly if the runs are unbroken.** -/
theorem length_destutter_ne_iff {l : List α} :
    (l.destutter (· ≠ ·)).length = l.dedup.length ↔ Unbroken l := by
  have hsame : l.dedup.length = (l.destutter (· ≠ ·)).dedup.length := by
    rw [← List.card_toFinset, ← List.card_toFinset]
    congr 1
    ext x
    simp
  rw [← nodup_destutter_ne_iff, hsame, ← List.dedup_eq_self, eq_comm]
  refine ⟨(List.dedup_sublist _).eq_of_length, fun h => ?_⟩
  rw [h]
