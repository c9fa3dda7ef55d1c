import Mathlib.Data.List.Basic
import Mathlib.Data.List.Perm.Basic

/-!
# Filters with a state

A sift walks over a list with a state and takes some of the elements out.  Whether an element goes
depends on those before it, so what a second sift does to what the first has left is not what it
does to the whole list.  Two rules, each with a relation between the states of the two: when both in
turn come to the same as the second alone (`Absorbs.gone_perm`), and when the second takes nothing
out (`Covers.gone_kept_eq_nil`).
-/

/-- Which elements go, and how the state moves on. -/
structure Sift (σ α : Type) where
  goes : σ → α → Bool
  next : σ → α → σ

namespace Sift

variable {σ τ α : Type}

/-- What stays. -/
def kept (f : Sift σ α) : σ → List α → List α
  | _, [] => []
  | s, x :: xs => if f.goes s x then f.kept (f.next s x) xs else x :: f.kept (f.next s x) xs

/-- What goes. -/
def gone (f : Sift σ α) : σ → List α → List α
  | _, [] => []
  | s, x :: xs => if f.goes s x then x :: f.gone (f.next s x) xs else f.gone (f.next s x) xs

/-- Every element stays or goes. -/
lemma kept_append_gone_perm (f : Sift σ α) (s : σ) (xs : List α) :
    (f.kept s xs ++ f.gone s xs).Perm xs := by
  induction xs generalizing s with
  | nil => exact List.Perm.nil
  | cons x xs ih =>
      rw [kept, gone]
      split_ifs
      · exact List.perm_middle.trans ((ih _).cons x)
      · exact (ih _).cons x

lemma gone_subset (f : Sift σ α) (s : σ) (xs : List α) : f.gone s xs ⊆ xs := fun _ hx =>
  (f.kept_append_gone_perm s xs).mem_iff.mp (List.mem_append_right _ hx)

/-- What goes does so in some state. -/
lemma exists_goes (f : Sift σ α) {s : σ} {xs : List α} {x : α} (hx : x ∈ f.gone s xs) :
    ∃ s', f.goes s' x := by
  induction xs generalizing s with
  | nil => cases hx
  | cons y xs ih =>
      rw [gone] at hx
      split_ifs at hx with hy
      · rcases List.mem_cons.mp hx with rfl | hx
        · exact ⟨s, hy⟩
        · exact ih hx
      · exact ih hx

lemma kept_sublist (f : Sift σ α) (s : σ) (xs : List α) : (f.kept s xs).Sublist xs := by
  induction xs generalizing s with
  | nil => exact List.Sublist.refl []
  | cons x xs ih =>
      rw [kept]
      split_ifs
      · exact (ih _).cons x
      · exact (ih _).cons_cons x

/-- Of different elements, those that stay are those that do not go. -/
lemma mem_kept_iff (f : Sift σ α) (s : σ) {xs : List α} (hnodup : xs.Nodup) {x : α} :
    x ∈ f.kept s xs ↔ x ∈ xs ∧ x ∉ f.gone s xs := by
  have hperm := f.kept_append_gone_perm s xs
  have hdisjoint := (List.nodup_append.mp (hperm.nodup_iff.mpr hnodup)).2.2
  rw [← hperm.mem_iff, List.mem_append]
  constructor
  · exact fun hk => ⟨Or.inl hk, fun hg => hdisjoint x hk x hg rfl⟩
  · rintro ⟨hk | hg, hnot⟩
    · exact hk
    · exact absurd hg hnot

section

variable {f : Sift σ α} {g : Sift τ α} {R : σ → τ → Prop}

/-- What `f` takes out `g` would have taken out, and in a state that stays as it is. -/
def Absorbs (f : Sift σ α) (g : Sift τ α) (R : σ → τ → Prop) : Prop :=
  ∀ s t x, R s t →
    if f.goes s x then g.goes t x ∧ g.next t x = t ∧ R (f.next s x) t
    else R (f.next s x) (g.next t x)

/-- Sifting with `f` first, the two take out what `g` alone does. -/
theorem Absorbs.gone_perm (h : Absorbs f g R) {s : σ} {t : τ} (hR : R s t) (xs : List α) :
    (f.gone s xs ++ g.gone t (f.kept s xs)).Perm (g.gone t xs) := by
  induction xs generalizing s t with
  | nil => exact List.Perm.nil
  | cons x xs ih =>
      have hx := h s t x hR
      rw [gone, kept]
      by_cases hf : f.goes s x
      · rw [if_pos hf] at hx
        obtain ⟨hg, hstay, hnext⟩ := hx
        rw [if_pos hf, if_pos hf, gone, if_pos hg, hstay]
        exact (ih hnext).cons x
      · rw [if_neg hf] at hx
        rw [if_neg hf, if_neg hf, gone, gone]
        split_ifs
        · exact List.perm_middle.trans ((ih hx).cons x)
        · exact ih hx

/-- Where `f` leaves an element, `g` does. -/
def Covers (f : Sift σ α) (g : Sift τ α) (R : σ → τ → Prop) : Prop :=
  ∀ s t x, R s t →
    if f.goes s x then R (f.next s x) t
    else g.goes t x = false ∧ R (f.next s x) (g.next t x)

/-- Then `g` takes nothing out after `f`. -/
theorem Covers.gone_kept_eq_nil (h : Covers f g R) {s : σ} {t : τ} (hR : R s t) (xs : List α) :
    g.gone t (f.kept s xs) = [] := by
  induction xs generalizing s t with
  | nil => rfl
  | cons x xs ih =>
      have hx := h s t x hR
      rw [kept]
      split_ifs at hx ⊢
      · exact ih hx
      · rw [gone, hx.1, if_neg Bool.false_ne_true]
        exact ih hx.2

end

end Sift
