import Mathlib.Data.List.Basic

/-!
# What is seen of a run

A machine answers inputs, `step : σ → (i : ι) → ο i × σ`.  An observer sees some of the inputs with
their answers, and of the state a projection.  If the inputs that are not seen leave the projection
alone, and it decides all that the others do to it and answer, then a run looks to the observer as
if it had the inputs only that are seen (`Projects.run`).
-/

variable {σ ι ρ : Type*} {ο : ι → Type*}

/-- The answers of a run, each with its input. -/
def answers (step : σ → (i : ι) → ο i × σ) : σ → List ι → List (Sigma ο)
  | _, [] => []
  | s, i :: is => ⟨i, (step s i).1⟩ :: answers step (step s i).2 is

/-- The state after a run. -/
def after (step : σ → (i : ι) → ο i × σ) (s : σ) (is : List ι) : σ :=
  is.foldl (fun s i => (step s i).2) s

/-- On states in `Inv` and for inputs in `ok`, the inputs in `seen` see no more of the state than
`proj`, and no others change it. -/
structure Projects (step : σ → (i : ι) → ο i × σ) (Inv : σ → Prop) (ok seen : ι → Prop)
    (proj : σ → ρ) : Prop where
  keeps : ∀ s i, Inv s → ok i → Inv (step s i).2
  unseen : ∀ s i, Inv s → ok i → ¬ seen i → proj (step s i).2 = proj s
  seen : ∀ s t i, Inv s → Inv t → ok i → seen i → proj s = proj t →
    (step s i).1 = (step t i).1 ∧ proj (step s i).2 = proj (step t i).2

/-- Inputs that are not seen can be left out of a run. -/
theorem Projects.run {step : σ → (i : ι) → ο i × σ} {Inv : σ → Prop} {ok seen : ι → Prop}
    {proj : σ → ρ} [DecidablePred seen] (h : Projects step Inv ok seen proj) {s t : σ}
    {is : List ι} (hs : Inv s) (ht : Inv t) (his : ∀ i ∈ is, ok i) (hst : proj s = proj t) :
    proj (after step s is) = proj (after step t (is.filter seen)) ∧
      (answers step s is).filter (fun x => seen x.1) = answers step t (is.filter seen) := by
  induction is generalizing s t with
  | nil => exact ⟨hst, rfl⟩
  | cons i is ih =>
      rw [List.forall_mem_cons] at his
      by_cases hi : seen i
      · obtain ⟨hanswer, hproj⟩ := h.seen s t i hs ht his.1 hi hst
        have hrest := ih (h.keeps s i hs his.1) (h.keeps t i ht his.1) his.2 hproj
        simp only [List.filter_cons, decide_eq_true hi, if_true, answers]
        exact ⟨hrest.1, by rw [hrest.2, hanswer]⟩
      · have hproj := (h.unseen s i hs his.1 hi).trans hst
        have hrest := ih (h.keeps s i hs his.1) ht his.2 hproj
        simp only [List.filter_cons, decide_eq_false hi, Bool.false_eq_true, if_false, answers]
        exact hrest
