import Mathlib.Data.List.Basic

/-!
# Guarded runs

A system that takes steps `step : σ → α → σ`, and runs in which every step meets a condition on
the action and the state before it.  A property of all such runs is an invariant of the guarded
step (`Guarded.invariant`); a property of what follows a given point of a run is an invariant of
the rest (`guarded_append`).
-/

variable {σ α : Type}

/-- Every step of the run from `c` along `es` meets `ok`. -/
def Guarded (step : σ → α → σ) (ok : σ → α → Prop) : σ → List α → Prop
  | _, [] => True
  | c, e :: es => ok c e ∧ Guarded step ok (step c e) es

namespace Guarded

variable {step : σ → α → σ} {ok ok' : σ → α → Prop} {c : σ} {es : List α}

/-- The rule of invariants. -/
theorem invariant {Inv : σ → Prop} (h : Guarded step ok c es)
    (hstep : ∀ c e, Inv c → ok c e → Inv (step c e)) (hc : Inv c) : Inv (es.foldl step c) := by
  induction es generalizing c with
  | nil => exact hc
  | cons e es ih => exact ih h.2 (hstep c e hc h.1)

/-- A condition on the actions alone. -/
theorem of_forall {P : α → Prop} (h : ∀ e ∈ es, P e) : Guarded step (fun _ e => P e) c es := by
  induction es generalizing c with
  | nil => trivial
  | cons e es ih =>
      rw [List.forall_mem_cons] at h
      exact ⟨h.1, ih h.2⟩

/-- A weaker condition. -/
theorem imp (h : Guarded step ok c es) (himp : ∀ c e, ok c e → ok' c e) :
    Guarded step ok' c es := by
  induction es generalizing c with
  | nil => trivial
  | cons e es ih => exact ⟨himp c e h.1, ih h.2⟩

theorem and (h : Guarded step ok c es) (h' : Guarded step ok' c es) :
    Guarded step (fun c e => ok c e ∧ ok' c e) c es := by
  induction es generalizing c with
  | nil => trivial
  | cons e es ih => exact ⟨⟨h.1, h'.1⟩, ih h.2 h'.2⟩

/-- Conditions that agree where an invariant holds agree on runs. -/
theorem congr {Inv : σ → Prop} {P Q : σ → α → Prop} (h : Guarded step ok c es)
    (hstep : ∀ c e, Inv c → Inv (step c e)) (hiff : ∀ c e, Inv c → ok c e → (P c e ↔ Q c e))
    (hc : Inv c) : Guarded step P c es ↔ Guarded step Q c es := by
  induction es generalizing c with
  | nil => exact Iff.rfl
  | cons e es ih => exact and_congr (hiff c e hc h.1) (ih h.2 (hstep c e hc))

end Guarded

/-- A run is guarded if both of its parts are. -/
theorem guarded_append {step : σ → α → σ} {ok : σ → α → Prop} {c : σ} {es es' : List α} :
    Guarded step ok c (es ++ es') ↔
      Guarded step ok c es ∧ Guarded step ok (es.foldl step c) es' := by
  induction es generalizing c with
  | nil => simp [Guarded]
  | cons e es ih => simp only [List.cons_append, Guarded, ih, List.foldl_cons, and_assoc]

/-- A run is guarded if each of its steps is, after the steps before it. -/
theorem guarded_iff_forall_split {step : σ → α → σ} {ok : σ → α → Prop} {c : σ} {es : List α} :
    Guarded step ok c es ↔
      ∀ done e rest, es = done ++ e :: rest → ok (done.foldl step c) e := by
  constructor
  · rintro h done e rest rfl
    exact (guarded_append.mp h).2.1
  · intro h
    induction es generalizing c with
    | nil => trivial
    | cons e es ih =>
        refine ⟨h [] e es rfl, ih fun done e' rest hes => ?_⟩
        exact h (e :: done) e' rest (by rw [hes]; rfl)

/-- A property that every step keeps exactly if it meets `ok` holds along a run exactly if the run
is guarded.  `Inv` is what the steps need to be judged. -/
theorem forall_prefixes_iff_guarded {step : σ → α → σ} {ok : σ → α → Prop} (Inv P : σ → Prop)
    (hP : ∀ c, Inv c → P c) (hstep : ∀ c e, Inv c → ok c e → Inv (step c e))
    (hback : ∀ c e, Inv c → P (step c e) → ok c e) {c : σ} (hc : Inv c) (es : List α) :
    (∀ done, done <+: es → P (done.foldl step c)) ↔ Guarded step ok c es := by
  constructor
  · intro h
    induction es generalizing c with
    | nil => trivial
    | cons e es ih =>
        have hok : ok c e := hback c e hc (h [e] (by simp))
        refine ⟨hok, ih (hstep c e hc hok) fun done hdone => ?_⟩
        exact h (e :: done) (List.cons_prefix_cons.mpr ⟨rfl, hdone⟩)
  · rintro h done ⟨rest, rfl⟩
    exact hP _ ((guarded_append.mp h).1.invariant hstep hc)
