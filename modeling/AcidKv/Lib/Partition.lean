import Mathlib.Data.Set.Basic

/-!
# Partitions into named parts

`D r` is the set of points of the part named `r`, and `Partitions D R` says that every point lies
in exactly one of the parts named in `R`.  Splitting a part in two keeps that (`Partitions.split`),
and a search through the parts in whatever order finds the one that a point lies in
(`Partitions.find?_eq`).
-/

/-- Every point lies in exactly one of the parts. -/
def Partitions {ι α : Type} (D : ι → Set α) (R : Set ι) : Prop :=
  ∀ x, ∃! r, r ∈ R ∧ x ∈ D r

namespace Partitions

variable {ι α : Type} {D : ι → Set α} {R : Set ι}

/-- The one part is everything. -/
lemma single {r : ι} (h : ∀ x, x ∈ D r) : Partitions D {r} :=
  fun x => ⟨r, ⟨rfl, h x⟩, fun _ hr => hr.1⟩

/-- A point lies in one part only. -/
lemma unique (h : Partitions D R) {r r' : ι} {x : α} (hr : r ∈ R) (hx : x ∈ D r) (hr' : r' ∈ R)
    (hx' : x ∈ D r') : r = r' :=
  (h x).unique ⟨hr, hx⟩ ⟨hr', hx'⟩

/-- Replacing a part by the two halves of it. -/
theorem split (h : Partitions D R) {old left right : ι} (hold : old ∈ R)
    (hunion : D old = D left ∪ D right) (hdisj : ∀ x ∈ D left, x ∉ D right) :
    Partitions D (R \ {old} ∪ {left, right}) := by
  have hhalf : ∀ {r x}, r = left ∨ r = right → x ∈ D r → x ∈ D old := by
    rintro r x (rfl | rfl) hx
    · exact hunion ▸ Or.inl hx
    · exact hunion ▸ Or.inr hx
  -- the halves are disjoint from each other and from what is left of `R`
  have hmixed : ∀ {r r' x}, r ∈ R → r ≠ old → r' = left ∨ r' = right → x ∈ D r → x ∉ D r' :=
    fun hr hne hr' hx hx' => hne (h.unique hr hx hold (hhalf hr' hx'))
  intro x
  obtain ⟨r, ⟨hr, hx⟩, -⟩ := h x
  have huniq : ∀ {a b}, a ∈ R \ {old} ∪ {left, right} → b ∈ R \ {old} ∪ {left, right} →
      x ∈ D a → x ∈ D b → a = b := by
    rintro a b (⟨ha, hao⟩ | ha) (⟨hb, hbo⟩ | hb) hxa hxb
    · exact h.unique ha hxa hb hxb
    · exact absurd hxb (hmixed ha hao hb hxa)
    · exact absurd hxa (hmixed hb hbo ha hxb)
    · rcases ha with rfl | rfl <;> rcases hb with rfl | rfl
      · rfl
      · exact absurd hxb (hdisj x hxa)
      · exact absurd hxa (hdisj x hxb)
      · rfl
  have hex : ∃ a ∈ R \ {old} ∪ {left, right}, x ∈ D a := by
    by_cases hro : r = old
    · rcases (hunion ▸ hro ▸ hx : x ∈ D left ∪ D right) with hl | hr
      · exact ⟨left, Or.inr (Or.inl rfl), hl⟩
      · exact ⟨right, Or.inr (Or.inr rfl), hr⟩
    · exact ⟨r, Or.inl ⟨hr, hro⟩, hx⟩
  obtain ⟨a, ha, hxa⟩ := hex
  exact ⟨a, ⟨ha, hxa⟩, fun b hb => huniq hb.1 ha hb.2 hxa⟩

/-- A search finds the part that the point lies in. -/
theorem find?_eq (h : Partitions D R) {l : List ι} (hl : ∀ r, r ∈ l ↔ r ∈ R) {p : ι → Bool} {x : α}
    (hp : ∀ r, p r ↔ x ∈ D r) {r : ι} (hr : r ∈ R) (hx : x ∈ D r) : l.find? p = some r := by
  cases hfind : l.find? p with
  | none => exact absurd ((hp r).mpr hx) (List.find?_eq_none.mp hfind r ((hl r).mpr hr))
  | some r' =>
      have hr' := (hl r').mp (List.mem_of_find?_eq_some hfind)
      have hx' := (hp r').mp (List.find?_some hfind)
      rw [h.unique hr' hx' hr hx]

end Partitions
