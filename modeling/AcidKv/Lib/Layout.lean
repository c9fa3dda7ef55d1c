import Mathlib.Data.List.Nodup
import Mathlib.Data.List.Pairwise

/-!
# Keys read off along a layout

Keys stand at places, some of them at several, and are read off in the order of the places.  The
first `n` that are read are the first `n` of a sorted list exactly if each of these has a place, no
greater key stands in front of its first one, and no key comes a second time before `n` different
ones have come (`take_map_eq_iff`).
-/

variable {E K : Type*} [LT E] [LT K]

/-- The first place with a property. -/
lemma exists_first {P : List E} (hP : P.Pairwise (· < ·)) [Std.Asymm (fun a b : E => a < b)]
    {p : E → Prop} {e : E} (he : e ∈ P) (hp : p e) :
    ∃ f ∈ P, p f ∧ (f = e ∨ f < e) ∧ ∀ q ∈ P, q < f → ¬ p q := by
  induction P with
  | nil => cases he
  | cons e₀ P ih =>
      by_cases hp₀ : p e₀
      · refine ⟨e₀, List.mem_cons_self, hp₀, ?_, fun q hq hlt => ?_⟩
        · rcases List.mem_cons.mp he with rfl | he
          · exact Or.inl rfl
          · exact Or.inr (List.rel_of_pairwise_cons hP he)
        · rcases List.mem_cons.mp hq with rfl | hq
          · exact absurd hlt (Std.Asymm.asymm _ _ hlt)
          · exact absurd (List.rel_of_pairwise_cons hP hq) (Std.Asymm.asymm _ _ hlt)
      · have he' : e ∈ P := by
          rcases List.mem_cons.mp he with rfl | he
          · exact absurd hp hp₀
          · exact he
        obtain ⟨f, hf, hpf, hle, hfirst⟩ := ih hP.of_cons he'
        refine ⟨f, List.mem_cons_of_mem _ hf, hpf, hle, fun q hq hlt => ?_⟩
        rcases List.mem_cons.mp hq with rfl | hq
        · exact hp₀
        · exact hfirst q hq hlt

/-- `n` different keys stand in front of the place `p`. -/
def Filled (P : List E) (key : E → K) (n : ℕ) (p : E) : Prop :=
  ∃ ks : List K, ks.Nodup ∧ ks.length = n ∧ ∀ k ∈ ks, ∃ q ∈ P, q < p ∧ key q = k

/-- The first `n` keys of `S` are the first that are read off. -/
structure ReadsOff (P : List E) (key : E → K) (S : List K) (n : ℕ) : Prop where
  placed : ∀ k ∈ S.take n, ∃ p ∈ P, key p = k
  ahead : ∀ k ∈ S.take n, ∀ p' ∈ P, k < key p' → ∃ p ∈ P, p < p' ∧ key p = k
  once : ∀ p ∈ P, ∀ q ∈ P, p < q → key p = key q → Filled P key n q

section

variable [Std.Asymm (fun a b : E => a < b)] [Std.Asymm (fun a b : K => a < b)]
  {P : List E} {key : E → K} {S : List K} {n : ℕ} {p₀ : E}

omit [LT K] [Std.Asymm (fun a b : K => a < b)] in
/-- Nothing stands in front of the first place. -/
lemma not_filled_head (hP : (p₀ :: P).Pairwise (· < ·)) :
    ¬ Filled (p₀ :: P) key (n + 1) p₀ := by
  rintro ⟨ks, -, hlen, hks⟩
  obtain ⟨k, ks, rfl⟩ := List.exists_cons_of_length_eq_add_one hlen
  obtain ⟨q, hq, hlt, -⟩ := hks k List.mem_cons_self
  rcases List.mem_cons.mp hq with rfl | hq
  · exact Std.Asymm.asymm _ _ hlt hlt
  · exact Std.Asymm.asymm _ _ hlt (List.rel_of_pairwise_cons hP hq)

omit [Std.Asymm (fun a b : E => a < b)] [LT K] [Std.Asymm (fun a b : K => a < b)] in
/-- Without the first place one key less stands in front. -/
lemma Filled.tail {p : E} (h : Filled (p₀ :: P) key (n + 1) p) : Filled P key n p := by
  classical
  obtain ⟨ks, hnodup, hlen, hks⟩ := h
  refine ⟨(ks.erase (key p₀)).take n, (hnodup.erase _).sublist (List.take_sublist _ _), ?_, ?_⟩
  · have hle : ks.length - 1 ≤ (ks.erase (key p₀)).length := List.le_length_erase
    rw [List.length_take]
    omega
  · intro k hk
    obtain ⟨hne, hmem⟩ := (hnodup.mem_erase_iff).mp (List.mem_of_mem_take hk)
    obtain ⟨q, hq, hlt, rfl⟩ := hks k hmem
    rcases List.mem_cons.mp hq with rfl | hq
    · exact absurd rfl hne
    · exact ⟨q, hq, hlt, rfl⟩

omit [Std.Asymm (fun a b : E => a < b)] in
/-- What is read off after the first key. -/
lemma ReadsOff.tail {S' : List K} (hS : (key p₀ :: S').Pairwise (· < ·))
    (h : ReadsOff (p₀ :: P) key (key p₀ :: S') (n + 1)) : ReadsOff P key S' n := by
  have hmem : ∀ {k}, k ∈ S'.take n → k ∈ (key p₀ :: S').take (n + 1) :=
    fun hk => List.mem_cons_of_mem _ hk
  have hne : ∀ {k}, k ∈ S'.take n → key p₀ ≠ k := by
    rintro k hk rfl
    have hlt := List.rel_of_pairwise_cons hS (List.mem_of_mem_take hk)
    exact Std.Asymm.asymm _ _ hlt hlt
  refine ⟨fun k hk => ?_, fun k hk p' hp' hlt => ?_, fun p hp q hq hlt heq => ?_⟩
  · obtain ⟨p, hp, rfl⟩ := h.placed k (hmem hk)
    rcases List.mem_cons.mp hp with rfl | hp
    · exact absurd rfl (hne hk)
    · exact ⟨p, hp, rfl⟩
  · obtain ⟨p, hp, hbefore, rfl⟩ := h.ahead k (hmem hk) p' (List.mem_cons_of_mem _ hp') hlt
    rcases List.mem_cons.mp hp with rfl | hp
    · exact absurd rfl (hne hk)
    · exact ⟨p, hp, hbefore, rfl⟩
  · exact (h.once p (List.mem_cons_of_mem _ hp) q (List.mem_cons_of_mem _ hq) hlt heq).tail

/-- A layout is read off place by place; a key that is not in the rest of the list comes too
late. -/
lemma take_map_eq_of_readsOff (hP : P.Pairwise (· < ·)) (hS : S.Pairwise (· < ·))
    (hkeys : ∀ p ∈ P, key p ∈ S ∨ Filled P key n p) (h : ReadsOff P key S n) :
    (P.map key).take n = S.take n := by
  induction n generalizing P S with
  | zero => rw [List.take_zero, List.take_zero]
  | succ n ih =>
      cases P with
      | nil =>
          cases S with
          | nil => rfl
          | cons k S =>
              obtain ⟨p, hp, -⟩ := h.placed k List.mem_cons_self
              cases hp
      | cons p₀ P =>
          have hmem := (hkeys p₀ List.mem_cons_self).resolve_right (not_filled_head hP)
          cases S with
          | nil => cases hmem
          | cons k S =>
              have hfirst : key p₀ = k := by
                rcases List.mem_cons.mp hmem with heq | hmem
                · exact heq
                · -- the smallest key would have to stand in front of the first place
                  obtain ⟨p, hp, hlt, -⟩ := h.ahead k List.mem_cons_self p₀ List.mem_cons_self
                    (List.rel_of_pairwise_cons hS hmem)
                  rcases List.mem_cons.mp hp with rfl | hp
                  · exact absurd hlt (Std.Asymm.asymm _ _ hlt)
                  · exact absurd (List.rel_of_pairwise_cons hP hp) (Std.Asymm.asymm _ _ hlt)
              subst hfirst
              rw [List.map_cons, List.take_succ_cons, List.take_succ_cons,
                ih hP.of_cons hS.of_cons (fun p hp => ?_) (h.tail hS)]
              rcases hkeys p (List.mem_cons_of_mem _ hp) with hmem | hfilled
              · rcases List.mem_cons.mp hmem with heq | hmem
                · exact Or.inr (h.once p₀ List.mem_cons_self p (List.mem_cons_of_mem _ hp)
                    (List.rel_of_pairwise_cons hP hp) heq.symm).tail
                · exact Or.inl hmem
              · exact Or.inr hfilled.tail

omit [Std.Asymm (fun a b : E => a < b)] in
/-- Places and keys in the same order. -/
lemma order_of_pairwise (hP : P.Pairwise (· < ·)) (hK : (P.map key).Pairwise (· < ·)) :
    ∀ p ∈ P, ∀ q ∈ P, (key p = key q → p = q) ∧ (key p < key q → p < q) := by
  have hboth := hP.and (List.pairwise_map.mp hK)
  intro p hp q hq
  refine List.Pairwise.forall_of_forall_of_flip
    (R := fun p q => (key p = key q → p = q) ∧ (key p < key q → p < q)) (fun p _ => ?_)
    (hboth.imp fun {p q} h => ?_) (hboth.imp fun {p q} h => ?_) hp hq
  · exact ⟨fun _ => rfl, fun hlt => absurd hlt (Std.Asymm.asymm _ _ hlt)⟩
  · exact ⟨fun heq => absurd (heq ▸ h.2) (Std.Asymm.asymm _ _ h.2), fun _ => h.1⟩
  · exact ⟨fun heq => absurd (heq ▸ h.2) (Std.Asymm.asymm _ _ h.2),
      fun hgt => absurd hgt (Std.Asymm.asymm _ _ h.2)⟩

lemma readsOff_of_take_map_eq (hP : P.Pairwise (· < ·)) (hS : S.Pairwise (· < ·))
    (heq : (P.map key).take n = S.take n) : ReadsOff P key S n := by
  -- the places up to `n` carry the keys that are to be read, the others stand behind them
  have hread : (P.take n).map key = S.take n := by rw [List.map_take, heq]
  have hK : ((P.take n).map key).Pairwise (· < ·) := by
    rw [hread]
    exact hS.sublist (List.take_sublist _ _)
  have hsplit : (P.take n ++ P.drop n).Pairwise (· < ·) := by rwa [List.take_append_drop]
  obtain ⟨hfirst, -, hcross⟩ := List.pairwise_append.mp hsplit
  have horder := order_of_pairwise hfirst hK
  have hcases : ∀ p ∈ P, p ∈ P.take n ∨ p ∈ P.drop n := by
    intro p hp
    rwa [← List.mem_append, List.take_append_drop]
  refine ⟨fun k hk => ?_, fun k hk p' hp' hlt => ?_, fun p hp q hq hlt hsame => ?_⟩
  · rw [← hread] at hk
    obtain ⟨p, hp, rfl⟩ := List.mem_map.mp hk
    exact ⟨p, List.mem_of_mem_take hp, rfl⟩
  · rw [← hread] at hk
    obtain ⟨p, hp, rfl⟩ := List.mem_map.mp hk
    refine ⟨p, List.mem_of_mem_take hp, ?_, rfl⟩
    rcases hcases p' hp' with hp' | hp'
    · exact (horder p hp p' hp').2 hlt
    · exact hcross p hp p' hp'
  · rcases hcases q hq with hq' | hq'
    · rcases hcases p hp with hp' | hp'
      · obtain rfl := (horder p hp' q hq').1 hsame
        exact absurd hlt (Std.Asymm.asymm _ _ hlt)
      · exact absurd (hcross q hq' p hp') (Std.Asymm.asymm _ _ hlt)
    · refine ⟨(P.take n).map key, ?_, ?_, fun k hk => ?_⟩
      · refine hK.imp ?_
        rintro a _ hlt rfl
        exact Std.Asymm.asymm _ _ hlt hlt
      · have hpos : 0 < (P.drop n).length := List.length_pos_of_mem hq'
        rw [List.length_drop] at hpos
        rw [List.length_map, List.length_take]
        omega
      · obtain ⟨p, hp, rfl⟩ := List.mem_map.mp hk
        exact ⟨p, List.mem_of_mem_take hp, hcross p hp q hq', rfl⟩

theorem take_map_eq_iff (hP : P.Pairwise (· < ·)) (hS : S.Pairwise (· < ·))
    (hkeys : ∀ p ∈ P, key p ∈ S) : (P.map key).take n = S.take n ↔ ReadsOff P key S n :=
  ⟨readsOff_of_take_map_eq hP hS,
    take_map_eq_of_readsOff hP hS fun p hp => Or.inl (hkeys p hp)⟩

end
