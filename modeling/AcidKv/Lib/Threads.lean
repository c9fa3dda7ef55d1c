import AcidKv.Lib.Prog
import AcidKv.Lib.Runs

/-!
# Programs that run at the same time

Any number of programs over one keyspace, each taking its atomic steps whenever it is scheduled,
with nothing else between them.  A thread keeps what it has seen (`Obs`): the answers to its reads
and the batches it has committed.

What a program does depends on the answers alone, so a fact about its batches that holds whatever
the answers are holds under every schedule.  `Always A Q p h` is the verification condition for
that: from the history `h` on, each batch of `p` satisfies `A` with the history before it, and the
outcome satisfies `Q` with the whole of it.  It has the same rules as `Prog.Sat`, and is an
invariant of pools (`Pool.always_next`).

Histories are looked at one entry at a time.  `views h p k` is what a thread knows about the entry
`k` of `p`: what its own last batch for it has left there, and what it has read there since.
-/

/-- What a program sees of one of its steps. -/
inductive Obs (π κ ν τ : Type) : Type where
  | got (p : π) (k : κ) (value : Option ν)
  | walked (p : π) (lo : κ) (items : List (κ × ν))
  | read (t : τ)
  | wrote (b : List (BatchItem π κ ν))

abbrev History (π κ ν τ : Type) := List (Obs π κ ν τ)

namespace Prog

variable {π κ ν τ ε ε' α β : Type}

/-! ## Verification conditions -/

/-- Whatever the reads return, the batches satisfy `A` and the outcome satisfies `Q`. -/
def Always (A : History π κ ν τ → List (BatchItem π κ ν) → Prop)
    (Q : Except ε α → History π κ ν τ → Prop) : Prog π κ ν τ ε α → History π κ ν τ → Prop
  | .pure a, h => Q (.ok a) h
  | .throw e, h => Q (.error e) h
  | .get p k next, h => ∀ r, (next r).Always A Q (h ++ [.got p k r])
  | .range p lo next, h => ∀ items, (next items).Always A Q (h ++ [.walked p lo items])
  | .now next, h => ∀ t, (next t).Always A Q (h ++ [.read t])
  | .commit b next, h => A h b ∧ next.Always A Q (h ++ [.wrote b])

variable {A : History π κ ν τ → List (BatchItem π κ ν) → Prop} {h : History π κ ν τ}

section Rules

variable {Q : Except ε α → History π κ ν τ → Prop}

@[simp] lemma always_pure {a : α} :
    (Pure.pure a : Prog π κ ν τ ε α).Always A Q h ↔ Q (.ok a) h := Iff.rfl

@[simp] lemma always_throw {e : ε} :
    (Prog.throw e : Prog π κ ν τ ε α).Always A Q h ↔ Q (.error e) h := Iff.rfl

@[simp] lemma always_ofExcept {x : Except ε α} : (ofExcept x).Always A Q h ↔ Q x h := by
  cases x <;> rfl

@[simp] lemma always_lookup {p : π} {k : κ} {Q : Except ε (Option ν) → History π κ ν τ → Prop} :
    (lookup p k : Prog π κ ν τ ε _).Always A Q h ↔ ∀ r, Q (.ok r) (h ++ [.got p k r]) := Iff.rfl

@[simp] lemma always_walk {p : π} {lo : κ} {Q : Except ε (List (κ × ν)) → History π κ ν τ → Prop} :
    (walk p lo : Prog π κ ν τ ε _).Always A Q h ↔
      ∀ items, Q (.ok items) (h ++ [.walked p lo items]) := Iff.rfl

@[simp] lemma always_clock {Q : Except ε τ → History π κ ν τ → Prop} :
    (clock : Prog π κ ν τ ε τ).Always A Q h ↔ ∀ t, Q (.ok t) (h ++ [.read t]) := Iff.rfl

@[simp] lemma always_write {b : List (BatchItem π κ ν)}
    {Q : Except ε Unit → History π κ ν τ → Prop} :
    (write b : Prog π κ ν τ ε Unit).Always A Q h ↔ A h b ∧ Q (.ok ()) (h ++ [.wrote b]) := Iff.rfl

/-- What the continuation of `x` has to satisfy for the sequence to satisfy `Q`. -/
def Onward (A : History π κ ν τ → List (BatchItem π κ ν) → Prop) (f : α → Prog π κ ν τ ε β)
    (Q : Except ε β → History π κ ν τ → Prop) : Except ε α → History π κ ν τ → Prop
  | .ok a, h => (f a).Always A Q h
  | .error e, h => Q (.error e) h

@[simp] lemma onward_ok {f : α → Prog π κ ν τ ε β} {Q : Except ε β → History π κ ν τ → Prop}
    {a : α} : Onward A f Q (.ok a) h ↔ (f a).Always A Q h := Iff.rfl

@[simp] lemma onward_error {f : α → Prog π κ ν τ ε β} {Q : Except ε β → History π κ ν τ → Prop}
    {e : ε} : Onward A f Q (.error e) h ↔ Q (.error e) h := Iff.rfl

/-- The rule of sequencing. -/
@[simp] theorem always_bind (x : Prog π κ ν τ ε α) (f : α → Prog π κ ν τ ε β)
    (Q : Except ε β → History π κ ν τ → Prop) :
    (x >>= f).Always A Q h ↔ x.Always A (Onward A f Q) h := by
  change (x.bind f).Always A Q h ↔ _
  induction x generalizing h with
  | pure a => rfl
  | throw e => rfl
  | get p k next ih => exact forall_congr' fun r => ih r
  | range p lo next ih => exact forall_congr' fun items => ih items
  | now next ih => exact forall_congr' fun t => ih t
  | commit b next ih => exact and_congr_right fun _ => ih

/-- The rule for a result that is only passed on. -/
lemma always_bind_pure (x : Prog π κ ν τ ε α) (f : α → β)
    (Q : Except ε β → History π κ ν τ → Prop) :
    (x >>= fun a => Pure.pure (f a)).Always A Q h ↔ x.Always A (fun r h' => Q (r.map f) h') h := by
  rw [always_bind]
  have honward : Onward A (fun a => (Pure.pure (f a) : Prog π κ ν τ ε β)) Q
      = fun r h' => Q (r.map f) h' := by
    funext r h'
    cases r <;> rfl
  rw [honward]

@[simp] theorem always_attempt (x : Prog π κ ν τ ε α)
    (Q : Except ε' (Except ε α) → History π κ ν τ → Prop) :
    x.attempt.Always A Q h ↔ x.Always A (fun r h' => Q (.ok r) h') h := by
  induction x generalizing h with
  | pure a => rfl
  | throw e => rfl
  | get p k next ih => exact forall_congr' fun r => ih r
  | range p lo next ih => exact forall_congr' fun items => ih items
  | now next ih => exact forall_congr' fun t => ih t
  | commit b next ih => exact and_congr_right fun _ => ih

@[simp] theorem always_mapError (f : ε → ε') (x : Prog π κ ν τ ε α)
    (Q : Except ε' α → History π κ ν τ → Prop) :
    (x.mapError f).Always A Q h ↔ x.Always A (fun r h' => Q (r.mapError f) h') h := by
  induction x generalizing h with
  | pure a => rfl
  | throw e => rfl
  | get p k next ih => exact forall_congr' fun r => ih r
  | range p lo next ih => exact forall_congr' fun items => ih items
  | now next ih => exact forall_congr' fun t => ih t
  | commit b next ih => exact and_congr_right fun _ => ih

/-- The rule of consequence. -/
theorem Always.mono {x : Prog π κ ν τ ε α} {Q' : Except ε α → History π κ ν τ → Prop}
    (hx : x.Always A Q h) (hQ : ∀ r h', Q r h' → Q' r h') : x.Always A Q' h := by
  induction x generalizing h with
  | pure a => exact hQ _ _ hx
  | throw e => exact hQ _ _ hx
  | get p k next ih => exact fun r => ih r (hx r)
  | range p lo next ih => exact fun items => ih items (hx items)
  | now next ih => exact fun t => ih t (hx t)
  | commit b next ih => exact ⟨hx.1, ih hx.2⟩

/-- The frame rule: what no step can end holds at the end. -/
theorem Always.keep {x : Prog π κ ν τ ε α} {R : History π κ ν τ → Prop} (hx : x.Always A Q h)
    (hR : ∀ h o, R h → R (h ++ [o])) (h₀ : R h) : x.Always A (fun r h' => Q r h' ∧ R h') h := by
  induction x generalizing h with
  | pure a => exact ⟨hx, h₀⟩
  | throw e => exact ⟨hx, h₀⟩
  | get p k next ih => exact fun r => ih r (hx r) (hR _ _ h₀)
  | range p lo next ih => exact fun items => ih items (hx items) (hR _ _ h₀)
  | now next ih => exact fun t => ih t (hx t) (hR _ _ h₀)
  | commit b next ih => exact ⟨hx.1, ih hx.2 (hR _ _ h₀)⟩

/-- Nothing is left to verify once the history says enough for every batch and every outcome. -/
theorem always_of_stable (x : Prog π κ ν τ ε α) {R : History π κ ν τ → Prop}
    (hR : ∀ h o, R h → R (h ++ [o])) (hA : ∀ h b, R h → A h b) (hQ : ∀ r h, R h → Q r h)
    (h₀ : R h) : x.Always A Q h := by
  induction x generalizing h with
  | pure a => exact hQ _ _ h₀
  | throw e => exact hQ _ _ h₀
  | get p k next ih => exact fun r => ih r (hR _ _ h₀)
  | range p lo next ih => exact fun items => ih items (hR _ _ h₀)
  | now next ih => exact fun t => ih t (hR _ _ h₀)
  | commit b next ih => exact ⟨hA _ _ h₀, ih (hR _ _ h₀)⟩

end Rules

/-! ## One step -/

variable [Ord κ] [Std.TransOrd κ] [DecidableEq π]

/-- The next step of a program that has not ended: what it sees, what is left of the program, and
the keyspace afterwards.  If it reads the clock it gets `t`. -/
def step (t : τ) (s : Keyspace π κ ν) :
    Prog π κ ν τ ε α → Option (Obs π κ ν τ × Prog π κ ν τ ε α × Keyspace π κ ν)
  | .pure _ => none
  | .throw _ => none
  | .get p k next => some (.got p k (s.get p k), next (s.get p k), s)
  | .range p lo next => some (.walked p lo (s.range p lo), next (s.range p lo), s)
  | .now next => some (.read t, next t, s)
  | .commit b next => some (.wrote b, next, s.apply b)

variable {Q : Except ε α → History π κ ν τ → Prop} {x x' : Prog π κ ν τ ε α} {t : τ}
  {s s' : Keyspace π κ ν} {o : Obs π κ ν τ}

theorem Always.step (hx : x.Always A Q h) (hstep : x.step t s = some (o, x', s')) :
    x'.Always A Q (h ++ [o]) := by
  cases x with
  | pure a => cases hstep
  | throw e => cases hstep
  | get p k next => cases hstep; exact hx _
  | range p lo next => cases hstep; exact hx _
  | now next => cases hstep; exact hx _
  | commit b next => cases hstep; exact hx.2

end Prog

/-! ## Pools of threads -/

/-- A program under way: what it was started for, what it has seen, and what is left of it. -/
structure Thread (J π κ ν τ ε α : Type) where
  job : J
  seen : History π κ ν τ
  prog : Prog π κ ν τ ε α

structure Pool (J π κ ν τ ε α : Type) [Ord κ] where
  threads : List (Thread J π κ ν τ ε α)
  store : Keyspace π κ ν

/-- What the scheduler may choose: start a program, or let one take its next step. -/
inductive Choice (J τ : Type) : Type where
  | start (j : J)
  | step (i : ℕ) (t : τ)

namespace Pool

variable {J π κ ν τ ε α : Type} [Ord κ] [Std.TransOrd κ] [DecidableEq π]

/-- Thread `i` takes its next step, if there is such a thread and it has not ended. -/
def stepThread (P : Pool J π κ ν τ ε α) (i : ℕ) (t : τ) : Option (Pool J π κ ν τ ε α) :=
  (P.threads[i]?).bind fun th => (th.prog.step t P.store).map fun r =>
    ⟨P.threads.set i ⟨th.job, th.seen ++ [r.1], r.2.1⟩, r.2.2⟩

def next (code : J → Prog π κ ν τ ε α) (P : Pool J π κ ν τ ε α) :
    Choice J τ → Pool J π κ ν τ ε α
  | .start j => { P with threads := P.threads ++ [⟨j, [], code j⟩] }
  | .step i t => (P.stepThread i t).getD P

/-- The three things that may happen. -/
inductive Turn (code : J → Prog π κ ν τ ε α) (P : Pool J π κ ν τ ε α) :
    Choice J τ → Pool J π κ ν τ ε α → Prop where
  | started (j : J) : Turn code P (.start j) { P with threads := P.threads ++ [⟨j, [], code j⟩] }
  | idle (i : ℕ) (t : τ) : Turn code P (.step i t) P
  | stepped {i : ℕ} {t : τ} {th : Thread J π κ ν τ ε α} {o : Obs π κ ν τ}
      {x' : Prog π κ ν τ ε α} {s' : Keyspace π κ ν} (hth : P.threads[i]? = some th)
      (hstep : th.prog.step t P.store = some (o, x', s')) :
      Turn code P (.step i t) ⟨P.threads.set i ⟨th.job, th.seen ++ [o], x'⟩, s'⟩

theorem turn (code : J → Prog π κ ν τ ε α) (P : Pool J π κ ν τ ε α) (c : Choice J τ) :
    Turn code P c (P.next code c) := by
  cases c with
  | start j => exact .started j
  | step i t =>
      simp only [next, stepThread]
      cases hth : P.threads[i]? with
      | none => exact .idle i t
      | some th =>
          cases hstep : th.prog.step t P.store with
          | none =>
              simp only [Option.bind_some, hstep, Option.map_none, Option.getD_none]
              exact .idle i t
          | some r =>
              simp only [Option.bind_some, hstep, Option.map_some, Option.getD_some]
              exact .stepped hth hstep

omit [Std.TransOrd κ] [DecidableEq π] in
/-- A thread of a pool after one of them has moved is that one or was there before. -/
lemma mem_set {P : Pool J π κ ν τ ε α} {i : ℕ} {new th : Thread J π κ ν τ ε α}
    (h : th ∈ P.threads.set i new) : th = new ∨ th ∈ P.threads := by
  rcases List.mem_or_eq_of_mem_set h with hmem | heq
  · exact Or.inr hmem
  · exact Or.inl heq

variable {A : J → History π κ ν τ → List (BatchItem π κ ν) → Prop}
  {Q : J → Except ε α → History π κ ν τ → Prop}

/-- Every thread satisfies its verification condition from where it stands. -/
def Verified (A : J → History π κ ν τ → List (BatchItem π κ ν) → Prop)
    (Q : J → Except ε α → History π κ ν τ → Prop) (P : Pool J π κ ν τ ε α) : Prop :=
  ∀ th ∈ P.threads, th.prog.Always (A th.job) (Q th.job) th.seen

theorem always_next {code : J → Prog π κ ν τ ε α} {P : Pool J π κ ν τ ε α} {c : Choice J τ}
    (h : P.Verified A Q) (hcode : ∀ j, c = .start j → (code j).Always (A j) (Q j) []) :
    (P.next code c).Verified A Q := by
  have hturn := turn code P c
  generalize P.next code c = P' at hturn ⊢
  intro th hth
  cases hturn with
  | started j =>
      rcases List.mem_append.mp hth with hth | hth
      · exact h th hth
      · rw [List.mem_singleton.mp hth]
        exact hcode j rfl
  | idle => exact h th hth
  | stepped hget hstep =>
      rcases mem_set hth with rfl | hth
      · exact (h _ (List.mem_of_getElem? hget)).step hstep
      · exact h th hth

end Pool

/-! ## What a thread knows about an entry -/

/-- What a batch leaves at an entry, if it has an item for it. -/
def batchLeaves {π κ ν : Type} [DecidableEq π] [DecidableEq κ] (b : List (BatchItem π κ ν)) (p : π)
    (k : κ) : Option (Option ν) :=
  b.foldl (fun left i => if i.entry = (p, k) then some i.value else left) none

section Leaves

variable {π κ ν : Type} [DecidableEq π] [DecidableEq κ]

lemma batchLeaves_append (b c : List (BatchItem π κ ν)) (p : π) (k : κ) :
    batchLeaves (b ++ c) p k = (batchLeaves c p k).or (batchLeaves b p k) := by
  have hfold : ∀ (c : List (BatchItem π κ ν)) (left : Option (Option ν)),
      c.foldl (fun left i => if i.entry = (p, k) then some i.value else left) left
        = (batchLeaves c p k).or left := by
    intro c
    induction c with
    | nil => exact fun left => rfl
    | cons i c ih =>
        intro left
        simp only [batchLeaves, List.foldl_cons] at ih ⊢
        rw [ih, ih (if i.entry = (p, k) then some i.value else none)]
        cases hc : c.foldl (fun left i => if i.entry = (p, k) then some i.value else left) none with
        | some x => rfl
        | none =>
            split_ifs <;> rfl
  rw [batchLeaves, List.foldl_append, hfold]
  rfl

lemma batchLeaves_cons (i : BatchItem π κ ν) (b : List (BatchItem π κ ν)) (p : π) (k : κ) :
    batchLeaves (i :: b) p k =
      (batchLeaves b p k).or (if i.entry = (p, k) then some i.value else none) :=
  batchLeaves_append [i] b p k

@[simp] lemma batchLeaves_nil (p : π) (k : κ) :
    batchLeaves ([] : List (BatchItem π κ ν)) p k = none := rfl

/-- What is left at an entry is left there by an item for it. -/
lemma batchLeaves_origin {b : List (BatchItem π κ ν)} {p : π} {k : κ} {x : Option ν}
    (h : batchLeaves b p k = some x) : ∃ i ∈ b, i.entry = (p, k) ∧ i.value = x := by
  induction b with
  | nil => cases h
  | cons i b ih =>
      rw [batchLeaves_cons] at h
      cases hb : batchLeaves b p k with
      | some y =>
          rw [hb] at h
          obtain ⟨j, hj, hentry, hvalue⟩ := ih (hb.trans h)
          exact ⟨j, List.mem_cons_of_mem i hj, hentry, hvalue⟩
      | none =>
          rw [hb, Option.none_or] at h
          split_ifs at h with hi
          exact ⟨i, List.mem_cons_self, hi, Option.some.inj h⟩

lemma batchLeaves_eq_none {b : List (BatchItem π κ ν)} {p : π} {k : κ}
    (h : ∀ i ∈ b, i.entry ≠ (p, k)) : batchLeaves b p k = none := by
  rw [Option.eq_none_iff_forall_ne_some]
  intro x hx
  obtain ⟨i, hi, hentry, -⟩ := batchLeaves_origin hx
  exact h i hi hentry

lemma get_apply_eq_batchLeaves [Ord κ] [Std.TransOrd κ] [Std.LawfulEqOrd κ] (s : Keyspace π κ ν)
    (b : List (BatchItem π κ ν)) (p : π) (k : κ) :
    (s.apply b).get p k = (batchLeaves b p k).getD (s.get p k) := by
  induction b generalizing s with
  | nil => rfl
  | cons i b ih =>
      rw [Keyspace.apply_cons, ih, batchLeaves_cons, Keyspace.get_applyItem]
      cases batchLeaves b p k with
      | some x => rfl
      | none => split_ifs <;> rfl

end Leaves

/-- What the thread's own last batch for an entry has left there, and what it has read there
since. -/
structure Views (ν : Type) where
  own : Option (Option ν)
  reads : List (Option ν)

namespace Views

variable {π κ ν τ : Type} [DecidableEq π] [DecidableEq κ]

/-- All of what is known. -/
def all (vs : Views ν) : List (Option ν) := vs.own.toList ++ vs.reads

def next (p : π) (k : κ) (vs : Views ν) : Obs π κ ν τ → Views ν
  | .got p' k' r => if (p', k') = (p, k) then { vs with reads := vs.reads ++ [r] } else vs
  | .walked _ _ _ => vs
  | .read _ => vs
  | .wrote b => match batchLeaves b p k with
      | some x => ⟨some x, []⟩
      | none => vs

end Views

section

variable {π κ ν τ : Type} [DecidableEq π] [DecidableEq κ]

def views (h : History π κ ν τ) (p : π) (k : κ) : Views ν :=
  h.foldl (Views.next p k) ⟨none, []⟩

@[simp] lemma views_nil (p : π) (k : κ) : views ([] : History π κ ν τ) p k = ⟨none, []⟩ := rfl

lemma views_append (h : History π κ ν τ) (o : Obs π κ ν τ) (p : π) (k : κ) :
    views (h ++ [o]) p k = (views h p k).next p k o := by
  simp [views, List.foldl_append]

@[simp] lemma views_got_self (h : History π κ ν τ) (p : π) (k : κ) (r : Option ν) :
    views (h ++ [.got p k r]) p k = ⟨(views h p k).own, (views h p k).reads ++ [r]⟩ := by
  simp [views_append, Views.next]

lemma views_got_of_ne (h : History π κ ν τ) {p p' : π} {k k' : κ} (r : Option ν)
    (hne : (p', k') ≠ (p, k)) : views (h ++ [.got p' k' r]) p k = views h p k := by
  rw [views_append, Views.next, if_neg hne]

@[simp] lemma views_walked (h : History π κ ν τ) (p' : π) (lo : κ) (items : List (κ × ν)) (p : π)
    (k : κ) : views (h ++ [.walked p' lo items]) p k = views h p k := by
  rw [views_append, Views.next]

@[simp] lemma views_read (h : History π κ ν τ) (t : τ) (p : π) (k : κ) :
    views (h ++ [.read t]) p k = views h p k := by
  rw [views_append, Views.next]

lemma views_wrote_none (h : History π κ ν τ) {b : List (BatchItem π κ ν)} {p : π} {k : κ}
    (hb : batchLeaves b p k = none) : views (h ++ [.wrote b]) p k = views h p k := by
  rw [views_append, Views.next, hb]

lemma views_wrote_some (h : History π κ ν τ) {b : List (BatchItem π κ ν)} {p : π} {k : κ}
    {x : Option ν} (hb : batchLeaves b p k = some x) :
    views (h ++ [.wrote b]) p k = ⟨some x, []⟩ := by
  rw [views_append, Views.next, hb]

lemma mem_all_got {h : History π κ ν τ} {p : π} {k : κ} {r : Option ν} :
    r ∈ (views (h ++ [.got p k r]) p k).all := by
  rw [views_got_self]
  simp [Views.all]

/-- Reading more forgets nothing. -/
lemma mem_all_of_got {h : History π κ ν τ} {p p' : π} {k k' : κ} {r x : Option ν}
    (hx : x ∈ (views h p k).all) : x ∈ (views (h ++ [.got p' k' r]) p k).all := by
  by_cases heq : (p', k') = (p, k)
  · cases heq
    rw [views_got_self, Views.all, ← List.append_assoc]
    exact List.mem_append_left _ hx
  · rwa [views_got_of_ne h r heq]

end
