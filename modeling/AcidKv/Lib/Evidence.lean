import AcidKv.Lib.Threads

/-!
# What threads can rely on

Threads that share a keyspace know of each other what they read there.  `E s p k x` says that in the
keyspace `s` it is in order for the entry `k` of `p` to hold `x`, or to have held it at some time
before.  A batch of a thread is `Justified` by the history of the thread if it inserts entries that
are in order only, and leaves in order what was so, as long as all that the thread has seen is.

If all batches are justified, then under every schedule everything in the keyspace, and everything
that a thread has ever seen there, is in order at all times (`Pool.Backed.next`).  A thread can rely
on more than that.  Each answer it got was true of a keyspace in which all that it had seen before
was in order still (`Lived`), so it can rule out the histories in which an entry is missing that
others owe to it.
-/

section

variable {π κ ν τ : Type}

/-- The observation has shown `x` at the entry `k` of `p`. -/
inductive Obs.Sees : Obs π κ ν τ → π → κ → ν → Prop where
  | got (p : π) (k : κ) (x : ν) : Obs.Sees (.got p k (some x)) p k x
  | walked (p : π) (lo : κ) {items : List (κ × ν)} {k : κ} {x : ν} (hx : (k, x) ∈ items) :
      Obs.Sees (.walked p lo items) p k x

/-- The thread has seen `x` at the entry `k` of `p`. -/
def Saw (h : History π κ ν τ) (p : π) (k : κ) (x : ν) : Prop := ∃ o ∈ h, o.Sees p k x

variable {h h' : History π κ ν τ} {p : π} {k : κ} {x : ν}

lemma Saw.append (hs : Saw h p k x) (h' : History π κ ν τ) : Saw (h ++ h') p k x := by
  obtain ⟨o, ho, hox⟩ := hs
  exact ⟨o, List.mem_append_left h' ho, hox⟩

lemma saw_got (h : History π κ ν τ) (p : π) (k : κ) (x : ν) :
    Saw (h ++ [.got p k (some x)]) p k x :=
  ⟨_, List.mem_append_right h List.mem_cons_self, .got p k x⟩

lemma saw_walked (h : History π κ ν τ) (p : π) (lo : κ) {items : List (κ × ν)}
    (hx : (k, x) ∈ items) : Saw (h ++ [.walked p lo items]) p k x :=
  ⟨_, List.mem_append_right h List.mem_cons_self, .walked p lo hx⟩

/-- What is seen after a step was seen before, or is seen in it. -/
lemma saw_snoc {o : Obs π κ ν τ} (hs : Saw (h ++ [o]) p k x) : Saw h p k x ∨ o.Sees p k x := by
  obtain ⟨o', ho', hox⟩ := hs
  rcases List.mem_append.mp ho' with hold | hnew
  · exact Or.inl ⟨o', hold, hox⟩
  · rw [List.mem_singleton.mp hnew] at hox
    exact Or.inr hox

variable [Ord κ] [Std.TransOrd κ]

/-- The answer is the one that a read of `s` gets. -/
def Obs.TrueIn (s : Keyspace π κ ν) : Obs π κ ν τ → Prop
  | .got p k r => s.get p k = r
  | .walked p lo items => s.range p lo = items
  | .read _ => True
  | .wrote _ => True

/-- What a true answer shows is there. -/
lemma Obs.Sees.get_eq [Std.LawfulEqOrd κ] {s : Keyspace π κ ν} {o : Obs π κ ν τ}
    (hs : o.Sees p k x) (ho : o.TrueIn s) : s.get p k = some x := by
  cases hs with
  | got => exact ho
  | walked _ _ hx =>
      have hrange : s.range p _ = _ := ho
      rw [← hrange] at hx
      exact (Keyspace.mem_range.mp hx).1

/-- All entries of `s` are in order, and all that was seen in `h`. -/
structure Backs (E : Keyspace π κ ν → π → κ → ν → Prop) (s : Keyspace π κ ν)
    (h : History π κ ν τ) : Prop where
  entries : ∀ p k x, s.get p k = some x → E s p k x
  seen : ∀ p k x, Saw h p k x → E s p k x

/-- Each answer was true of a keyspace in which all that was seen before was in order. -/
def Lived (E : Keyspace π κ ν → π → κ → ν → Prop) (h : History π κ ν τ) : Prop :=
  ∀ h₁ o h₂, h = h₁ ++ o :: h₂ → ∃ s, Backs E s h₁ ∧ o.TrueIn s

variable {E : Keyspace π κ ν → π → κ → ν → Prop}

lemma lived_nil : Lived E ([] : History π κ ν τ) := by
  intro h₁ o h₂ heq
  cases h₁ with
  | nil => cases heq
  | cons o' h₁ => cases heq

lemma Lived.snoc {s : Keyspace π κ ν} {o : Obs π κ ν τ} (hl : Lived E h) (hb : Backs E s h)
    (ho : o.TrueIn s) : Lived E (h ++ [o]) := by
  intro h₁ o' h₂ heq
  rcases List.append_eq_append_iff.mp heq with ⟨mid, rfl, hmid⟩ | ⟨mid, rfl, hmid⟩
  · cases mid with
    | nil =>
        cases hmid
        rw [List.append_nil]
        exact ⟨s, hb, ho⟩
    | cons o'' mid => cases mid <;> cases hmid
  · cases mid with
    | nil =>
        cases hmid
        rw [List.append_nil] at hb
        exact ⟨s, hb, ho⟩
    | cons o'' mid =>
        cases hmid
        exact hl h₁ o' mid rfl

/-- What a history that was lived has just seen is backed by what it had seen before. -/
lemma Lived.last {o : Obs π κ ν τ} (hl : Lived E (h ++ [o])) : ∃ s, Backs E s h ∧ o.TrueIn s :=
  hl h o [] rfl

/-- All that was seen was in order at some time. -/
lemma Lived.saw [Std.LawfulEqOrd κ] (hl : Lived E h) (hs : Saw h p k x) : ∃ s, E s p k x := by
  obtain ⟨o, ho, hox⟩ := hs
  obtain ⟨h₁, h₂, rfl⟩ := List.append_of_mem ho
  obtain ⟨s, hb, htrue⟩ := hl h₁ o h₂ rfl
  exact ⟨s, hb.entries p k x (hox.get_eq htrue)⟩

variable [DecidableEq π]

/-- As long as all that was seen is in order, the batch leaves in order what is so, and inserts
nothing else. -/
def Justified (E : Keyspace π κ ν → π → κ → ν → Prop) (h : History π κ ν τ)
    (b : List (BatchItem π κ ν)) : Prop :=
  ∀ s, Backs E s h → (∀ p k x, E s p k x → E (s.apply b) p k x) ∧
    ∀ p k x, .insert p k x ∈ b → E (s.apply b) p k x

omit [DecidableEq π] in
/-- Having seen more asks for more. -/
lemma Backs.of_append {s : Keyspace π κ ν} (hb : Backs E s (h ++ h')) : Backs E s h :=
  ⟨hb.entries, fun p k x hs => hb.seen p k x (hs.append h')⟩

lemma Justified.append_history {b : List (BatchItem π κ ν)} (hj : Justified E h b)
    (h' : History π κ ν τ) : Justified E (h ++ h') b := fun s hb => hj s hb.of_append

lemma justified_nil (h : History π κ ν τ) : Justified E h ([] : List (BatchItem π κ ν)) := by
  intro s _
  refine ⟨fun p k x hx => hx, ?_⟩
  intro p k x hx
  cases hx

variable [Std.LawfulEqOrd κ] [DecidableEq κ]

/-- After a justified batch all is in order. -/
lemma Justified.backs {b : List (BatchItem π κ ν)} {s : Keyspace π κ ν} (hj : Justified E h b)
    (hb : Backs E s h) : Backs E (s.apply b) h := by
  obtain ⟨hkeep, hinsert⟩ := hj s hb
  refine ⟨fun p k x hx => ?_, fun p k x hs => hkeep p k x (hb.seen p k x hs)⟩
  rcases Keyspace.get_apply_origin s b p k with hsame | ⟨i, hi, hentry, hvalue⟩
  · exact hkeep p k x (hb.entries p k x (hsame ▸ hx))
  · rw [hx] at hvalue
    cases i with
    | insert p' k' x' =>
        cases hentry
        cases hvalue
        exact hinsert p k x hi
    | remove p' k' => cases hvalue

/-- Batches that are justified are so as one. -/
lemma Justified.append {b c : List (BatchItem π κ ν)} (hb : Justified E h b)
    (hc : Justified E h c) : Justified E h (b ++ c) := by
  intro s hs
  obtain ⟨hkeep, hinsert⟩ := hb s hs
  obtain ⟨hkeep', hinsert'⟩ := hc _ (hb.backs hs)
  rw [Keyspace.apply_append]
  refine ⟨fun p k x hx => hkeep' p k x (hkeep p k x hx), fun p k x hx => ?_⟩
  rcases List.mem_append.mp hx with hx | hx
  · exact hkeep' p k x (hinsert p k x hx)
  · exact hinsert' p k x hx

end

namespace Pool

variable {J π κ ν τ ε α : Type} [Ord κ] [Std.TransOrd κ] [DecidableEq π]

/-- Everything in the keyspace and everything that a thread has seen is in order. -/
structure Backed (E : Keyspace π κ ν → π → κ → ν → Prop) (P : Pool J π κ ν τ ε α) : Prop where
  entries : ∀ p k x, P.store.get p k = some x → E P.store p k x
  seen : ∀ th ∈ P.threads, ∀ p k x, Saw th.seen p k x → E P.store p k x
  lived : ∀ th ∈ P.threads, Lived E th.seen

variable {E : Keyspace π κ ν → π → κ → ν → Prop} {P : Pool J π κ ν τ ε α}

omit [DecidableEq π] in
lemma Backed.backs (h : P.Backed E) {th : Thread J π κ ν τ ε α} (hth : th ∈ P.threads) :
    Backs E P.store th.seen := ⟨h.entries, h.seen th hth⟩

/-- A step that reads leaves the keyspace alone and gets a true answer; any other commits a
batch. -/
lemma step_cases {x x' : Prog π κ ν τ ε α} {t : τ} {s s' : Keyspace π κ ν} {o : Obs π κ ν τ}
    (hstep : x.step t s = some (o, x', s')) :
    (s' = s ∧ o.TrueIn s) ∨ ∃ b, x = .commit b x' ∧ o = .wrote b ∧ s' = s.apply b := by
  cases x with
  | pure a => cases hstep
  | throw e => cases hstep
  | get p k next => cases hstep; exact Or.inl ⟨rfl, rfl⟩
  | range p lo next => cases hstep; exact Or.inl ⟨rfl, rfl⟩
  | now next => cases hstep; exact Or.inl ⟨rfl, trivial⟩
  | commit b next => cases hstep; exact Or.inr ⟨b, rfl, rfl, rfl⟩

variable [Std.LawfulEqOrd κ] [DecidableEq κ] {Q : J → Except ε α → History π κ ν τ → Prop}

/-- Whatever the scheduler chooses, justified batches keep everything in order. -/
theorem Backed.next {code : J → Prog π κ ν τ ε α} {c : Choice J τ} (h : P.Backed E)
    (hver : P.Verified (fun _ => Justified E) Q) : (P.next code c).Backed E := by
  have hturn := turn code P c
  generalize P.next code c = P' at hturn ⊢
  cases hturn with
  | started j =>
      refine ⟨h.entries, ?_, ?_⟩
      · intro th hth p k x hs
        rcases List.mem_append.mp hth with hold | hnew
        · exact h.seen th hold p k x hs
        · rw [List.mem_singleton.mp hnew] at hs
          obtain ⟨o, ho, -⟩ := hs
          cases ho
      · intro th hth
        rcases List.mem_append.mp hth with hold | hnew
        · exact h.lived th hold
        · rw [List.mem_singleton.mp hnew]
          exact lived_nil
  | idle => exact h
  | @stepped i t th o x' s' hget hstep =>
      have hmem : th ∈ P.threads := List.mem_of_getElem? hget
      rcases step_cases hstep with ⟨rfl, htrue⟩ | ⟨b, hprog, rfl, rfl⟩
      · refine ⟨h.entries, ?_, ?_⟩
        · intro th' hth' p k x hs
          rcases mem_set hth' with rfl | hold
          · rcases saw_snoc hs with hs | hs
            · exact h.seen th hmem p k x hs
            · exact h.entries p k x (hs.get_eq htrue)
          · exact h.seen th' hold p k x hs
        · intro th' hth'
          rcases mem_set hth' with rfl | hold
          · exact (h.lived th hmem).snoc (h.backs hmem) htrue
          · exact h.lived th' hold
      · have halways := hver th hmem
        rw [hprog] at halways
        obtain ⟨hkeep, -⟩ := halways.1 P.store (h.backs hmem)
        refine ⟨(halways.1.backs (h.backs hmem)).entries, ?_, ?_⟩
        · intro th' hth' p k x hs
          refine hkeep p k x ?_
          rcases mem_set hth' with rfl | hold
          · rcases saw_snoc hs with hs | hs
            · exact h.seen th hmem p k x hs
            · cases hs
          · exact h.seen th' hold p k x hs
        · intro th' hth'
          rcases mem_set hth' with rfl | hold
          · exact (h.lived th hmem).snoc (h.backs hmem) trivial
          · exact h.lived th' hold

/-- Under every schedule that starts verified programs only, everything stays in order, and every
thread stays verified. -/
theorem Backed.run {code : J → Prog π κ ν τ ε α} {cs : List (Choice J τ)} (h : P.Backed E)
    (hver : P.Verified (fun _ => Justified E) Q)
    (hcode : ∀ j, .start j ∈ cs → (code j).Always (Justified E) (Q j) []) :
    (cs.foldl (Pool.next code) P).Backed E ∧
      (cs.foldl (Pool.next code) P).Verified (fun _ => Justified E) Q := by
  induction cs generalizing P with
  | nil => exact ⟨h, hver⟩
  | cons c cs ih =>
      refine ih (h.next hver) (always_next hver fun j hj => hcode j ?_)
        fun j hj => hcode j (List.mem_cons_of_mem c hj)
      rw [hj]
      exact List.mem_cons_self

end Pool
