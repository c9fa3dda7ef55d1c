import AcidKv.Lib.Keyspace

/-!
# Programs of atomic storage steps

A program looks up keys, walks ranges, reads a clock and commits batches; each of these is one
atomic step on a keyspace, and between two steps anything else may happen.  Writing a request
handler as such a program, instead of as one function on the store, keeps the places where it
can be cut: the same text can be run to its end (`run`), stopped by a crash after any of its
batches (`stopAfter`), or interleaved with others (`Lib.Threads`).

`Sat T I Q p s` is the verification condition of a program from a store: every clock reading it
may get satisfies `T`, the store satisfies `I` after each batch, and the outcome satisfies `Q`.
It computes on the program's constructors, composes over `>>=` (`sat_bind`) and is what both
semantics guarantee (`Sat.run`, `Sat.stopAfter`).
-/

/-- A program over partitions `π` of keys `κ` and values `ν`, with clock readings in `τ`, that
ends with a value in `α` or an error in `ε`. -/
inductive Prog (π κ ν τ ε α : Type) : Type where
  | pure (a : α)
  | throw (e : ε)
  | get (p : π) (k : κ) (next : Option ν → Prog π κ ν τ ε α)
  | range (p : π) (lo : κ) (next : List (κ × ν) → Prog π κ ν τ ε α)
  | now (next : τ → Prog π κ ν τ ε α)
  | commit (b : List (BatchItem π κ ν)) (next : Prog π κ ν τ ε α)

namespace Prog

variable {π κ ν τ ε ε' α β : Type}

/-- Sequencing: an error ends the program. -/
def bind (x : Prog π κ ν τ ε α) (f : α → Prog π κ ν τ ε β) : Prog π κ ν τ ε β :=
  match x with
  | .pure a => f a
  | .throw e => .throw e
  | .get p k next => .get p k fun r => (next r).bind f
  | .range p lo next => .range p lo fun r => (next r).bind f
  | .now next => .now fun t => (next t).bind f
  | .commit b next => .commit b (next.bind f)

instance : Monad (Prog π κ ν τ ε) where
  pure := .pure
  bind := .bind

/-- Run a program and hand its error over as a value. -/
def attempt : Prog π κ ν τ ε α → Prog π κ ν τ ε' (Except ε α)
  | .pure a => .pure (.ok a)
  | .throw e => .pure (.error e)
  | .get p k next => .get p k fun r => (next r).attempt
  | .range p lo next => .range p lo fun r => (next r).attempt
  | .now next => .now fun t => (next t).attempt
  | .commit b next => .commit b next.attempt

/-- Run a program and convert its error. -/
def mapError (f : ε → ε') : Prog π κ ν τ ε α → Prog π κ ν τ ε' α
  | .pure a => .pure a
  | .throw e => .throw (f e)
  | .get p k next => .get p k fun r => (next r).mapError f
  | .range p lo next => .range p lo fun r => (next r).mapError f
  | .now next => .now fun t => (next t).mapError f
  | .commit b next => .commit b (next.mapError f)

/-- A pure computation that may fail. -/
def ofExcept : Except ε α → Prog π κ ν τ ε α
  | .ok a => .pure a
  | .error e => .throw e

/-- Look up one key. -/
def lookup (p : π) (k : κ) : Prog π κ ν τ ε (Option ν) := .get p k .pure

/-- Walk a partition from a lower bound on. -/
def walk (p : π) (lo : κ) : Prog π κ ν τ ε (List (κ × ν)) := .range p lo .pure

/-- Read the clock. -/
def clock : Prog π κ ν τ ε τ := .now .pure

/-- Commit a batch. -/
def write (b : List (BatchItem π κ ν)) : Prog π κ ν τ ε Unit := .commit b (.pure ())

variable [Ord κ] [Std.TransOrd κ] [DecidableEq π]

/-- Run to the end.  `clock i` is the `i`-th reading of the clock. -/
def run (clock : ℕ → τ) : Prog π κ ν τ ε α → Keyspace π κ ν → Except ε α × Keyspace π κ ν
  | .pure a, s => (.ok a, s)
  | .throw e, s => (.error e, s)
  | .get p k next, s => (next (s.get p k)).run clock s
  | .range p lo next, s => (next (s.range p lo)).run clock s
  | .now next, s => (next (clock 0)).run (fun i => clock (i + 1)) s
  | .commit b next, s => next.run clock (s.apply b)

/-- Run until `n` batches are committed, and stop there: the store a crash leaves behind. -/
def stopAfter (n : ℕ) (clock : ℕ → τ) : Prog π κ ν τ ε α → Keyspace π κ ν → Keyspace π κ ν
  | .pure _, s => s
  | .throw _, s => s
  | .get p k next, s => (next (s.get p k)).stopAfter n clock s
  | .range p lo next, s => (next (s.range p lo)).stopAfter n clock s
  | .now next, s => (next (clock 0)).stopAfter n (fun i => clock (i + 1)) s
  | .commit b next, s =>
      match n with
      | 0 => s
      | n + 1 => next.stopAfter n clock (s.apply b)

section Run

variable (c : ℕ → τ) (s : Keyspace π κ ν)

@[simp] lemma run_pure (a : α) : (Pure.pure a : Prog π κ ν τ ε α).run c s = (.ok a, s) := rfl

@[simp] lemma run_throw (e : ε) : (Prog.throw e : Prog π κ ν τ ε α).run c s = (.error e, s) := rfl

@[simp] lemma run_write (b : List (BatchItem π κ ν)) :
    (write b : Prog π κ ν τ ε Unit).run c s = (.ok (), s.apply b) := rfl

@[simp] lemma run_ofExcept (x : Except ε α) :
    (ofExcept x : Prog π κ ν τ ε α).run c s = (x, s) := by
  cases x <;> rfl

@[simp] lemma run_lookup_bind (p : π) (k : κ) (f : Option ν → Prog π κ ν τ ε α) :
    (lookup p k >>= f).run c s = (f (s.get p k)).run c s := rfl

@[simp] lemma run_walk_bind (p : π) (lo : κ) (f : List (κ × ν) → Prog π κ ν τ ε α) :
    (walk p lo >>= f).run c s = (f (s.range p lo)).run c s := rfl

@[simp] lemma run_clock_bind (f : τ → Prog π κ ν τ ε α) :
    (clock >>= f).run c s = (f (c 0)).run (fun i => c (i + 1)) s := rfl

@[simp] lemma run_write_bind (b : List (BatchItem π κ ν)) (f : Unit → Prog π κ ν τ ε α) :
    (write b >>= f).run c s = (f ()).run c (s.apply b) := rfl

end Run

/-! ## Sequencing in runs -/

/-- The rule of sequencing for runs: the rest gets the readings that are left of the clock. -/
theorem run_bind {clock : ℕ → τ} {x : Prog π κ ν τ ε α} {f : α → Prog π κ ν τ ε β}
    {s s' : Keyspace π κ ν} {a : α} (h : x.run clock s = (.ok a, s')) :
    ∃ n, (x >>= f).run clock s = (f a).run (fun i => clock (i + n)) s' := by
  change ∃ n, (x.bind f).run clock s = _
  induction x generalizing s clock with
  | pure a => cases h; exact ⟨0, rfl⟩
  | throw e => cases h
  | get p k next ih => exact ih _ h
  | range p lo next ih => exact ih _ h
  | now next ih =>
      obtain ⟨n, hn⟩ := ih _ h
      exact ⟨n + 1, hn⟩
  | commit b next ih => exact ih h

/-- The rule for runs in which every reading of the clock is `t`. -/
theorem run_bind_ok {t : τ} {x : Prog π κ ν τ ε α} {f : α → Prog π κ ν τ ε β}
    {s s' : Keyspace π κ ν} {a : α} (h : x.run (fun _ => t) s = (.ok a, s')) :
    (x >>= f).run (fun _ => t) s = (f a).run (fun _ => t) s' := by
  obtain ⟨n, hn⟩ := @run_bind _ _ _ _ _ _ _ _ _ _ _ _ f _ _ _ h
  exact hn

theorem run_bind_error {clock : ℕ → τ} {x : Prog π κ ν τ ε α} {f : α → Prog π κ ν τ ε β}
    {s s' : Keyspace π κ ν} {e : ε} (h : x.run clock s = (.error e, s')) :
    (x >>= f).run clock s = (.error e, s') := by
  change (x.bind f).run clock s = _
  induction x generalizing s clock with
  | pure a => cases h
  | throw e => cases h; rfl
  | get p k next ih => exact ih _ h
  | range p lo next ih => exact ih _ h
  | now next ih => exact ih _ h
  | commit b next ih => exact ih h

/-- Turning a result into another one costs no step. -/
theorem run_map (clock : ℕ → τ) (x : Prog π κ ν τ ε α) (f : α → β) (s : Keyspace π κ ν) :
    (x >>= fun a => Pure.pure (f a)).run clock s =
      ((x.run clock s).1.map f, (x.run clock s).2) := by
  change (x.bind fun a => .pure (f a)).run clock s = _
  induction x generalizing s clock with
  | pure a => rfl
  | throw e => rfl
  | get p k next ih => exact ih _ clock s
  | range p lo next ih => exact ih _ clock s
  | now next ih => exact ih _ _ s
  | commit b next ih => exact ih clock _

theorem run_mapError (clock : ℕ → τ) (f : ε → ε') (x : Prog π κ ν τ ε α) (s : Keyspace π κ ν) :
    (x.mapError f).run clock s = ((x.run clock s).1.mapError f, (x.run clock s).2) := by
  induction x generalizing s clock with
  | pure a => rfl
  | throw e => rfl
  | get p k next ih => exact ih _ clock s
  | range p lo next ih => exact ih _ clock s
  | now next ih => exact ih _ _ s
  | commit b next ih => exact ih clock _

theorem run_attempt (clock : ℕ → τ) (x : Prog π κ ν τ ε α) (s : Keyspace π κ ν) :
    (x.attempt : Prog π κ ν τ ε' (Except ε α)).run clock s
      = (.ok (x.run clock s).1, (x.run clock s).2) := by
  induction x generalizing s clock with
  | pure a => rfl
  | throw e => rfl
  | get p k next ih => exact ih _ _ s
  | range p lo next ih => exact ih _ _ s
  | now next ih => exact ih _ _ s
  | commit b next ih => exact ih _ _

/-! ## Verification conditions -/

/-- The verification condition of a program from a store. -/
def Sat (T : τ → Prop) (I : Keyspace π κ ν → Prop) (Q : Except ε α → Keyspace π κ ν → Prop) :
    Prog π κ ν τ ε α → Keyspace π κ ν → Prop
  | .pure a, s => Q (.ok a) s
  | .throw e, s => Q (.error e) s
  | .get p k next, s => (next (s.get p k)).Sat T I Q s
  | .range p lo next, s => (next (s.range p lo)).Sat T I Q s
  | .now next, s => ∀ t, T t → (next t).Sat T I Q s
  | .commit b next, s => I (s.apply b) ∧ next.Sat T I Q (s.apply b)

variable {T : τ → Prop} {I : Keyspace π κ ν → Prop} {s : Keyspace π κ ν}

section Rules

variable {Q : Except ε α → Keyspace π κ ν → Prop}

@[simp] lemma sat_pure {a : α} : (Pure.pure a : Prog π κ ν τ ε α).Sat T I Q s ↔ Q (.ok a) s :=
  Iff.rfl

@[simp] lemma sat_throw {e : ε} :
    (Prog.throw e : Prog π κ ν τ ε α).Sat T I Q s ↔ Q (.error e) s := Iff.rfl

@[simp] lemma sat_ofExcept {x : Except ε α} : (ofExcept x).Sat T I Q s ↔ Q x s := by
  cases x <;> rfl

@[simp] lemma sat_lookup {p : π} {k : κ} {Q : Except ε (Option ν) → Keyspace π κ ν → Prop} :
    (lookup p k : Prog π κ ν τ ε _).Sat T I Q s ↔ Q (.ok (s.get p k)) s := Iff.rfl

@[simp] lemma sat_walk {p : π} {lo : κ} {Q : Except ε (List (κ × ν)) → Keyspace π κ ν → Prop} :
    (walk p lo : Prog π κ ν τ ε _).Sat T I Q s ↔ Q (.ok (s.range p lo)) s := Iff.rfl

@[simp] lemma sat_clock {Q : Except ε τ → Keyspace π κ ν → Prop} :
    (clock : Prog π κ ν τ ε τ).Sat T I Q s ↔ ∀ t, T t → Q (.ok t) s := Iff.rfl

@[simp] lemma sat_write {b : List (BatchItem π κ ν)} {Q : Except ε Unit → Keyspace π κ ν → Prop} :
    (write b : Prog π κ ν τ ε Unit).Sat T I Q s ↔ I (s.apply b) ∧ Q (.ok ()) (s.apply b) :=
  Iff.rfl

/-- What the continuation of `x` has to satisfy for the sequence to satisfy `Q`. -/
def Then (T : τ → Prop) (I : Keyspace π κ ν → Prop) (f : α → Prog π κ ν τ ε β)
    (Q : Except ε β → Keyspace π κ ν → Prop) : Except ε α → Keyspace π κ ν → Prop
  | .ok a, s => (f a).Sat T I Q s
  | .error e, s => Q (.error e) s

@[simp] lemma then_ok {f : α → Prog π κ ν τ ε β} {Q : Except ε β → Keyspace π κ ν → Prop} {a : α} :
    Then T I f Q (.ok a) s ↔ (f a).Sat T I Q s := Iff.rfl

@[simp] lemma then_error {f : α → Prog π κ ν τ ε β} {Q : Except ε β → Keyspace π κ ν → Prop}
    {e : ε} : Then T I f Q (.error e) s ↔ Q (.error e) s := Iff.rfl

/-- The rule of sequencing. -/
@[simp] theorem sat_bind (x : Prog π κ ν τ ε α) (f : α → Prog π κ ν τ ε β)
    (Q : Except ε β → Keyspace π κ ν → Prop) :
    (x >>= f).Sat T I Q s ↔ x.Sat T I (Then T I f Q) s := by
  change (x.bind f).Sat T I Q s ↔ _
  induction x generalizing s with
  | pure a => rfl
  | throw e => rfl
  | get p k next ih => exact ih _
  | range p lo next ih => exact ih _
  | now next ih => exact forall_congr' fun t => imp_congr_right fun _ => ih t
  | commit b next ih => exact and_congr_right fun _ => ih

@[simp] theorem sat_attempt (x : Prog π κ ν τ ε α)
    (Q : Except ε' (Except ε α) → Keyspace π κ ν → Prop) :
    x.attempt.Sat T I Q s ↔ x.Sat T I (fun r s' => Q (.ok r) s') s := by
  induction x generalizing s with
  | pure a => rfl
  | throw e => rfl
  | get p k next ih => exact ih _
  | range p lo next ih => exact ih _
  | now next ih => exact forall_congr' fun t => imp_congr_right fun _ => ih t
  | commit b next ih => exact and_congr_right fun _ => ih

@[simp] theorem sat_mapError (f : ε → ε') (x : Prog π κ ν τ ε α)
    (Q : Except ε' α → Keyspace π κ ν → Prop) :
    (x.mapError f).Sat T I Q s ↔ x.Sat T I (fun r s' => Q (r.mapError f) s') s := by
  induction x generalizing s with
  | pure a => rfl
  | throw e => rfl
  | get p k next ih => exact ih _
  | range p lo next ih => exact ih _
  | now next ih => exact forall_congr' fun t => imp_congr_right fun _ => ih t
  | commit b next ih => exact and_congr_right fun _ => ih

/-- The rule of consequence. -/
theorem Sat.imp {x : Prog π κ ν τ ε α} {I' : Keyspace π κ ν → Prop}
    {Q' : Except ε α → Keyspace π κ ν → Prop} (h : x.Sat T I Q s) (hI : ∀ s', I s' → I' s')
    (hQ : ∀ r s', Q r s' → Q' r s') : x.Sat T I' Q' s := by
  induction x generalizing s with
  | pure a => exact hQ _ _ h
  | throw e => exact hQ _ _ h
  | get p k next ih => exact ih _ h
  | range p lo next ih => exact ih _ h
  | now next ih => exact fun t ht => ih t (h t ht)
  | commit b next ih => exact ⟨hI _ h.1, ih h.2⟩

/-- The rule of conjunction. -/
theorem Sat.and {x : Prog π κ ν τ ε α} {Q' : Except ε α → Keyspace π κ ν → Prop}
    (h : x.Sat T I Q s) (h' : x.Sat T I Q' s) : x.Sat T I (fun r s' => Q r s' ∧ Q' r s') s := by
  induction x generalizing s with
  | pure a => exact ⟨h, h'⟩
  | throw e => exact ⟨h, h'⟩
  | get p k next ih => exact ih _ h h'
  | range p lo next ih => exact ih _ h h'
  | now next ih => exact fun t ht => ih t (h t ht) (h' t ht)
  | commit b next ih => exact ⟨h.1, ih h.2 h'.2⟩

theorem Sat.mono {x : Prog π κ ν τ ε α} {Q' : Except ε α → Keyspace π κ ν → Prop}
    (h : x.Sat T I Q s) (hQ : ∀ r s', Q r s' → Q' r s') : x.Sat T I Q' s :=
  h.imp (fun _ hI => hI) hQ

end Rules

/-! ## What the two semantics guarantee -/

/-- A run to the end keeps the batch invariant and meets the postcondition. -/
theorem Sat.run {x : Prog π κ ν τ ε α} {Q : Except ε α → Keyspace π κ ν → Prop}
    {clock : ℕ → τ} (h : x.Sat T I Q s) (hs : I s) (hT : ∀ i, T (clock i)) :
    I (x.run clock s).2 ∧ Q (x.run clock s).1 (x.run clock s).2 := by
  induction x generalizing s clock with
  | pure a => exact ⟨hs, h⟩
  | throw e => exact ⟨hs, h⟩
  | get p k next ih => exact ih _ h hs hT
  | range p lo next ih => exact ih _ h hs hT
  | now next ih => exact ih _ (h _ (hT 0)) hs fun i => hT (i + 1)
  | commit b next ih => exact ih h.2 h.1 hT

/-- The postcondition of a run whose outcome is known. -/
theorem Sat.post {x : Prog π κ ν τ ε α} {Q : Except ε α → Keyspace π κ ν → Prop} {clock : ℕ → τ}
    {out : Except ε α} {s' : Keyspace π κ ν} (h : x.Sat (fun _ => True) I Q s)
    (hrun : x.run clock s = (out, s')) : Q out s' := by
  have hweak : x.Sat (fun _ => True) (fun _ => True) Q s :=
    h.imp (fun _ _ => trivial) fun _ _ hQ => hQ
  have hpost : Q (x.run clock s).1 (x.run clock s).2 := (hweak.run trivial fun _ => trivial).2
  rw [hrun] at hpost
  exact hpost

/-- A run that stops after any of its batches leaves a store in the batch invariant. -/
theorem Sat.stopAfter {x : Prog π κ ν τ ε α} {Q : Except ε α → Keyspace π κ ν → Prop}
    {clock : ℕ → τ} (h : x.Sat T I Q s) (hs : I s) (hT : ∀ i, T (clock i)) (n : ℕ) :
    I (x.stopAfter n clock s) := by
  induction x generalizing s clock n with
  | pure a => exact hs
  | throw e => exact hs
  | get p k next ih => exact ih _ h hs hT n
  | range p lo next ih => exact ih _ h hs hT n
  | now next ih => exact ih _ (h _ (hT 0)) hs (fun i => hT (i + 1)) n
  | commit b next ih =>
      cases n with
      | zero => exact hs
      | succ n => exact ih h.2 h.1 hT n

end Prog
