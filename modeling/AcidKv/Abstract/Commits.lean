import AcidKv.Abstract.Effects

/-!
# Commit records along a request

Facts about Put and Delete records that several invariants share: a commit lies after its start,
it does not stand next to a lock of its transaction, it stays as long as the locks of its key are
younger, and the primary key of a transaction is committed by a commit call only.
-/

namespace AcidKv

/-- Commits go strictly forward. -/
def CommitsAfter (c : Call) : Prop := ∀ s ct ks, c.commitArgs = some (s, ct, ks) → s < ct

/-- A commit lies strictly after its start. -/
def Forward (v : View) : Prop := ∀ k s ct, v.Committed k s ct → s < ct

/-- No key has a commit and a lock of the same transaction. -/
def Unmixed (v : View) : Prop := ∀ k s ct, v.Committed k s ct → ¬ v.LockedBy k s

section

variable {U : Set Bytes} {T : UInt64 → Prop} {c : Call} {v₀ v v' : View}

lemma Forward.move (hafter : CommitsAfter c) (h : Forward v) (hmove : Move U T c v₀ v v') :
    Forward v' := by
  intro k s ct hcom
  rcases hmove.committed_origin hcom with hcom | ⟨-, -, ⟨ks, hc, -⟩ | hfwd⟩
  · exact h k s ct hcom
  · exact hafter s ct ks hc
  · obtain ⟨l, lr, -, -, -, -, hp⟩ := hfwd
    exact h _ s ct hp

lemma Forward.moves (hafter : CommitsAfter c) (h : Forward v) (hmoves : Moves U T c v₀ v v') :
    Forward v' := by
  induction hmoves with
  | refl => exact h
  | tail _ hmove ih => exact ih.move hafter hmove

/-- It is for the prewrites to keep locks away from commits. -/
lemma Unmixed.move
    (hplace : ∀ k l, Placed U c v₀ v v' k l → ∀ ct, ¬ v.Committed k l.startTs ct)
    (h : Unmixed v) (hmove : Move U T c v₀ v v') : Unmixed v' := by
  rintro k s ct hcom ⟨l, hl, rfl⟩
  rcases hmove.committed_origin hcom with hold | ⟨-, hgone, -⟩
  · rcases hmove.lock_origin hl with ⟨l', hl', heq, -⟩ | hplaced
    · exact h k _ ct hold ⟨l', hl', by rw [heq]⟩
    · exact hplace k l hplaced ct hold
  · rw [hgone] at hl
    cases hl

/-- The step lemma: a move writes no record over a commit that is older than the lock on its key,
if there is one. -/
lemma Move.keeps_commit (hmove : Move U T c v₀ v v') (hgc : ∀ sp, c ≠ .gc sp)
    (hafter : CommitsAfter c) (hforward : Forward v) {k : Bytes} {ct : UInt64} {w : WriteRecord}
    (hrollback : ∀ ks, c = .rollback ct ks → k ∉ ks)
    (hfresh : ∀ l, v.lock k = some l → ct < l.startTs) (hw : v.write k ct = some w) :
    v'.write k ct = some w := by
  have hsome : (v.write k ct).isSome := by rw [hw]; rfl
  obtain ⟨w', hw'⟩ := Option.isSome_iff_exists.mp (hmove.write_isSome hgc hsome)
  rcases hmove.write_origin hw' with hold | hnew
  · rw [hw', ← hold, hw]
  · exfalso
    cases hnew with
    | commit hc _ hl hs _ _ _ =>
        have hlt := hfresh _ hl
        rw [hs] at hlt
        exact UInt64.lt_asymm hlt (hafter _ ct _ hc)
    | forward _ _ hl hs _ hp _ _ =>
        have hlt := hfresh _ hl
        rw [hs] at hlt
        exact UInt64.lt_asymm hlt (hforward _ _ ct hp)
    | back hl hs _ _ _ =>
        have hlt := hfresh _ hl
        rw [hs] at hlt
        exact UInt64.lt_irrefl ct hlt
    | mark hc hk _ _ => exact hrollback _ hc hk

/-- A request that is no prewrite brings no locks, and so keeps what is older than those it
finds. -/
lemma Moves.keeps_commit_unless_prewrite (hmoves : Moves U T c v₀ v₀ v)
    (hpre : c.prewriteArgs = none) (hgc : ∀ sp, c ≠ .gc sp) (hafter : CommitsAfter c)
    (hforward : Forward v₀) {k : Bytes} {ct : UInt64} {w : WriteRecord}
    (hrollback : ∀ ks, c = .rollback ct ks → k ∉ ks)
    (hfresh : ∀ l, v₀.lock k = some l → ct < l.startTs) (hw : v₀.write k ct = some w) :
    v.write k ct = some w := by
  induction hmoves with
  | refl => exact hw
  | tail hprev hmove ih =>
      refine hmove.keeps_commit hgc hafter (hforward.moves hafter hprev) hrollback ?_ ih
      intro l hl
      obtain ⟨l', hl', heq⟩ := Moves.lock_before hprev hl (by simp [hpre])
      rw [heq]
      exact hfresh l' hl'

/-- A rollback adds no commits. -/
lemma Moves.committed_of_rollback {s : UInt64} {ks : List Bytes} (hc : c = .rollback s ks)
    (hmoves : Moves U T c v₀ v₀ v) {k : Bytes} {t ct : UInt64} (hcom : v.Committed k t ct) :
    v₀.Committed k t ct := by
  induction hmoves with
  | refl => exact hcom
  | tail _ hmove ih =>
      subst hc
      rcases hmove.committed_origin hcom with hcom | ⟨-, -, ⟨ks', hc', -⟩ | ⟨l, lr, hr, -⟩⟩
      · exact ih hcom
      · cases hc'
      · exact hr.elim

/-- The primary key of a transaction is not rolled forward, as that takes its own commit.  So what
others find committed there was committed when they began. -/
lemma Moves.primary_committed_before (hmoves : Moves U T c v₀ v₀ v) (hcommit : c.commitArgs = none)
    {p : Bytes} {s ct : UInt64} (hown : ∀ ms q ttl, c.prewriteArgs ≠ some (s, ms, q, ttl))
    (hprimary : ∀ k l, v₀.lock k = some l → l.startTs = s → l.primaryKey = p)
    (hcom : v.Committed p s ct) : v₀.Committed p s ct := by
  induction hmoves with
  | refl => exact hcom
  | tail hprev hmove ih =>
      rcases hmove.committed_origin hcom with hcom | ⟨-, -, ⟨ks, hargs, -⟩ | hfwd⟩
      · exact ih hcom
      · rw [hcommit] at hargs
        cases hargs
      · obtain ⟨l, lr, -, -, hl, rfl, hp⟩ := hfwd
        obtain ⟨l', hl', heq⟩ := Moves.lock_before hprev hl hown
        have hpk : l.primaryKey = p := by
          rw [heq]
          exact hprimary p l' hl' (by rw [heq])
        exact ih (hpk ▸ hp)

end

end AcidKv
