import AcidKv.Abstract.Commits
import AcidKv.Node.Timeline
import AcidKv.Properties.Finality

/-!
# Committed history

Two properties of the Put and Delete records of a key rest on one invariant: a lock stands above
every one of them (`Fresh`).  When the lock becomes a record, the interval from its start to its
commit begins after all earlier commits, and the record lands on no earlier one.

A prewrite can break the invariant in one way.  It checks for conflicts first and resolves a lock
in its way afterwards, and the resolution may roll that lock forward to a commit timestamp above
the prewrite's start; there is no second check.  `ForwardsInTime` says that this does not happen.
-/

namespace AcidKv

/-- Of the locks in the way of a prewrite of `s`, on keys without a commit at or above `s`, none
belongs to a transaction whose primary is committed at or above `s`. -/
def ForwardsInTime (c : Call) (v : View) : Prop :=
  ∀ s ms p ttl, c.prewriteArgs = some (s, ms, p, ttl) → ∀ m ∈ ms,
    (∀ t ct, v.Committed m.key t ct → ct < s) →
    ∀ l, v.lock m.key = some l → l.startTs ≠ s →
    ∀ ct, v.Committed l.primaryKey l.startTs ct → ct < s

/-- The conflict checks of a prewrite get to the commits they are about. -/
def Sighted (U : Set Bytes) (T : UInt64 → Prop) (c : Call) (v₀ : View) : Prop :=
  ∀ v, Moves U T c v₀ v₀ v → ∀ s ms p ttl, c.prewriteArgs = some (s, ms, p, ttl) → ∀ m ∈ ms,
    ∀ t ct, v₀.Committed m.key t ct → s ≤ ct → Reached U v m.key ct

/-- A lock stands above all commits of its key. -/
def Fresh (v : View) : Prop :=
  ∀ k l t ct, v.lock k = some l → v.Committed k t ct → ct < l.startTs

section

variable {U : Set Bytes} {T : UInt64 → Prop} {c : Call} {v₀ v v' : View}

/-- A key that has passed the conflict check of `s` had no commit at or above `s`. -/
lemma Sighted.lt_of_check {s ttl : UInt64} {ms : List Mutation} {p : Bytes} {m : Mutation}
    (h : Sighted U T c v₀) (hc : c.prewriteArgs = some (s, ms, p, ttl)) (hm : m ∈ ms)
    (hmoves : Moves U T c v₀ v₀ v)
    (hcheck : ∀ ts w, v₀.write m.key ts = some w → Reached U v m.key ts → ts < s)
    {t ct : UInt64} (hcom : v₀.Committed m.key t ct) : ct < s := by
  by_contra hlt
  have hreach := h v hmoves s ms p ttl hc m hm t ct hcom (UInt64.not_lt.mp hlt)
  obtain ⟨op, -, hw⟩ := hcom
  exact hlt (hcheck ct _ hw hreach)

/-- Commits that a prewrite of `s` adds by rolling locks forward lie below `s`. -/
lemma committed_before_or_lt {s ttl : UInt64} {ms : List Mutation} {p : Bytes}
    (hsight : Sighted U T c v₀) (hforward : ForwardsInTime c v₀)
    (hc : c.prewriteArgs = some (s, ms, p, ttl)) (hmoves : Moves U T c v₀ v₀ v)
    {k : Bytes} {t ct : UInt64} (hcom : v.Committed k t ct) :
    v₀.Committed k t ct ∨ ct < s := by
  induction hmoves generalizing k with
  | refl => exact Or.inl hcom
  | tail hprev hmove ih =>
      rcases hmove.committed_origin hcom with hcom | ⟨-, -, ⟨ks, hc', -⟩ | hfwd⟩
      · exact ih hcom
      · rw [(Call.prewrite_only hc).1] at hc'
        cases hc'
      · obtain ⟨l, lr, hr, hpass, hl, rfl, hp⟩ := hfwd
        rcases ih hp with hp | hlt
        · right
          have hne := hr.ne_start hc
          obtain ⟨m, hm, rfl⟩ : ∃ m ∈ ms, m.key = k := by
            cases c with
            | prewrite _ _ _ _ => cases hc; exact hr.1
            | batchPrewrite _ _ _ _ => cases hc; exact hr.1
            | _ => cases hc
          obtain ⟨l', hl', heq⟩ := Moves.lock_before hprev hl fun ms' p' ttl' hc' => by
            rw [hc] at hc'
            cases hc'
            exact hne rfl
          have hs : l.startTs = l'.startTs := by rw [heq]
          have hp' : l.primaryKey = l'.primaryKey := by rw [heq]
          refine hforward s ms p ttl hc m hm ?_ l' hl' (hs ▸ hne) ct (hp' ▸ hs ▸ hp)
          intro t' ct' hcom'
          exact hsight.lt_of_check hc hm hprev (hpass s ms p ttl hc) hcom'
        · exact Or.inr hlt

lemma Fresh.move (hsight : Sighted U T c v₀) (hforward : ForwardsInTime c v₀)
    (hprev : Moves U T c v₀ v₀ v) (h : Fresh v) (hmove : Move U T c v₀ v v') : Fresh v' := by
  intro k l t ct hl hcom
  rcases hmove.committed_origin hcom with hcom | ⟨-, hgone, -⟩
  · rcases hmove.lock_origin hl with ⟨l', hl', heq, -⟩ | hplaced
    · have hlt := h k l' t ct hl' hcom
      rw [heq]
      exact hlt
    · obtain ⟨ms, p, ttl, m, hc, hm, rfl, -⟩ := hplaced.args
      rcases committed_before_or_lt hsight hforward hc hprev hcom with hcom | hlt
      · exact hsight.lt_of_check hc hm hprev hplaced.check hcom
      · exact hlt
  · rw [hgone] at hl
    cases hl

/-! ## First committer wins -/

/-- Of two commits of a key, one is over before the other transaction starts. -/
def DisjointIntervals (v : View) : Prop :=
  ∀ k s₁ c₁ s₂ c₂, v.Committed k s₁ c₁ → v.Committed k s₂ c₂ → s₁ ≠ s₂ → c₁ < s₂ ∨ c₂ < s₁

lemma DisjointIntervals.move (hfresh : Fresh v) (h : DisjointIntervals v) (hmove : Move U T c v₀ v v') :
    DisjointIntervals v' := by
  intro k s₁ c₁ s₂ c₂ hcom₁ hcom₂ hne
  rcases hmove.committed_origin hcom₁ with hold₁ | ⟨⟨l₁, hl₁, rfl⟩, -⟩
  · rcases hmove.committed_origin hcom₂ with hold₂ | ⟨⟨l₂, hl₂, rfl⟩, -⟩
    · exact h k s₁ c₁ s₂ c₂ hold₁ hold₂ hne
    · exact Or.inl (hfresh k l₂ s₁ c₁ hl₂ hold₁)
  · rcases hmove.committed_origin hcom₂ with hold₂ | ⟨⟨l₂, hl₂, rfl⟩, -⟩
    · exact Or.inr (hfresh k l₁ s₂ c₂ hl₁ hold₂)
    · rw [hl₁, Option.some.injEq] at hl₂
      exact absurd (congrArg Lock.startTs hl₂) hne

theorem disjoint_steps {es : List Event} (hkeys : PrefixFree (RunKeys es))
    (hforward : Guarded Config.step (fun cfg e => ForwardsInTime e.call (view cfg.store))
      Config.init es) :
    WF (RunKeys es) (Config.init.steps es).store ∧ Fresh (view (Config.init.steps es).store) ∧
      DisjointIntervals (view (Config.init.steps es).store) := by
  refine @run_invariant (RunKeys es) _ (fun _ v => Fresh v ∧ DisjointIntervals v)
    (fun _ _ hok => hok.1) (fun _ _ _ hinv => hinv) ?_ _ _
    ((guarded_runKeys Config.init es).and hforward) ⟨wf_empty _, ?_, ?_⟩
  · intro cfg e v v' hok _ _ hprev hinv hmove
    have hsight : Sighted (RunKeys es) e.Reading e.call (view cfg.store) :=
      fun _ _ _ _ _ _ _ _ _ _ _ _ _ => Or.inl hkeys
    exact ⟨hinv.1.move hsight hok.2 hprev hmove, hinv.2.move hinv.1 hmove⟩
  · intro k l t ct hl
    simp [Config.init] at hl
  · rintro k s₁ c₁ s₂ c₂ ⟨op, -, hw⟩
    simp [Config.init] at hw

/-- Among prefix-free keys, and where every lock that a prewrite rolls forward goes to a commit
before that prewrite's start, no two commits of a key overlap. -/
theorem commit_intervals_disjoint (es : List Event) (hkeys : PrefixFree (RunKeys es))
    (hforward : Guarded Config.step (fun cfg e => ForwardsInTime e.call (view cfg.store))
      Config.init es) (k : Bytes) (s₁ c₁ s₂ c₂ : UInt64)
    (h₁ : (view (Config.init.steps es).store).Committed k s₁ c₁)
    (h₂ : (view (Config.init.steps es).store).Committed k s₂ c₂) (hne : s₁ ≠ s₂) :
    c₁ < s₂ ∨ c₂ < s₁ :=
  (disjoint_steps hkeys hforward).2.2 k s₁ c₁ s₂ c₂ h₁ h₂ hne

/-- Two transactions on one key, one after the other. -/
def serialRun : List Event :=
  [{ call := .prewrite 65536 [.put [1] [10]] [1] 3000 }, { call := .commit 65536 65537 [[1]] },
    { call := .batchPrewrite 65540 [.delete [1]] [1] 3000 },
    { call := .batchCommit 65540 65541 [[1]] }]

theorem commit_intervals_disjoint_serial :
    (view (Config.init.steps serialRun).store).Committed [1] 65536 65537 ∧
      (view (Config.init.steps serialRun).store).Committed [1] 65540 65541 ∧
      ((65537 : UInt64) < 65540 ∨ (65541 : UInt64) < 65536) := by
  have h₁ : (view (Config.init.steps serialRun).store).Committed [1] 65536 65537 :=
    ⟨.put, by decide, by rfl⟩
  have h₂ : (view (Config.init.steps serialRun).store).Committed [1] 65540 65541 :=
    ⟨.delete, by decide, by rfl⟩
  refine ⟨h₁, h₂, commit_intervals_disjoint serialRun (prefixFree_runKeys (by decide))
    ⟨?_, ?_, ?_, ?_, trivial⟩ [1] 65536 65537 65540 65541 h₁ h₂ (by decide)⟩
  · intro s ms p ttl hargs m _ _ l hl
    simp [Config.init] at hl
  · intro s ms p ttl hargs
    cases hargs
  · intro s ms p ttl hargs m hm _ l hl
    cases hargs
    rw [List.mem_singleton.mp hm] at hl
    cases hl
  · intro s ms p ttl hargs
    cases hargs

/-- Transaction 65536 stops after committing its primary `[1]`, and its lock on `[2]` is rolled
forward by the prewrite of 65537. -/
def overlappingRun : List Action :=
  [.draw 65536 .start, .draw 65537 .start,
    .serve { call := .prewrite 65536 [.put [1] [10], .put [2] [20]] [1] 3000 },
    .draw 65538 (.commit 65536),
    .serve { call := .commit 65536 65538 [[1], [2]], stop := some 1 },
    .serve { call := .prewrite 65537 [.put [2] [21]] [2] 3000 },
    .draw 65539 (.commit 65537),
    .serve { call := .commit 65537 65539 [[2]] }]

/-- Disciplined clients on prefix-free keys, and two commits of `[2]` that overlap. -/
theorem commit_intervals_overlap :
    Guarded Timeline.step Timeline.Disciplined Timeline.init overlappingRun ∧
      PrefixFree (RunKeys (served overlappingRun)) ∧
      ∃ k s₁ c₁ s₂ c₂,
        (view (Timeline.init.steps overlappingRun).config.store).Committed k s₁ c₁ ∧
        (view (Timeline.init.steps overlappingRun).config.store).Committed k s₂ c₂ ∧
        s₁ ≠ s₂ ∧ ¬ (c₁ < s₂ ∨ c₂ < s₁) := by
  refine ⟨⟨?_, ?_, ?_, ?_, ?_, ?_, ?_, ?_, trivial⟩, prefixFree_runKeys (by decide),
    [2], 65536, 65538, 65537, 65539, ⟨.put, by decide, by rfl⟩, ⟨.put, by decide, by rfl⟩,
    by decide, by decide⟩
  · exact ⟨by decide, trivial⟩
  · exact ⟨by decide, trivial⟩
  · exact ⟨by decide, by simp [Timeline.step, Timeline.init]⟩
  · refine ⟨by decide, ?_⟩
    intro en hen ms p ttl hargs
    simp only [Timeline.step, Timeline.init, Config.init, Config.step, List.nil_append,
      List.mem_singleton] at hen
    subst hen
    rfl
  · show _ ∈ _
    decide
  · exact ⟨by decide, by simp [Timeline.step, Timeline.init]⟩
  · refine ⟨by decide, ?_⟩
    intro en hen ms p ttl hargs
    simp only [Timeline.step, Timeline.init, Config.init, Config.step, List.nil_append,
      List.cons_append, List.mem_cons, List.not_mem_nil, or_false] at hen
    rcases hen with rfl | rfl | rfl
    · cases hargs
    · cases hargs
    · rfl
  · show _ ∈ _
    decide

/-! ## Append-only history -/

/-- What a request must not do to the committed history: go back in time with a commit, prewrite
a key over a commit that its conflict check cannot get to, roll a lock forward past the start of
the prewrite, or roll back at a timestamp where a listed key has a commit. -/
structure HistorySafe (c : Call) (v : View) : Prop where
  after : CommitsAfter c
  exposed : ∀ s ms p ttl, c.prewriteArgs = some (s, ms, p, ttl) → ∀ m ∈ ms,
    ∀ t ct, v.Committed m.key t ct → s ≤ ct → Exposed c v m.key ct
  inTime : ForwardsInTime c v
  rollback : ∀ s ks, c = .rollback s ks → ∀ k ∈ ks, ∀ t, ¬ v.Committed k t s

/-- Requests that neither prewrite nor roll back are safe if their commits go forward. -/
lemma historySafe_of_commitsAfter (hafter : CommitsAfter c) (hpre : c.prewriteArgs = none)
    (hrb : ∀ s ks, c ≠ .rollback s ks) : HistorySafe c v where
  after := hafter
  exposed := by
    intro s ms p ttl hc
    rw [hpre] at hc
    cases hc
  inTime := by
    intro s ms p ttl hc
    rw [hpre] at hc
    cases hc
  rollback := by
    intro s ks hc
    exact absurd hc (hrb s ks)

lemma HistorySafe.sighted (h : HistorySafe c v₀) : Sighted U T c v₀ := by
  intro v hmoves s ms p ttl hc m hm t ct hcom hle
  obtain ⟨hcommit, hrb⟩ := Call.prewrite_only hc
  exact (h.exposed s ms p ttl hc m hm t ct hcom hle).reached hcommit hrb hmoves

lemma history_moves (hsafe : HistorySafe c v₀) (hmoves : Moves U T c v₀ v₀ v)
    (h : Fresh v₀ ∧ Forward v₀) : Fresh v ∧ Forward v := by
  induction hmoves with
  | refl => exact h
  | tail hprev hmove ih =>
      exact ⟨ih.1.move hsafe.sighted hsafe.inTime hprev hmove, ih.2.move hsafe.after hmove⟩

/-- A whole request writes no record over a commit. -/
lemma Moves.keeps_commit (hsafe : HistorySafe c v₀) (hgc : ∀ sp, c ≠ .gc sp)
    (hmoves : Moves U T c v₀ v₀ v) (h : Fresh v₀ ∧ Forward v₀) {k : Bytes} {ct : UInt64}
    {w : WriteRecord} (hop : w.op ≠ .rollback) (hw : v₀.write k ct = some w) :
    v.write k ct = some w := by
  induction hmoves with
  | refl => exact hw
  | tail hprev hmove ih =>
      obtain ⟨hfresh, hforward⟩ := history_moves hsafe hprev h
      have hcom : View.Committed _ k w.startTs ct := ⟨w.op, hop, ih⟩
      refine hmove.keeps_commit hgc hsafe.after hforward ?_ (fun l hl => hfresh k l _ ct hl hcom) ih
      intro ks hc hk
      exact hsafe.rollback ct ks hc k hk _ (Moves.committed_of_rollback hc hprev hcom)

end

theorem history_steps {es : List Event}
    (hrun : Guarded Config.step (fun cfg e => HistorySafe e.call (view cfg.store))
      Config.init es) :
    WF Set.univ (Config.init.steps es).store ∧ Fresh (view (Config.init.steps es).store) ∧
      Forward (view (Config.init.steps es).store) := by
  refine @run_invariant Set.univ _ (fun _ v => Fresh v ∧ Forward v)
    (fun _ _ _ _ _ => trivial) (fun _ _ _ hinv => hinv) ?_ _ _ hrun ⟨wf_empty _, ?_, ?_⟩
  · intro cfg e v v' hok _ _ hprev hinv hmove
    exact ⟨hinv.1.move hok.sighted hok.inTime hprev hmove, hinv.2.move hok.after hmove⟩
  · intro k l t ct hl
    simp [Config.init] at hl
  · rintro k s ct ⟨op, -, hw⟩
    simp [Config.init] at hw

/-- From every state that safe requests reach, a safe request other than garbage collection
leaves every Put and Delete record as it is. -/
theorem committed_history_append_only (es : List Event)
    (hrun : Guarded Config.step (fun cfg e => HistorySafe e.call (view cfg.store)) Config.init es)
    (e : Event) (hsafe : HistorySafe e.call (view (Config.init.steps es).store))
    (hgc : ∀ sp, e.call ≠ .gc sp) (k : Bytes) (ct s : UInt64) (op : OpType)
    (hop : op ≠ .rollback)
    (hw : (view (Config.init.steps es).store).write k ct = some ⟨s, op⟩) :
    (view (e.exec (Config.init.steps es).store).2).write k ct = some ⟨s, op⟩ := by
  obtain ⟨hwf, hinv⟩ := history_steps hrun
  obtain ⟨halong, -⟩ := exec_along hwf e fun _ _ => trivial
  exact halong.moves.keeps_commit hsafe hgc hinv hop hw

/-- A rollback that bars a later transaction from a committed key. -/
theorem committed_history_append_only_rollback :
    (view (Event.exec { call := .rollback 65538 [[1]] } (Config.init.steps
      [{ call := .prewrite 65536 [.put [1] [10]] [1] 3000 },
        { call := .commit 65536 65537 [[1]] }]).store).2).write [1] 65537
      = some ⟨65536, .put⟩ := by
  refine committed_history_append_only
    [{ call := .prewrite 65536 [.put [1] [10]] [1] 3000 }, { call := .commit 65536 65537 [[1]] }]
    ⟨⟨?_, ?_, ?_, ?_⟩, historySafe_of_commitsAfter ?_ rfl (by simp), trivial⟩
    { call := .rollback 65538 [[1]] }
    ⟨?_, ?_, ?_, ?_⟩ (by simp) [1] 65537 65536 .put (by decide) (by rfl)
  · intro s ct ks hargs
    cases hargs
  · rintro s ms p ttl - m - t ct ⟨op, -, hw⟩
    simp [Config.init] at hw
  · intro s ms p ttl _ m _ _ l hl
    simp [Config.init] at hl
  · intro s ks hc
    cases hc
  · intro s ct ks hargs
    cases hargs
    decide
  · intro s ct ks hargs
    cases hargs
  · intro s ms p ttl hargs
    cases hargs
  · intro s ms p ttl hargs
    cases hargs
  · rintro s ks hc k hk t ⟨op, -, hw⟩
    cases hc
    rw [List.mem_singleton.mp hk] at hw
    cases hw

/-- The client's rollback writes its record at the start timestamp it names, over the commit that
another transaction has there. -/
theorem rollback_overwrites_commit :
    (view (Config.init.steps [{ call := .prewrite 65536 [.put [1] [10]] [1] 3000 },
        { call := .commit 65536 65537 [[1]] }]).store).write [1] 65537
      = some ⟨65536, .put⟩ ∧
    (view (Event.exec { call := .rollback 65537 [[1]] } (Config.init.steps
      [{ call := .prewrite 65536 [.put [1] [10]] [1] 3000 },
        { call := .commit 65536 65537 [[1]] }]).store).2).write [1] 65537
      = some ⟨65537, .rollback⟩ := by
  exact ⟨by rfl, by rfl⟩

end AcidKv
