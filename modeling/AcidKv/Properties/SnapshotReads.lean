import AcidKv.Abstract.Effects
import AcidKv.Node.Timeline
import AcidKv.Properties.Finality
import AcidKv.Refine.Requests

/-!
# Repeatable snapshot reads

What a read of `k` at `r` sees are the Put and Delete records of `k` at or below `r`, and the
values they point to.  Once a read has returned, these are frozen: a transaction that still holds
or still gets a lock on `k` draws its commit timestamp after `r` was drawn.  Rollback records may
still appear below `r`, but a read looks past them, and they never land on a commit because start
and commit timestamps are different draws.
-/

namespace AcidKv

variable {U : Set Bytes} {T : UInt64 → Prop} {c : Call} {v₀ v v' : View}

/-! ## What a read depends on -/

/-- Two views in which a read of `k` at `r` finds the same. -/
structure SameBelow (k : Bytes) (r : UInt64) (v v' : View) : Prop where
  write : ∀ ct s op, ct ≤ r → op ≠ OpType.rollback →
    (v.write k ct = some ⟨s, op⟩ ↔ v'.write k ct = some ⟨s, op⟩)
  data : ∀ ct s op, ct ≤ r → op ≠ OpType.rollback → v.write k ct = some ⟨s, op⟩ →
    v.data k s = v'.data k s

lemma SameBelow.refl (k : Bytes) (r : UInt64) (v : View) : SameBelow k r v v :=
  ⟨fun _ _ _ _ _ => Iff.rfl, fun _ _ _ _ _ _ => rfl⟩

lemma SameBelow.trans {k : Bytes} {r : UInt64} {v₁ v₂ v₃ : View} (h : SameBelow k r v₁ v₂)
    (h' : SameBelow k r v₂ v₃) : SameBelow k r v₁ v₃ where
  write ct s op hle hop := (h.write ct s op hle hop).trans (h'.write ct s op hle hop)
  data ct s op hle hop hw := (h.data ct s op hle hop hw).trans
    (h'.data ct s op hle hop ((h.write ct s op hle hop).mp hw))

/-- The record that a read sees is the same in both views, and the only one. -/
lemma Newest.unique {k : Bytes} {r c₁ c₂ : UInt64} {w₁ w₂ : WriteRecord}
    (hsame : SameBelow k r v v') (h₁ : Newest v k r c₁ w₁) (h₂ : Newest v' k r c₂ w₂) :
    c₁ = c₂ ∧ w₁ = w₂ := by
  obtain ⟨hle₁, hw₁, hop₁, hnew₁⟩ := h₁
  obtain ⟨hle₂, hw₂, hop₂, hnew₂⟩ := h₂
  have hw₁' := (hsame.write c₁ w₁.startTs w₁.op hle₁ hop₁).mp hw₁
  have hw₂' := (hsame.write c₂ w₂.startTs w₂.op hle₂ hop₂).mpr hw₂
  have hceq : c₁ = c₂ := by
    by_contra hne
    rcases UInt64.lt_or_lt_of_ne hne with hlt | hlt
    · exact hop₂ (hnew₁ c₂ _ hw₂' hlt hle₂)
    · exact hop₁ (hnew₂ c₁ _ hw₁' hlt hle₁)
  subst hceq
  rw [hw₁'] at hw₂
  exact ⟨rfl, Option.some.inj hw₂⟩

/-- Reads of the same records give the same. -/
theorem ReadsTo.unique {k : Bytes} {r : UInt64} {x x' : Option Bytes} (hsame : SameBelow k r v v')
    (h : ReadsTo v k r x) (h' : ReadsTo v' k r x') : x = x' := by
  cases x with
  | some x =>
      obtain ⟨ct, s, hnew, hdata⟩ := h
      cases x' with
      | some x' =>
          obtain ⟨ct', s', hnew', hdata'⟩ := h'
          obtain ⟨rfl, heq⟩ := hnew.unique hsame hnew'
          cases heq
          rw [← hdata, ← hdata']
          exact hsame.data ct s .put hnew.1 (by decide) hnew.2.1
      | none =>
          exfalso
          rcases h' with ⟨ct', s', hnew'⟩ | hnone
          · cases (hnew.unique hsame hnew').2
          · have hw := (hsame.write ct s .put hnew.1 (by decide)).mp hnew.2.1
            cases hnone ct _ hw hnew.1
  | none =>
      cases x' with
      | some x' =>
          exfalso
          obtain ⟨ct', s', hnew', -⟩ := h'
          rcases h with ⟨ct, s, hnew⟩ | hnone
          · cases (hnew.unique hsame hnew').2
          · have hw := (hsame.write ct' s' .put hnew'.1 (by decide)).mpr hnew'.2.1
            cases hnone ct' _ hw hnew'.1
      | none => rfl

/-! ## Draws and records -/

/-- Each timestamp is drawn once. -/
def DrawnOnce (drawn : List (UInt64 × Use)) : Prop := drawn.Pairwise fun d d' => d.1 < d'.1

lemma DrawnOnce.use_unique {drawn : List (UInt64 × Use)} (h : DrawnOnce drawn) {ts : UInt64}
    {u u' : Use} (hu : (ts, u) ∈ drawn) (hu' : (ts, u') ∈ drawn) : u = u' := by
  induction drawn with
  | nil => cases hu
  | cons d drawn ih =>
      obtain ⟨hfirst, hrest⟩ := List.pairwise_cons.mp h
      rcases List.mem_cons.mp hu with rfl | hm
      · rcases List.mem_cons.mp hu' with heq | hm'
        · exact (Prod.mk.inj heq).2.symm
        · exact (UInt64.lt_irrefl ts (hfirst (ts, u') hm')).elim
      · rcases List.mem_cons.mp hu' with rfl | hm'
        · exact (UInt64.lt_irrefl ts (hfirst (ts, u) hm)).elim
        · exact ih hrest hm hm'

lemma DrawnOnce.append {drawn : List (UInt64 × Use)} (h : DrawnOnce drawn) {ts : UInt64} {u : Use}
    (hts : ∀ d ∈ drawn, d.1 < ts) : DrawnOnce (drawn ++ [(ts, u)]) := by
  refine List.pairwise_append.mpr ⟨h, List.pairwise_singleton _ _, ?_⟩
  intro d hd d' hd'
  rw [List.mem_singleton.mp hd']
  exact hts d hd

/-- Locks and records carry timestamps drawn for them. -/
structure Clocked (drawn : List (UInt64 × Use)) (v : View) : Prop where
  lock : ∀ k l, v.lock k = some l → (l.startTs, .start) ∈ drawn
  later : ∀ k l, v.lock k = some l → ∀ ct, (ct, .commit l.startTs) ∈ drawn → l.startTs < ct
  committed : ∀ k s ct, v.Committed k s ct → (ct, .commit s) ∈ drawn

lemma Clocked.draw {drawn : List (UInt64 × Use)} (h : Clocked drawn v) {ts : UInt64} {u : Use}
    (hts : ∀ d ∈ drawn, d.1 < ts) : Clocked (drawn ++ [(ts, u)]) v where
  lock k l hl := List.mem_append_left _ (h.lock k l hl)
  later := by
    intro k l hl ct hct
    rcases List.mem_append.mp hct with hct | hct
    · exact h.later k l hl ct hct
    · rw [(Prod.mk.inj (List.mem_singleton.mp hct)).1]
      exact hts _ (h.lock k l hl)
  committed k s ct hcom := List.mem_append_left _ (h.committed k s ct hcom)

/-- What discipline says about the request being served. -/
structure Proper (drawn : List (UInt64 × Use)) (c : Call) : Prop where
  prewrite : ∀ s ms p ttl, c.prewriteArgs = some (s, ms, p, ttl) →
    (s, .start) ∈ drawn ∧ ∀ ct, (ct, .commit s) ∉ drawn
  commit : ∀ s ct ks, c.commitArgs = some (s, ct, ks) → (ct, .commit s) ∈ drawn
  rollback : ∀ s ks, c = .rollback s ks → (s, .start) ∈ drawn
  noGc : ∀ sp, c ≠ .gc sp

lemma Timeline.Disciplined.proper {t : Timeline} {e : Event} (h : t.Disciplined (.serve e)) :
    Proper t.drawn e.call := by
  revert h
  simp only [Timeline.Disciplined]
  cases e.call with
  | gc sp => exact False.elim
  | scan a b n r => exact False.elim
  | _ =>
      intro h
      refine ⟨?_, ?_, ?_, ?_⟩
      · rintro s ms p ttl ⟨⟩
        all_goals exact h
      · rintro s ct ks ⟨⟩
        all_goals exact h
      · rintro s ks ⟨⟩
        all_goals exact h
      · rintro sp ⟨⟩

lemma Clocked.move {drawn : List (UInt64 × Use)} (hc : Proper drawn c) (h : Clocked drawn v)
    (hmove : Move U T c v₀ v v') : Clocked drawn v' where
  lock := by
    intro k l hl
    rcases hmove.lock_origin hl with ⟨l', hl', heq, -⟩ | hplaced
    · rw [heq]
      exact h.lock k l' hl'
    · obtain ⟨ms, p, ttl, m, hargs, -⟩ := hplaced.args
      exact (hc.prewrite _ ms p ttl hargs).1
  later := by
    intro k l hl ct hct
    rcases hmove.lock_origin hl with ⟨l', hl', heq, -⟩ | hplaced
    · rw [heq] at hct ⊢
      exact h.later k l' hl' ct hct
    · obtain ⟨ms, p, ttl, m, hargs, -⟩ := hplaced.args
      exact absurd hct ((hc.prewrite _ ms p ttl hargs).2 ct)
  committed := by
    intro k s ct hcom
    rcases hmove.committed_origin hcom with hcom | ⟨-, -, ⟨ks, hargs, -⟩ | hfwd⟩
    · exact h.committed k s ct hcom
    · exact hc.commit s ct ks hargs
    · obtain ⟨l, lr, -, -, -, -, hp⟩ := hfwd
      exact h.committed _ s ct hp

lemma Clocked.moves {drawn : List (UInt64 × Use)} (hc : Proper drawn c) (h : Clocked drawn v)
    (hmoves : Moves U T c v₀ v v') : Clocked drawn v' := by
  induction hmoves with
  | refl => exact h
  | tail _ hmove ih => exact ih.move hc hmove

/-! ## Frozen reads -/

/-- Every lock on `k` belongs to a transaction that commits above `r`, if at all. -/
def Frozen (drawn : List (UInt64 × Use)) (k : Bytes) (r : UInt64) (v : View) : Prop :=
  ∀ l, v.lock k = some l → ∀ ct, (ct, .commit l.startTs) ∈ drawn → r < ct

lemma Frozen.move {drawn : List (UInt64 × Use)} {k : Bytes} {r : UInt64} (hc : Proper drawn c)
    (h : Frozen drawn k r v) (hmove : Move U T c v₀ v v') : Frozen drawn k r v' := by
  intro l hl ct hct
  rcases hmove.lock_origin hl with ⟨l', hl', heq, -⟩ | hplaced
  · rw [heq] at hct
    exact h l' hl' ct hct
  · obtain ⟨ms, p, ttl, m, hargs, -⟩ := hplaced.args
    exact absurd hct ((hc.prewrite _ ms p ttl hargs).2 ct)

lemma Frozen.draw {drawn : List (UInt64 × Use)} {k : Bytes} {r ts : UInt64} {u : Use}
    (h : Frozen drawn k r v) (hr : ∃ use, (r, use) ∈ drawn) (hts : ∀ d ∈ drawn, d.1 < ts) :
    Frozen (drawn ++ [(ts, u)]) k r v := by
  intro l hl ct hct
  rcases List.mem_append.mp hct with hct | hct
  · exact h l hl ct hct
  · obtain ⟨use, huse⟩ := hr
    rw [(Prod.mk.inj (List.mem_singleton.mp hct)).1]
    exact hts _ huse

/-- A new record on a frozen key lies above `r`, or is a rollback at a start timestamp. -/
lemma Frozen.written {drawn : List (UInt64 × Use)} {k : Bytes} {r ts : UInt64} {w : WriteRecord}
    (hc : Proper drawn c) (hclocked : Clocked drawn v) (h : Frozen drawn k r v)
    (hnew : Written U c v₀ v v' k ts w) :
    r < ts ∨ (w.op = .rollback ∧ (ts, .start) ∈ drawn) := by
  cases hnew with
  | commit hargs _ hl hs _ _ _ =>
      refine Or.inl (h _ hl ts ?_)
      rw [hs]
      exact hc.commit _ ts _ hargs
  | forward _ _ hl hs _ hp _ _ =>
      refine Or.inl (h _ hl ts ?_)
      rw [hs]
      exact hclocked.committed _ _ ts hp
  | back hl hs hw _ _ =>
      refine Or.inr ⟨by rw [hw], ?_⟩
      rw [← hs]
      exact hclocked.lock k _ hl
  | mark hcall _ hw _ => exact Or.inr ⟨by rw [hw], hc.rollback ts _ hcall⟩

/-- The step lemma: a move leaves what a read below `r` finds on a frozen key. -/
lemma Frozen.same {drawn : List (UInt64 × Use)} {k : Bytes} {r : UInt64} (honce : DrawnOnce drawn)
    (hc : Proper drawn c) (hclocked : Clocked drawn v) (h : Frozen drawn k r v)
    (hmove : Move U T c v₀ v v') : SameBelow k r v v' where
  write := by
    intro ct s op hle hop
    constructor
    · intro hw
      have hsome : (v.write k ct).isSome := by rw [hw]; rfl
      obtain ⟨w', hw'⟩ := Option.isSome_iff_exists.mp (hmove.write_isSome hc.noGc hsome)
      rcases hmove.write_origin hw' with hold | hnew
      · rw [hw', ← hold, hw]
      · exfalso
        rcases h.written hc hclocked hnew with hlt | ⟨-, hstart⟩
        · exact UInt64.not_le.mpr hlt hle
        · cases honce.use_unique hstart (hclocked.committed k s ct ⟨op, hop, hw⟩)
    · intro hw
      rcases hmove.write_origin hw with hold | hnew
      · exact hold
      · exfalso
        rcases h.written hc hclocked hnew with hlt | ⟨hrb, -⟩
        · exact UInt64.not_le.mpr hlt hle
        · exact hop hrb
  data := by
    intro ct s op _ hop hw
    -- a transaction with a commit timestamp has no prewrite any more
    have hcommit := hclocked.committed k s ct ⟨op, hop, hw⟩
    refine (hmove.data_frame hc.noGc ?_ k).symm
    intro ms p ttl hargs
    exact (hc.prewrite s ms p ttl hargs).2 ct hcommit

/-! ## Over whole timelines -/

/-- The rule of invariants for disciplined timelines. -/
theorem timeline_invariant {Inv : List (UInt64 × Use) → View → Prop}
    (hdraw : ∀ drawn v ts u, (∀ d ∈ drawn, d.1 < ts) → Inv drawn v → Inv (drawn ++ [(ts, u)]) v)
    (hmove : ∀ drawn T c v₀ v v', Proper drawn c → Inv drawn v → Move U T c v₀ v v' → Inv drawn v')
    {t : Timeline} {as : List Action} (h : Guarded Timeline.step Timeline.Disciplined t as)
    (hU : ∀ e ∈ served as, ∀ k ∈ e.call.keys, k ∈ U)
    (hinit : WF U t.config.store ∧ Inv t.drawn (view t.config.store)) :
    WF U (t.steps as).config.store ∧ Inv (t.steps as).drawn (view (t.steps as).config.store) := by
  induction as generalizing t with
  | nil => exact hinit
  | cons a as ih =>
      obtain ⟨hok, hrest⟩ := h
      cases a with
      | draw ts u =>
          refine ih hrest hU ⟨hinit.1, ?_⟩
          exact hdraw t.drawn _ ts u hok.1 hinit.2
      | serve e =>
          have hkeys : ∀ k ∈ e.call.keys, k ∈ U := hU e List.mem_cons_self
          obtain ⟨halong, -⟩ := exec_along hinit.1 e hkeys
          refine ih hrest (fun e' he' => hU e' (List.mem_cons_of_mem e he')) ⟨halong.wf, ?_⟩
          show Inv t.drawn (view (e.exec t.config.store).2)
          have hmoves := halong.moves
          generalize view (e.exec t.config.store).2 = v' at hmoves ⊢
          induction hmoves with
          | refl => exact hinit.2
          | tail _ hlast ih' => exact hmove t.drawn _ e.call _ _ _ hok.proper ih' hlast

/-- Timestamps are drawn once, and locks and records carry the right ones. -/
theorem clocked_steps {as : List Action}
    (h : Guarded Timeline.step Timeline.Disciplined Timeline.init as)
    (hU : ∀ e ∈ served as, ∀ k ∈ e.call.keys, k ∈ U) :
    WF U (Timeline.init.steps as).config.store ∧ DrawnOnce (Timeline.init.steps as).drawn ∧
      Clocked (Timeline.init.steps as).drawn (view (Timeline.init.steps as).config.store) := by
  refine @timeline_invariant U (fun drawn v => DrawnOnce drawn ∧ Clocked drawn v) ?_ ?_ _ _ h hU
    ⟨wf_empty U, List.Pairwise.nil, ?_, ?_, ?_⟩
  · intro drawn v ts u hts hinv
    exact ⟨hinv.1.append hts, hinv.2.draw hts⟩
  · intro drawn T c v₀ v v' hc hinv hmove
    exact ⟨hinv.1, hinv.2.move hc hmove⟩
  · intro k l hl
    simp [Timeline.init, Config.init] at hl
  · intro k l hl
    simp [Timeline.init, Config.init] at hl
  · rintro k s ct ⟨op, -, hw⟩
    simp [Timeline.init, Config.init] at hw

/-- From a point at which a read of `k` at `r` is frozen, it stays so and finds the same. -/
theorem frozen_steps {t : Timeline} {as : List Action} {k : Bytes} {r : UInt64}
    (h : Guarded Timeline.step Timeline.Disciplined t as)
    (hU : ∀ e ∈ served as, ∀ k ∈ e.call.keys, k ∈ U) (hwf : WF U t.config.store)
    (honce : DrawnOnce t.drawn) (hclocked : Clocked t.drawn (view t.config.store))
    (hr : ∃ use, (r, use) ∈ t.drawn) (hfrozen : Frozen t.drawn k r (view t.config.store)) :
    WF U (t.steps as).config.store ∧
      SameBelow k r (view t.config.store) (view (t.steps as).config.store) := by
  have hrun := @timeline_invariant U
    (fun drawn v => DrawnOnce drawn ∧ Clocked drawn v ∧ (∃ use, (r, use) ∈ drawn) ∧
      Frozen drawn k r v ∧ SameBelow k r (view t.config.store) v) ?_ ?_ t as h hU
    ⟨hwf, honce, hclocked, hr, hfrozen, SameBelow.refl k r _⟩
  · exact ⟨hrun.1, hrun.2.2.2.2.2⟩
  · rintro drawn v ts u hts ⟨honce, hclocked, ⟨use, huse⟩, hfrozen, hsame⟩
    exact ⟨honce.append hts, hclocked.draw hts, ⟨use, List.mem_append_left _ huse⟩,
      hfrozen.draw ⟨use, huse⟩ hts, hsame⟩
  · rintro drawn T c v₀ v v' hc ⟨honce, hclocked, hr, hfrozen, hsame⟩ hmove
    exact ⟨honce, hclocked.move hc hmove, hr, hfrozen.move hc hmove,
      hsame.trans (hfrozen.same honce hc hclocked hmove)⟩

/-- Once `get(k, r)` has returned a value, every later `get(k, r)` that returns one returns the
same. -/
theorem get_repeatable (as₁ as₂ : List Action) (e₁ e₂ : Event) (k : Bytes) (r : UInt64)
    (x₁ x₂ : Option Bytes)
    (hrun : Guarded Timeline.step Timeline.Disciplined Timeline.init
      (as₁ ++ .serve e₁ :: (as₂ ++ [.serve e₂])))
    (hkeys : PrefixFree (RunKeys (served (as₁ ++ .serve e₁ :: (as₂ ++ [.serve e₂])))))
    (hcall₁ : e₁.call = .get k r) (hcall₂ : e₂.call = .get k r)
    (hreply₁ : (e₁.exec (Timeline.init.steps as₁).config.store).1 = some (.ok (.value x₁)))
    (hreply₂ : (e₂.exec (Timeline.init.steps (as₁ ++ .serve e₁ :: as₂)).config.store).1
      = some (.ok (.value x₂))) : x₁ = x₂ := by
  obtain ⟨hrun₀, hok₁, hrest⟩ := Timeline.guarded_steps.mp hrun
  obtain ⟨hrun₂, -⟩ := Timeline.guarded_steps.mp hrest
  have hU : ∀ e ∈ served (as₁ ++ .serve e₁ :: (as₂ ++ [.serve e₂])), ∀ k ∈ e.call.keys,
      k ∈ RunKeys (served (as₁ ++ .serve e₁ :: (as₂ ++ [.serve e₂]))) :=
    fun e he k hk => ⟨e, he, hk⟩
  generalize RunKeys (served (as₁ ++ .serve e₁ :: (as₂ ++ [.serve e₂]))) = U at hkeys hU
  simp only [served_append, served_serve, List.forall_mem_append, List.forall_mem_cons] at hU
  obtain ⟨hU₀, hU₁, hU₂, hU₃, -⟩ := hU
  -- the first read: from here on `k` is frozen below `r`
  obtain ⟨hwf₀, honce, hclocked₀⟩ := clocked_steps hrun₀ hU₀
  obtain ⟨halong, -⟩ := exec_along hwf₀ e₁ hU₁
  have hclocked := hclocked₀.moves hok₁.proper halong.moves
  obtain ⟨hfree, hreads₁⟩ := (get_reply hwf₀ hU₁ hcall₁ hreply₁).readsTo hkeys
  have hfrozen : Frozen (Timeline.init.steps as₁).drawn k r
      (view (e₁.exec (Timeline.init.steps as₁).config.store).2) :=
    fun l hl ct hct => UInt64.lt_trans (hfree l hl) (hclocked.later k l hl ct hct)
  have hr : ∃ use, (r, use) ∈ (Timeline.init.steps as₁).drawn := by
    have hok := hok₁
    simp only [Timeline.Disciplined, hcall₁] at hok
    exact hok
  -- the second read, on a store that says the same
  obtain ⟨hwf₂, -⟩ := frozen_steps hrun₂ hU₂ halong.wf honce hclocked hr hfrozen
  obtain ⟨-, hsame⟩ := frozen_steps hrest (by
    simp only [served_append, served_serve, List.forall_mem_append, List.forall_mem_cons]
    exact ⟨hU₂, hU₃, by simp [served]⟩) halong.wf honce hclocked hr hfrozen
  rw [Timeline.steps_append] at hreply₂ hsame
  obtain ⟨-, hreads₂⟩ := (get_reply hwf₂ hU₃ hcall₂ hreply₂).readsTo hkeys
  exact hreads₁.unique hsame hreads₂

/-- A commit and the draw of a read timestamp. -/
def beforeRead : List Action :=
  [.draw 65536 .start, .serve { call := .prewrite 65536 [.put [1] [10]] [1] 3000 },
    .draw 65537 (.commit 65536), .serve { call := .commit 65536 65537 [[1]] }, .draw 65540 .read]

/-- Another transaction deletes the key. -/
def betweenReads : List Action :=
  [.draw 65541 .start, .serve { call := .batchPrewrite 65541 [.delete [1]] [1] 3000 },
    .draw 65542 (.commit 65541), .serve { call := .batchCommit 65541 65542 [[1]] }]

theorem get_repeatable_across_delete :
    (Event.exec { call := .get [1] 65540 } (Timeline.init.steps beforeRead).config.store).1
        = some (.ok (.value (some [10]))) ∧
      (Event.exec { call := .get [1] 65540 } (Timeline.init.steps (beforeRead ++
        .serve { call := .get [1] 65540 } :: betweenReads)).config.store).1
        = some (.ok (.value (some [10]))) ∧
      (some [10] : Option Bytes) = some [10] := by
  have h₁ : (Event.exec { call := .get [1] 65540 } (Timeline.init.steps beforeRead).config.store).1
      = some (.ok (.value (some [10]))) := by rfl
  have h₂ : (Event.exec { call := .get [1] 65540 } (Timeline.init.steps (beforeRead ++
      .serve { call := .get [1] 65540 } :: betweenReads)).config.store).1
      = some (.ok (.value (some [10]))) := by rfl
  refine ⟨h₁, h₂, get_repeatable beforeRead betweenReads { call := .get [1] 65540 }
    { call := .get [1] 65540 } [1] 65540 _ _
    ⟨⟨by decide, trivial⟩, ⟨by decide, by simp [Timeline.step, Timeline.init]⟩, ⟨by decide, ?_⟩,
      ?_, ⟨by decide, trivial⟩, ⟨.read, by decide⟩, ⟨by decide, trivial⟩,
      ⟨by decide, by simp [Timeline.step, Timeline.init]⟩, ⟨by decide, ?_⟩, ?_,
      ⟨.read, by decide⟩, trivial⟩
    (prefixFree_runKeys (by decide)) rfl rfl h₁ h₂⟩
  · intro en hen ms p ttl hargs
    simp only [Timeline.step, Timeline.init, Config.init, Config.step, List.nil_append,
      List.mem_singleton] at hen
    subst hen
    rfl
  · show _ ∈ _
    decide
  · intro en hen ms p ttl hargs
    simp only [Timeline.step, Timeline.init, Config.init, Config.step, List.nil_append,
      List.cons_append, List.mem_cons, List.not_mem_nil, or_false] at hen
    rcases hen with rfl | rfl | rfl | rfl
    · cases hargs
    · cases hargs
    · cases hargs
    · rfl
  · show _ ∈ _
    decide

end AcidKv
