import AcidKv.Abstract.Effects
import AcidKv.Refine.Requests

/-!
# An outcome on a key is final

A write record of transaction `s` on a key shuts `s` out of that key.  The record itself need not
stay: it may be overwritten by another one at the same timestamp, or be collected.  What stays is
*some* record at or above `s` (`Sealed`), because overwriting keeps the timestamp and garbage
collection keeps a newer version, and this is what the conflict check of a prewrite trips over.
-/

namespace AcidKv

/-- The user keys named in a run. -/
def RunKeys (es : List Event) : Set Bytes := {k | ∃ e ∈ es, k ∈ e.call.keys}

/-- The keys of a run can be compared by going through its events. -/
lemma prefixFree_runKeys {es : List Event}
    (h : ∀ a ∈ es.flatMap (fun e => e.call.keys), ∀ b ∈ es.flatMap (fun e => e.call.keys),
      a <+: b → a = b) : PrefixFree (RunKeys es) := by
  rintro a ⟨e, he, ha⟩ b ⟨e', he', hb⟩
  exact h a (List.mem_flatMap.mpr ⟨e, he, ha⟩) b (List.mem_flatMap.mpr ⟨e', he', hb⟩)

lemma guarded_runKeys (cfg : Config) (es : List Event) :
    Guarded Config.step (fun _ e => ∀ k ∈ e.call.keys, k ∈ RunKeys es) cfg es :=
  Guarded.of_forall fun e he _ hk => ⟨e, he, hk⟩

/-- A run leaves nothing on other keys than its own. -/
lemma wf_runKeys (es : List Event) : WF (RunKeys es) (Config.init.steps es).store :=
  (@run_invariant (RunKeys es) _ (fun _ _ => True) (fun _ _ hok => hok) (fun _ _ _ _ => trivial)
    (fun _ _ _ _ _ _ _ _ _ _ => trivial) _ _ (guarded_runKeys Config.init es)
    ⟨wf_empty _, trivial⟩).1

/-- No commit of the run goes back behind its start. -/
def CommitsForward (c : Call) : Prop := ∀ s ct ks, c.commitArgs = some (s, ct, ks) → s ≤ ct

/-- Records do not stand below their start, nor next to a lock of the same transaction. -/
structure Decided (v : View) : Prop where
  late : ∀ k ts w, v.write k ts = some w → w.startTs ≤ ts
  unlocked : ∀ k ts w, v.write k ts = some w → ¬ v.LockedBy k w.startTs

section

variable {U : Set Bytes} {T : UInt64 → Prop} {c : Call} {v₀ v v' : View}

lemma Decided.move (hU : PrefixFree U) (hcommit : CommitsForward c) (h₀ : Decided v₀)
    (hprev : Moves U T c v₀ v₀ v) (h : Decided v) (hmove : Move U T c v₀ v v') : Decided v' where
  late := by
    intro k ts w hw
    rcases hmove.write_origin hw with hw | hnew
    · exact h.late k ts w hw
    · cases hnew with
      | commit hc _ _ _ _ _ _ => exact hcommit _ _ _ hc
      | forward _ _ _ _ _ hp _ _ =>
          obtain ⟨op, -, hw'⟩ := hp
          exact h.late _ ts ⟨w.startTs, op⟩ hw'
      | back _ _ hw' _ _ => rw [hw']; exact UInt64.le_refl ts
      | mark _ _ hw' _ => rw [hw']; exact UInt64.le_refl ts
  unlocked := by
    rintro k ts ⟨s, op⟩ hw ⟨l, hl, rfl⟩
    rcases hmove.write_origin hw with hold | hnew
    · rcases hmove.lock_origin hl with ⟨l', hl', heq, -⟩ | hplaced
      · exact h.unlocked k ts _ hold ⟨l', hl', by rw [heq]⟩
      · -- the prewrite would have found this record in its conflict check
        obtain ⟨ms, p, ttl, m, hc, -, -, -⟩ := hplaced.args
        have hfirst := hprev.own_record hc hold
        have hlt := hplaced.check ts _ hfirst (Or.inl hU)
        exact UInt64.not_le.mpr hlt (h₀.late k ts _ hfirst)
    · cases hnew with
      | commit _ _ _ _ _ hgone _ => rw [hgone] at hl; cases hl
      | forward _ _ _ _ _ _ _ hgone => rw [hgone] at hl; cases hl
      | back _ _ _ hgone _ => rw [hgone] at hl; cases hl
      | mark _ _ hw' hfree =>
          cases hw'
          exact hfree ⟨l, hl, rfl⟩

/-- Transaction `s` is shut out of `k`. -/
structure Sealed (v : View) (k : Bytes) (s : UInt64) : Prop where
  blocked : ∃ ts w, s ≤ ts ∧ v.write k ts = some w
  unlocked : ¬ v.LockedBy k s

lemma Decided.sealed (h : Decided v) {k : Bytes} {ts : UInt64} {w : WriteRecord}
    (hw : v.write k ts = some w) : Sealed v k w.startTs :=
  ⟨⟨ts, w, h.late k ts w hw, hw⟩, h.unlocked k ts w hw⟩

lemma Sealed.move {k : Bytes} {s : UInt64} (hU : PrefixFree U) (h₀ : Sealed v₀ k s)
    (h : Sealed v k s) (hmove : Move U T c v₀ v v') : Sealed v' k s where
  blocked := by
    obtain ⟨ts, w, hle, hw⟩ := h.blocked
    obtain ⟨ts', w', hle', hw'⟩ := hmove.version_survives hw
    exact ⟨ts', w', UInt64.le_trans hle hle', hw'⟩
  unlocked := by
    rintro ⟨l, hl, rfl⟩
    rcases hmove.lock_origin hl with ⟨l', hl', heq, -⟩ | hplaced
    · exact h.unlocked ⟨l', hl', by rw [heq]⟩
    · obtain ⟨ts, w, hle, hw⟩ := h₀.blocked
      exact UInt64.not_le.mpr (hplaced.check ts w hw (Or.inl hU)) hle

lemma Sealed.moves {k : Bytes} {s : UInt64} (hU : PrefixFree U) (h₀ : Sealed v₀ k s)
    (hmoves : Moves U T c v₀ v₀ v) : Sealed v k s := by
  induction hmoves with
  | refl => exact h₀
  | tail _ hmove ih => exact h₀.move hU ih hmove

/-- Where a transaction is shut out, it gets no new Put or Delete record. -/
lemma Sealed.committed {k : Bytes} {s ct : UInt64} (hU : PrefixFree U) (h₀ : Sealed v₀ k s)
    (hmoves : Moves U T c v₀ v₀ v) (hcom : v.Committed k s ct) : v₀.Committed k s ct := by
  induction hmoves with
  | refl => exact hcom
  | tail hprev hmove ih =>
      rcases hmove.committed_origin hcom with hcom | ⟨hlocked, -⟩
      · exact ih hcom
      · exact absurd hlocked (h₀.moves hU hprev).unlocked

/-! ## Over whole runs -/

/-- Prefix-free keys and commits that do not go backwards, as a condition on single events. -/
def Orderly (U : Set Bytes) (e : Event) : Prop :=
  (∀ k ∈ e.call.keys, k ∈ U) ∧ CommitsForward e.call

lemma orderly_of_mem {es : List Event} (hcommit : ∀ e ∈ es, CommitsForward e.call) {e : Event}
    (he : e ∈ es) : Orderly (RunKeys es) e :=
  ⟨fun _ hk => ⟨e, he, hk⟩, hcommit e he⟩

theorem decided_steps (hU : PrefixFree U) (es : List Event) (h : ∀ e ∈ es, Orderly U e) :
    WF U (Config.init.steps es).store ∧ Decided (view (Config.init.steps es).store) := by
  refine @run_invariant U _ (fun _ v => Decided v) (fun _ _ hok => hok.1) (fun _ _ _ hd => hd) ?_ _ _
    (Guarded.of_forall h) ⟨wf_empty U, ?_, ?_⟩
  · intro cfg e v v' hok _ h₀ hprev hd hmove
    exact h₀.move hU hok.2 hprev hd hmove
  · intro k ts w hw
    simp [Config.init] at hw
  · intro k ts w hw
    simp [Config.init] at hw

theorem sealed_steps (hU : PrefixFree U) {cfg : Config} (es : List Event)
    (h : ∀ e ∈ es, Orderly U e) (hwf : WF U cfg.store) {k : Bytes} {s : UInt64}
    (hsealed : Sealed (view cfg.store) k s) :
    WF U (cfg.steps es).store ∧ Sealed (view (cfg.steps es).store) k s := by
  refine @run_invariant U _ (fun _ v => Sealed v k s) (fun _ _ hok => hok.1) (fun _ _ _ hs => hs)
    ?_ _ _ (Guarded.of_forall h) ⟨hwf, hsealed⟩
  intro cfg e v v' _ _ h₀ _ hs hmove
  exact h₀.move hU hs hmove

end

/-- Once `k` has had a write record of `s`, it never again carries a lock of `s`, a prewrite of
`s` that mutates `k` returns an error, and no request adds a Put or Delete record of `s` on `k`. -/
theorem outcome_on_key_final (es₁ es₂ : List Event) (e : Event)
    (hkeys : PrefixFree (RunKeys (es₁ ++ es₂ ++ [e])))
    (hcommit : ∀ e' ∈ es₁ ++ es₂ ++ [e], CommitsForward e'.call) (k : Bytes) (s ts : UInt64)
    (op : OpType) (hrecord : (view (Config.init.steps es₁).store).write k ts = some ⟨s, op⟩) :
    ¬ (view (Config.init.steps (es₁ ++ es₂)).store).LockedBy k s ∧
      (∀ ms p ttl, e.call.prewriteArgs = some (s, ms, p, ttl) → (∃ m ∈ ms, m.key = k) →
        e.stop = none →
        ∃ err, (e.exec (Config.init.steps (es₁ ++ es₂)).store).1 = some (.error err)) ∧
      ∀ ct, (view (e.exec (Config.init.steps (es₁ ++ es₂)).store).2).Committed k s ct →
        (view (Config.init.steps (es₁ ++ es₂)).store).Committed k s ct := by
  have horderly : ∀ e' ∈ es₁ ++ es₂ ++ [e], Orderly (RunKeys (es₁ ++ es₂ ++ [e])) e' :=
    fun e' he' => orderly_of_mem hcommit he'
  obtain ⟨hwf₁, hdecided⟩ := decided_steps hkeys es₁ fun e' he' => horderly e' (by simp [he'])
  obtain ⟨hwf, hsealed⟩ := sealed_steps hkeys es₂ (fun e' he' => horderly e' (by simp [he']))
    hwf₁ (hdecided.sealed hrecord)
  rw [← Config.steps_append] at hwf hsealed
  have hU := (horderly e (by simp)).1
  obtain ⟨halong, -⟩ := exec_along hwf e hU
  refine ⟨hsealed.unlocked, ?_, fun ct hcom => hsealed.committed hkeys halong.moves hcom⟩
  rintro ms p ttl hargs ⟨m, hm, rfl⟩ hstop
  cases hreply : (e.exec (Config.init.steps (es₁ ++ es₂)).store).1 with
  | none => simp [Event.exec, hstop] at hreply
  | some out =>
      cases out with
      | error err => exact ⟨err, rfl⟩
      | ok r =>
          have hready := prewrite_reply hwf hU hargs hreply m hm
          obtain ⟨ts', w, hle, hw⟩ := hsealed.blocked
          exact absurd (hready.check ts' w hw (Or.inl hkeys)) (UInt64.not_lt.mpr hle)

/-- A committed key after garbage collection, and the prewrite once more. -/
theorem outcome_on_key_final_retry :
    ∃ err, (Event.exec { call := .prewrite 65536 [.put [1] [10]] [1] 3000 } (Config.init.steps
      [{ call := .prewrite 65536 [.put [1] [10]] [1] 3000 },
        { call := .commit 65536 65537 [[1]] }, { call := .gc 80000 }]).store).1
      = some (.error err) := by
  refine (outcome_on_key_final
    [{ call := .prewrite 65536 [.put [1] [10]] [1] 3000 }, { call := .commit 65536 65537 [[1]] }]
    [{ call := .gc 80000 }] { call := .prewrite 65536 [.put [1] [10]] [1] 3000 }
    (prefixFree_runKeys (by decide)) ?_ [1] 65536 65537 .put (by rfl)).2.1
    _ _ _ rfl ⟨.put [1] [10], List.mem_cons_self, rfl⟩ rfl
  intro e he
  simp only [List.cons_append, List.nil_append, List.mem_cons, List.not_mem_nil, or_false] at he
  rcases he with rfl | rfl | rfl | rfl
  all_goals
    intro s ct ks hargs
    cases hargs
  decide

end AcidKv
