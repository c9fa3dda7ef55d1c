import AcidKv.Abstract.Effects
import AcidKv.Refine.Requests

/-!
# No dirty or invented reads

A value that a read returns was put there by a prewrite, and the transaction it belongs to was
committed.  Both are traced through the store: staged values go back to a prewrite call, and
Put and Delete records, also those that a reader or writer rolled forward from another key's
record, go back to a commit call with the same timestamps.  Nothing is asked of the clients.
-/

namespace AcidKv

/-- Every staged value and every Put or Delete record comes from one of the calls. -/
structure Traced (calls : List Call) (v : View) : Prop where
  data : ∀ k s x, v.data k s = some x →
    ∃ c ∈ calls, ∃ ms p ttl, c.prewriteArgs = some (s, ms, p, ttl) ∧ .put k x ∈ ms
  committed : ∀ k s ct, v.Committed k s ct → ∃ c ∈ calls, ∃ ks, c.commitArgs = some (s, ct, ks)

lemma Traced.append {calls : List Call} {v : View} (h : Traced calls v) (c : Call) :
    Traced (calls ++ [c]) v where
  data := by
    intro k s x hx
    obtain ⟨c', hc', hfrom⟩ := h.data k s x hx
    exact ⟨c', List.mem_append_left [c] hc', hfrom⟩
  committed := by
    intro k s ct hcom
    obtain ⟨c', hc', hfrom⟩ := h.committed k s ct hcom
    exact ⟨c', List.mem_append_left [c] hc', hfrom⟩

lemma Traced.move {U : Set Bytes} {T : UInt64 → Prop} {c : Call} {calls : List Call}
    {v₀ v v' : View} (hc : c ∈ calls) (h : Traced calls v) (hmove : Move U T c v₀ v v') :
    Traced calls v' where
  data := by
    intro k s x hx
    rcases hmove.data_origin hx with hx | hnew
    · exact h.data k s x hx
    · exact ⟨c, hc, hnew⟩
  committed := by
    intro k s ct hcom
    rcases hmove.committed_origin hcom with hcom | ⟨-, -, hnew⟩
    · exact h.committed k s ct hcom
    · rcases hnew with ⟨ks, hargs, -⟩ | ⟨l, lr, -, -, -, -, hp⟩
      · exact ⟨c, hc, ks, hargs⟩
      · exact h.committed l.primaryKey s ct hp

/-- In every run the store is traced to the calls made. -/
theorem traced_steps (es : List Event) :
    WF Set.univ (Config.init.steps es).store ∧
      Traced (es.map Event.call) (view (Config.init.steps es).store) := by
  have hinit : WF Set.univ Config.init.store ∧ Traced Config.init.calls (view Config.init.store) := by
    refine ⟨wf_empty Set.univ, ?_, ?_⟩
    · intro k s x hx
      simp [Config.init] at hx
    · rintro k s ct ⟨op, -, hw⟩
      simp [Config.init] at hw
  have hrun : WF Set.univ (Config.init.steps es).store ∧
      Traced (Config.init.steps es).calls (view (Config.init.steps es).store) :=
    run_invariant (fun _ _ _ _ _ => trivial) (fun cfg e _ h => h.append e.call)
      (fun cfg e v v' _ _ _ _ h hmove => h.move (List.mem_append_right _ List.mem_cons_self) hmove)
      (Guarded.of_forall fun _ _ => trivial) hinit
  rwa [Config.calls_steps, Config.calls_init, List.nil_append] at hrun

/-- Whatever the clients do: a value returned by `get(k, r)` was put by an earlier prewrite of
some transaction, and that transaction was committed by an earlier call at or below `r`. -/
theorem get_value_prewritten_and_committed (es : List Event) (e : Event) (k x : Bytes)
    (r : UInt64) (hcall : e.call = .get k r)
    (hreply : (e.exec (Config.init.steps es).store).1 = some (.ok (.value (some x)))) :
    ∃ s, (∃ c ∈ es.map Event.call, ∃ ms p ttl,
        c.prewriteArgs = some (s, ms, p, ttl) ∧ .put k x ∈ ms) ∧
      ∃ c ∈ es.map Event.call, ∃ ct ks, c.commitArgs = some (s, ct, ks) ∧ ct ≤ r := by
  obtain ⟨hwf, -⟩ := traced_steps es
  obtain ⟨-, htraced⟩ := traced_steps (es ++ [e])
  obtain ⟨-, ct, s, ⟨hle, hw, hop, -⟩, hdata⟩ := get_reply hwf (fun _ _ => trivial) hcall hreply
  have hstore : (Config.init.steps (es ++ [e])).store = (e.exec (Config.init.steps es).store).2 := by
    rw [Config.steps_append]
    rfl
  rw [hstore, List.map_append, List.map_singleton, hcall] at htraced
  -- the read itself is neither a prewrite nor a commit
  have hearlier : ∀ {c : Call}, c ∈ es.map Event.call ++ [.get k r] → c ≠ .get k r →
      c ∈ es.map Event.call := by
    intro c hc hne
    rcases List.mem_append.mp hc with hc | hc
    · exact hc
    · exact absurd (List.mem_singleton.mp hc) hne
  obtain ⟨c₁, hc₁, ms, p, ttl, hargs₁, hput⟩ := htraced.data k s x hdata
  obtain ⟨c₂, hc₂, ks, hargs₂⟩ := htraced.committed k s ct ⟨.put, hop, hw⟩
  refine ⟨s, ⟨c₁, hearlier hc₁ ?_, ms, p, ttl, hargs₁, hput⟩, c₂, hearlier hc₂ ?_, ct, ks, hargs₂,
    hle⟩
  · rintro rfl
    cases hargs₁
  · rintro rfl
    cases hargs₂

/-- One transaction, and a read after its commit. -/
theorem get_value_prewritten_and_committed_single :
    ∃ s, (∃ c ∈ [Call.prewrite 65536 [.put [1] [10]] [1] 3000, .commit 65536 65537 [[1]]],
        ∃ ms p ttl, c.prewriteArgs = some (s, ms, p, ttl) ∧ .put [1] [10] ∈ ms) ∧
      ∃ c ∈ [Call.prewrite 65536 [.put [1] [10]] [1] 3000, .commit 65536 65537 [[1]]],
        ∃ ct ks, c.commitArgs = some (s, ct, ks) ∧ ct ≤ 70000 :=
  get_value_prewritten_and_committed
    [{ call := .prewrite 65536 [.put [1] [10]] [1] 3000 }, { call := .commit 65536 65537 [[1]] }]
    { call := .get [1] 70000 } [1] [10] 70000 rfl (by rfl)

end AcidKv
