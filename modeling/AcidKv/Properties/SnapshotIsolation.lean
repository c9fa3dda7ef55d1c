import AcidKv.Lib.Snapshot
import AcidKv.Properties.Promises
import AcidKv.Properties.Provenance

/-!
# The node is a snapshot isolated database

The three partitions stand for one set of committed transactions: those whose primary key has a Put
or Delete record, each with all that its prewrite has asked for (`committedTxns`).  A transaction
enters the set with the batch that commits its primary key.  The records of its other keys may come
much later, and by the hand of a reader, but no read takes notice: where the record is missing the
lock still stands, and a read does not return past it.

So whatever a `get` has returned in a run, and every pair that a `scan` has returned, is what the set
says about the key at the timestamp of the read, the set being that of the end of the run
(`Database.SnapshotIsolated`).
-/

namespace AcidKv

open LockResolver Database

/-! ## The database behind the partitions -/

/-- What a mutation leaves on its key. -/
def Mutation.outcome : Mutation → Option Bytes
  | .put _ value => some value
  | .delete _ => none

/-- What a transaction with these mutations writes. -/
def writesOf (ms : List Mutation) (k : Bytes) : Option (Option Bytes) :=
  (ms.find? fun m => m.key = k).map Mutation.outcome

lemma writesOf_isSome {ms : List Mutation} {k : Bytes} :
    (writesOf ms k).isSome ↔ ∃ m ∈ ms, m.key = k := by
  simp [writesOf]

/-- A key that is mutated once is left as its mutation says. -/
lemma writesOf_of_mem {ms : List Mutation} (honce : (ms.map Mutation.key).Nodup) {m : Mutation}
    (hm : m ∈ ms) : writesOf ms m.key = some m.outcome := by
  have hfind : (ms.find? fun m' => m'.key = m.key) = some m := by
    obtain ⟨m', hm'⟩ : ∃ m', (ms.find? fun m' => m'.key = m.key) = some m' :=
      Option.isSome_iff_exists.mp (List.find?_isSome.mpr ⟨m, hm, by simp⟩)
    have hkey : m'.key = m.key := by simpa using List.find?_some hm'
    rw [hm', List.inj_on_of_nodup_map honce (List.mem_of_find?_eq_some hm') hm hkey]
  rw [writesOf, hfind]
  rfl

/-- The transactions whose primary key is committed, with what their prewrites ask for. -/
def committedTxns (calls : List Call) (v : View) : Database UInt64 Bytes Bytes :=
  {T | ∃ c ∈ calls, ∃ ms p ttl, c.prewriteArgs = some (T.start, ms, p, ttl) ∧
    T.writes = writesOf ms ∧ v.Committed p T.start T.commit}

/-! ## Prewrites and records -/

/-- What the records say about the prewrites they go back to. -/
structure Ledger (log : List Entry) (calls : List Call) (v : View) : Prop where
  one : ∀ c ∈ calls, ∀ c' ∈ calls, ∀ s ms p ttl ms' p' ttl',
    c.prewriteArgs = some (s, ms, p, ttl) → c'.prewriteArgs = some (s, ms', p', ttl') →
    ms = ms' ∧ p = p'
  nodup : ∀ c ∈ calls, ∀ s ms p ttl, c.prewriteArgs = some (s, ms, p, ttl) →
    (ms.map Mutation.key).Nodup
  locks : LocksFrom calls v
  acked : ∀ k s ct, v.Committed k s ct → Acked log s
  deletes : ∀ k ct s, v.write k ct = some ⟨s, .delete⟩ →
    ∃ c ∈ calls, ∃ p m, c.Prewrites s p m ∧ m.key = k ∧ m.opType = .delete

section

variable {U : Set Bytes} {T : UInt64 → Prop} {c : Call} {v₀ v v' : View} {log : List Entry}
  {calls : List Call}

lemma Ledger.arrive (hfol : Follows log calls c) (hsafe : Protected T log calls v c)
    (h : Ledger log calls v) : Ledger log (calls ++ [c]) v where
  one := by
    intro c₁ h₁ c₂ h₂ s ms p ttl ms' p' ttl' hargs hargs'
    rcases List.mem_append.mp h₁ with hold₁ | hnew₁
    · rcases List.mem_append.mp h₂ with hold₂ | hnew₂
      · exact h.one c₁ hold₁ c₂ hold₂ s ms p ttl ms' p' ttl' hargs hargs'
      · obtain rfl := List.mem_singleton.mp hnew₂
        exact absurd ⟨c₁, hold₁, ms, ttl, hargs⟩ (hfol.once s ms' p' ttl' hargs' p)
    · obtain rfl := List.mem_singleton.mp hnew₁
      rcases List.mem_append.mp h₂ with hold₂ | hnew₂
      · exact absurd ⟨c₂, hold₂, ms', ttl', hargs'⟩ (hfol.once s ms p ttl hargs p')
      · obtain rfl := List.mem_singleton.mp hnew₂
        rw [hargs] at hargs'
        cases hargs'
        exact ⟨rfl, rfl⟩
  nodup := by
    intro c' hc' s ms p ttl hargs
    rcases List.mem_append.mp hc' with hold | hnew
    · exact h.nodup c' hold s ms p ttl hargs
    · obtain rfl := List.mem_singleton.mp hnew
      exact hsafe.nodup s ms p ttl hargs
  locks := h.locks.append c
  acked := h.acked
  deletes := by
    intro k ct s hw
    obtain ⟨c', hc', hfrom⟩ := h.deletes k ct s hw
    exact ⟨c', List.mem_append_left _ hc', hfrom⟩

lemma Ledger.move (hfol : Follows log calls c) (hc : c ∈ calls ++ [c])
    (h : Ledger log (calls ++ [c]) v) (hmove : Move U T c v₀ v v') :
    Ledger log (calls ++ [c]) v' where
  one := h.one
  nodup := h.nodup
  locks := h.locks.move hc hmove
  acked := by
    intro k s ct hcom
    rcases hmove.committed_origin hcom with hold | ⟨-, -, ⟨ks, hargs, -⟩ | hfwd⟩
    · exact h.acked k s ct hold
    · exact (hfol.commit s ct ks hargs).2.1
    · obtain ⟨l, lr, -, -, -, -, hp⟩ := hfwd
      exact h.acked _ s ct hp
  deletes := by
    have hlock : ∀ {k l s}, v.lock k = some l → l.startTs = s → l.op = .delete →
        ∃ c' ∈ calls ++ [c], ∃ p m, c'.Prewrites s p m ∧ m.key = k ∧ m.opType = .delete := by
      rintro k l s hl rfl hop
      obtain ⟨c', hc', p, m, hpre, hk, hm, -⟩ := h.locks k l hl
      exact ⟨c', hc', p, m, hpre, hk, hm.trans hop⟩
    intro k ct s hw
    rcases hmove.write_origin hw with hold | hnew
    · exact h.deletes k ct s hold
    · cases hnew with
      | commit _ _ hl hs hop _ _ => exact hlock hl hs hop.symm
      | forward hr _ hl hs hop _ _ _ =>
          -- a reader rolls forward with Put, so this was somebody else
          rcases hr.op with heq | heq
          · exact hlock hl hs (heq.symm.trans hop.symm)
          · rw [heq] at hop
            cases hop
      | back _ _ hw' _ _ => cases hw'
      | mark _ _ hw' _ => cases hw'

lemma Ledger.reply (h : Ledger log calls v) (en : Entry) : Ledger (log ++ [en]) calls v where
  one := h.one
  nodup := h.nodup
  locks := h.locks
  acked := by
    intro k s ct hcom
    obtain ⟨en', hen', hack⟩ := h.acked k s ct hcom
    exact ⟨en', List.mem_append_left _ hen', hack⟩
  deletes := h.deletes

theorem ledger_steps {es : List Event}
    (h : Guarded Config.step (fun cfg e => Follows cfg.log cfg.calls e.call ∧
      Protected e.Reading cfg.log cfg.calls (view cfg.store) e.call) Config.init es) :
    Ledger (Config.init.steps es).log (Config.init.steps es).calls
      (view (Config.init.steps es).store) := by
  refine (@log_invariant Set.univ _ Ledger (fun _ _ _ _ _ => trivial) ?_ ?_ ?_ _ _ h
    ⟨wf_empty _, ?_, ?_, locksFrom_init _, ?_, ?_⟩).2
  · intro cfg e hok hinv
    exact hinv.arrive hok.1 hok.2
  · intro cfg e v v' hok _ _ _ hinv hmove
    exact hinv.move hok.1 (List.mem_append_right _ List.mem_cons_self) hmove
  · intro cfg e v r _ _ _ hinv
    exact hinv.reply _
  · intro c hc
    cases hc
  · intro c hc
    cases hc
  · rintro k s ct ⟨op, -, hw⟩
    simp [Config.init] at hw
  · intro k ct s hw
    simp [Config.init] at hw

/-- Among prefix-free keys protection is all that atomicity asks for. -/
lemma Protected.atomicSafe {st : Store} (hU : PrefixFree U) (hwf : WF U st)
    (hlocks : LocksFrom calls (view st))
    (hprimary : ∀ s p, PrimaryOf calls s p → Lock.storedKey p = p ∧ p ∈ U)
    (h : Protected T log calls (view st) c) : AtomicSafe T log calls (view st) c := by
  have hof : ∀ {k l}, (view st).lock k = some l → PrimaryOf calls l.startTs l.primaryKey := by
    intro k l hl
    obtain ⟨c', hc', p, m, ⟨ms, ttl, hargs, -⟩, -, -, hp⟩ := hlocks k l hl
    have hp' : PrimaryOf calls l.startTs p := ⟨c', hc', ms, ttl, hargs⟩
    rw [hp, (hprimary _ p hp').1]
    exact hp'
  refine ⟨h.stored, ?_, ?_, h.inTime, ?_, ?_⟩
  · intro k l lr _ hl ct _
    exact exposed_of_prefixFree hwf hU (hprimary _ _ (hof hl)).2 ct
  · intro t k _ s ct hp _ _
    exact exposed_of_prefixFree hwf hU (hprimary s k hp).2 ct
  · intro k l now hc hl hk
    exact absurd (h.asked k l.startTs _ hc (hof hl)) hk
  · intro s ct p rest k hc _ _
    exact h.batch s ct p rest hc

end

/-- The primary keys that the prewrites of a run name are keys of the run. -/
lemma primaryOf_mem_runKeys {es : List Event} {s : UInt64} {p : Bytes}
    (h : PrimaryOf (es.map Event.call) s p) : p ∈ RunKeys es := by
  obtain ⟨c, hc, ms, ttl, hargs⟩ := h
  obtain ⟨e, he, rfl⟩ := List.mem_map.mp hc
  refine ⟨e, he, ?_⟩
  cases hcall : e.call with
  | prewrite _ _ _ _ => rw [hcall] at hargs; cases hargs; exact List.mem_cons_self
  | batchPrewrite _ _ _ _ => rw [hcall] at hargs; cases hargs; exact List.mem_cons_self
  | _ => rw [hcall] at hargs; cases hargs

/-- Protected requests on prefix-free keys leave transactions whole. -/
theorem atomic_of_protected {es : List Event} (hkeys : PrefixFree (RunKeys es))
    (h : Guarded Config.step (fun cfg e => Follows cfg.log cfg.calls e.call ∧
      Protected e.Reading cfg.log cfg.calls (view cfg.store) e.call) Config.init es) :
    Atomic (Config.init.steps es).log (Config.init.steps es).calls
      (view (Config.init.steps es).store) := by
  refine (atomic_steps (guarded_iff_forall_split.mpr fun done e rest hes => ?_)).2
  have hsplit := guarded_iff_forall_split.mp h
  obtain ⟨hfol, hsafe⟩ := hsplit done e rest hes
  have hsub : RunKeys done ⊆ RunKeys es := by
    rintro k ⟨e', he', hk⟩
    exact ⟨e', hes ▸ List.mem_append_left _ he', hk⟩
  have hcalls : (Config.init.steps done).calls = done.map Event.call := by simp
  refine ⟨hfol, hsafe.atomicSafe hkeys ((wf_runKeys done).mono hsub) ?_ ?_⟩
  · change LocksFrom (Config.init.steps done).calls _
    rw [hcalls]
    exact (locksFrom_steps done).2
  · intro s p hp
    change PrimaryOf (Config.init.steps done).calls s p at hp
    rw [hcalls] at hp
    refine ⟨?_, hsub (primaryOf_mem_runKeys hp)⟩
    obtain ⟨c, hc, ms, ttl, hargs⟩ := hp
    obtain ⟨e', he', rfl⟩ := List.mem_map.mp hc
    obtain ⟨done', rest', rfl⟩ := List.append_of_mem he'
    refine (hsplit done' e' (rest' ++ e :: rest) ?_).2.stored s ms p ttl hargs
    rw [hes, List.append_assoc, List.cons_append]

/-! ## Snapshot isolation -/

namespace Timeline

/-- The database that the node of a timeline stands for. -/
def database (t : Timeline) : Database UInt64 Bytes Bytes :=
  committedTxns t.config.calls (view t.config.store)

/-- A read of the timeline at `r` has returned `x` for `k`. -/
def HasRead (t : Timeline) (k : Bytes) (r : UInt64) (x : Option Bytes) : Prop :=
  ∃ en ∈ t.config.log, en.Read k r x

end Timeline

/-- All that is known at the end of a run. -/
structure Overview (U : Set Bytes) (t : Timeline) : Prop extends Kept U t where
  ledger : Ledger t.config.log t.config.calls (view t.config.store)
  atomic : Atomic t.config.log t.config.calls (view t.config.store)
  fresh : Fresh (view t.config.store)
  disjoint : DisjointIntervals (view t.config.store)
  traced : Traced t.config.calls (view t.config.store)

lemma overview_steps {as : List Action}
    (h : Guarded Timeline.step Protocol Timeline.init as)
    (hkeys : PrefixFree (RunKeys (served as))) :
    Overview (RunKeys (served as)) (Timeline.init.steps as) := by
  have hkept := kept_steps hkeys h fun e he k hk => ⟨e, he, hk⟩
  have hserved : Guarded Config.step (fun cfg e => Follows cfg.log cfg.calls e.call ∧
      Protected e.Reading cfg.log cfg.calls (view cfg.store) e.call) Config.init (served as) :=
    Timeline.guarded_served (fun t e hok => ⟨hok.follows e rfl, hok.safe e rfl⟩) h
  have hconfig : (Timeline.init.steps as).config = Config.init.steps (served as) :=
    Timeline.config_steps Timeline.init as
  obtain ⟨-, hfresh, hdisjoint⟩ := disjoint_steps hkeys (hserved.imp fun _ _ hok => hok.2.forwards)
  obtain ⟨-, htraced⟩ := traced_steps (served as)
  refine ⟨hkept, ?_, ?_, ?_, ?_, ?_⟩
  · rw [hconfig]
    exact ledger_steps hserved
  · rw [hconfig]
    exact atomic_of_protected hkeys hserved
  · rw [hconfig]
    exact hfresh
  · rw [hconfig]
    exact hdisjoint
  · rw [hconfig, Config.calls_steps, Config.calls_init, List.nil_append]
    exact htraced

namespace Overview

variable {U : Set Bytes} {t : Timeline} (h : Overview U t)

include h

/-- A transaction commits at one timestamp. -/
lemma commit_unique {k k' : Bytes} {s ct ct' : UInt64}
    (hcom : (view t.config.store).Committed k s ct)
    (hcom' : (view t.config.store).Committed k' s ct') : ct = ct' :=
  h.single s ct ct' (h.stamped.committed k s ct hcom) (h.stamped.committed k' s ct' hcom')

/-- **Every key of a committed transaction is committed with it, or still locked.** -/
lemma locked_or_committed {c : Call} {s ct ttl : UInt64} {ms : List Mutation} {p : Bytes}
    {m : Mutation} (hc : c ∈ t.config.calls) (hargs : c.prewriteArgs = some (s, ms, p, ttl))
    (hm : m ∈ ms) (hcom : (view t.config.store).Committed p s ct) :
    (view t.config.store).LockedBy m.key s ∨ (view t.config.store).Committed m.key s ct := by
  obtain ⟨en, hen, ms', p', ttl', hargs', hreply⟩ := h.ledger.acked p s ct hcom
  obtain ⟨rfl, rfl⟩ := h.ledger.one c hc en.event.call (List.mem_map_of_mem hen) s ms p ttl ms' p'
    ttl' hargs hargs'
  rcases h.promised.prewritten en hen s ms p ttl' hargs' hreply m hm with hlocked | ⟨ct', hcom'⟩ |
    hback
  · exact Or.inl hlocked
  · rw [h.commit_unique hcom hcom']
    exact Or.inr hcom'
  · exact absurd hback (h.atomic.whole p m.key s ct hcom)

/-- A record belongs to a transaction of the database. -/
lemma exists_txn {k : Bytes} {s ct : UInt64} (hcom : (view t.config.store).Committed k s ct) :
    ∃ c ∈ t.config.calls, ∃ ms p ttl, c.prewriteArgs = some (s, ms, p, ttl) ∧
      (⟨s, ct, writesOf ms⟩ : CommittedTxn UInt64 Bytes Bytes) ∈ t.database := by
  obtain ⟨op, hop, hw⟩ := hcom
  obtain ⟨p, c, hc, ms, ttl, hargs⟩ := h.atomic.records k ct s op hw
  obtain ⟨ct', hprimary⟩ := h.atomic.primary s p k ct ⟨c, hc, ms, ttl, hargs⟩ ⟨op, hop, hw⟩
  have hct : ct = ct' := h.commit_unique ⟨op, hop, hw⟩ hprimary
  exact ⟨c, hc, ms, p, ttl, hargs, c, hc, ms, p, ttl, hargs, rfl, hct ▸ hprimary⟩

/-- A Put record with its value is a version of the database. -/
lemma version_of_put {k x : Bytes} {s ct : UInt64}
    (hw : (view t.config.store).write k ct = some ⟨s, .put⟩)
    (hx : (view t.config.store).data k s = some x) : t.database.Version k ct (some x) := by
  obtain ⟨c, hc, ms, p, ttl, hargs, hmem⟩ := h.exists_txn ⟨.put, OpType.noConfusion, hw⟩
  obtain ⟨c', hc', ms', p', ttl', hargs', hput⟩ := h.traced.data k s x hx
  obtain ⟨rfl, -⟩ := h.ledger.one c hc c' hc' s ms p ttl ms' p' ttl' hargs hargs'
  exact ⟨_, hmem, rfl, writesOf_of_mem (h.ledger.nodup c hc s ms p ttl hargs) hput⟩

lemma version_of_delete {k : Bytes} {s ct : UInt64}
    (hw : (view t.config.store).write k ct = some ⟨s, .delete⟩) :
    t.database.Version k ct none := by
  obtain ⟨c, hc, ms, p, ttl, hargs, hmem⟩ := h.exists_txn ⟨.delete, OpType.noConfusion, hw⟩
  obtain ⟨c', hc', p', m, ⟨ms', ttl', hargs', hm⟩, rfl, hop⟩ := h.ledger.deletes k ct s hw
  obtain ⟨rfl, -⟩ := h.ledger.one c hc c' hc' s ms p ttl ms' p' ttl' hargs hargs'
  refine ⟨_, hmem, rfl, ?_⟩
  show writesOf ms m.key = some none
  rw [writesOf_of_mem (h.ledger.nodup c hc s ms p ttl hargs) hm]
  cases m with
  | put key value => cases hop
  | delete key => rfl

/-- Where a read is frozen, the versions at or below it have their records. -/
lemma record_of_version {k : Bytes} {r ct : UInt64} {x : Option Bytes}
    (hfrozen : Frozen t.drawn k r (view t.config.store)) (hversion : t.database.Version k ct x)
    (hle : ct ≤ r) : ∃ s, (view t.config.store).Committed k s ct := by
  obtain ⟨⟨s, ct', writes⟩, ⟨c, hc, ms, p, ttl, hargs, rfl, hcom⟩, rfl, hx⟩ := hversion
  obtain ⟨m, hm, rfl⟩ := writesOf_isSome.mp (Option.isSome_of_eq_some hx)
  rcases h.locked_or_committed hc hargs hm hcom with ⟨l, hl, hs⟩ | hcom'
  · have hdrawn := h.stamped.committed p s ct' hcom
    exact absurd hle (UInt64.not_le.mpr (hfrozen l hl ct' (hs ▸ hdrawn)))
  · exact ⟨s, hcom'⟩

/-- A read that the records give is the read of the snapshot. -/
lemma readsAt {k : Bytes} {r : UInt64} {x : Option Bytes}
    (hfrozen : Frozen t.drawn k r (view t.config.store))
    (hreads : ReadsTo (view t.config.store) k r x) : t.database.ReadsAt k r x := by
  -- no version stands between the newest record and `r`
  have hlast : ∀ {ct w}, Newest (view t.config.store) k r ct w →
      ∀ ct' y, t.database.Version k ct' y → ct' ≤ r → ct' ≤ ct := by
    intro ct w hnew ct' y hversion hle
    obtain ⟨s, op, hop, hw⟩ := h.record_of_version hfrozen hversion hle
    by_contra hlt
    exact hop (hnew.2.2.2 ct' _ hw (UInt64.not_le.mp hlt) hle)
  cases x with
  | some x =>
      obtain ⟨ct, s, hnew, hdata⟩ := hreads
      exact Or.inl ⟨ct, h.version_of_put hnew.2.1 hdata, hnew.1, hlast hnew⟩
  | none =>
      rcases hreads with ⟨ct, s, hnew⟩ | hnone
      · exact Or.inl ⟨ct, h.version_of_delete hnew.2.1, hnew.1, hlast hnew⟩
      · refine Or.inr ⟨rfl, fun ct y hversion hle => ?_⟩
        obtain ⟨s, op, hop, hw⟩ := h.record_of_version hfrozen hversion hle
        exact hop (hnone ct _ hw hle)

/-- First committer wins: of two transactions on one key, one is over before the other starts. -/
lemma conflictFree : t.database.ConflictFree := by
  rintro ⟨s, ct, writes⟩ ⟨c, hc, ms, p, ttl, hargs, rfl, hcom⟩ ⟨s', ct', writes'⟩
    ⟨c', hc', ms', p', ttl', hargs', rfl, hcom'⟩ hne ⟨k, hk, hk'⟩
  obtain ⟨m, hm, rfl⟩ := writesOf_isSome.mp hk
  obtain ⟨m', hm', hkey⟩ := writesOf_isSome.mp hk'
  have hs : s ≠ s' := by
    rintro rfl
    obtain ⟨rfl, rfl⟩ := h.ledger.one c hc c' hc' s ms p ttl ms' p' ttl' hargs hargs'
    obtain rfl : ct = ct' := h.commit_unique hcom hcom'
    exact hne rfl
  have hstate' := h.locked_or_committed hc' hargs' hm' hcom'
  rw [hkey] at hstate'
  rcases h.locked_or_committed hc hargs hm hcom with ⟨l, hl, rfl⟩ | hrec
  · rcases hstate' with ⟨l', hl', rfl⟩ | hrec'
    · exact absurd (congrArg Lock.startTs (Option.some.inj (hl.symm.trans hl'))) hs
    · exact Or.inr (h.fresh m.key l s' ct' hl hrec')
  · rcases hstate' with ⟨l', hl', rfl⟩ | hrec'
    · exact Or.inl (h.fresh m.key l' s ct hl' hrec)
    · exact h.disjoint m.key s ct s' ct' hrec hrec' hs

end Overview

/-- **Snapshot isolation.**  In every run of clients that keep to the protocol, with protected
requests and keys none of which is a proper prefix of another: the committed transactions and the
reads that have returned are snapshot isolated, every acknowledged commit is among the
transactions, and every one of these was committed by a request. -/
theorem node_snapshot_isolated (as : List Action)
    (hrun : Guarded Timeline.step Protocol Timeline.init as)
    (hkeys : PrefixFree (RunKeys (served as))) :
    SnapshotIsolated (Timeline.init.steps as).database (Timeline.init.steps as).HasRead ∧
      (∀ en ∈ (Timeline.init.steps as).config.log, ∀ s ct ks rep,
        en.event.call.commitArgs = some (s, ct, ks) → en.reply = some (.ok rep) →
        ∃ T ∈ (Timeline.init.steps as).database, T.start = s ∧ T.commit = ct) ∧
      ∀ T ∈ (Timeline.init.steps as).database,
        ∃ c ∈ (Timeline.init.steps as).config.calls, ∃ ks,
          c.commitArgs = some (T.start, T.commit, ks) := by
  have h := overview_steps hrun hkeys
  refine ⟨⟨?_, h.conflictFree, ?_⟩, ?_, ?_⟩
  · rintro T ⟨c, hc, ms, p, ttl, hargs, hwrites, hcom⟩
    exact h.atomic.forward p _ _ hcom
  · rintro k r x ⟨en, hen, hread⟩
    obtain ⟨-, hfrozen, hreads⟩ := h.promised.read en hen k r x hread
    exact h.readsAt hfrozen hreads
  · intro en hen s ct ks rep hargs hreply
    obtain ⟨p, hcom⟩ := h.promised.committed en hen s ct ks rep hargs hreply
    obtain ⟨c, hc, ms, p', ttl, -, hmem⟩ := h.exists_txn hcom
    exact ⟨_, hmem, rfl, rfl⟩
  · rintro T ⟨c, hc, ms, p, ttl, hargs, hwrites, hcom⟩
    exact h.traced.committed p T.start T.commit hcom

/-- A commit that stops behind its primary key. -/
def stoppedCommit : List Action :=
  [.draw 65536 .start,
    .serve { call := .prewrite 65536 [.put [1] [10], .put [2] [20]] [1] 3000 },
    .draw 65537 (.commit 65536),
    .serve { call := .commit 65536 65537 [[1], [2]], stop := some 1 }]

lemma protocol_stoppedCommit : Guarded Timeline.step Protocol Timeline.init stoppedCommit := by
  refine ⟨protocol_draw (by decide) (by simp [Timeline.init]),
    protocol_serve ⟨?_, ?_, ?_, ?_⟩ (by simp [Call.readTs]) (follows_prewrite _ _ _ _)
      ⟨?_, ?_, ?_, ?_, ?_, ?_⟩,
    protocol_draw (by decide) (by simp [Timeline.step, Timeline.init]),
    protocol_serve ⟨?_, ?_, ?_, ?_⟩ (by simp [Call.readTs])
      (follows_commit (by decide) ⟨_, List.mem_cons_self, _, _, _, rfl, rfl⟩
        ⟨_, List.mem_cons_self, _, _, rfl⟩ _)
      (protected_of_inTime rfl (by simp) (by simp) fun k l lr lp t t' hr => hr.elim), trivial⟩
  -- the prewrite finds an empty store
  · rintro s ms p ttl ⟨⟩
    exact ⟨by decide, by simp [Timeline.step, Timeline.init]⟩
  · rintro s ct ks ⟨⟩
  · rintro s ks ⟨⟩
  · rintro sp ⟨⟩
  · rintro s ms p ttl ⟨⟩
    exact Lock.storedKey_eq (by decide)
  · rintro s ms p ttl ⟨⟩
    decide
  · rintro k s p ⟨⟩
  · rintro s ct p rest ⟨⟩
  · intro k l lr lp t t' _ hl
    simp [Timeline.step, Timeline.init, Config.init] at hl
  · intro s ms p ttl _ m _ _ l hl
    simp [Timeline.step, Timeline.init, Config.init] at hl
  -- the commit has its timestamp
  · rintro s ms p ttl ⟨⟩
  · rintro s ct ks ⟨⟩
    decide
  · rintro s ks ⟨⟩
  · rintro sp ⟨⟩

/-- Reads of the other key after it. -/
def stoppedThenSnapshot : List Action :=
  stoppedCommit ++ [.draw 65540 .read, .serve { call := .get [2] 65540 },
    .serve { call := .scan [1] [] 10 65540 }]

theorem node_snapshot_isolated_stopped :
    (Timeline.init.steps stoppedThenSnapshot).HasRead [2] 65540 (some [20]) ∧
      (Timeline.init.steps stoppedThenSnapshot).database.ReadsAt [2] 65540 (some [20]) ∧
      (Timeline.init.steps stoppedThenSnapshot).HasRead [1] 65540 (some [10]) ∧
      (Timeline.init.steps stoppedThenSnapshot).database.ReadsAt [1] 65540 (some [10]) := by
  have hget : (Timeline.init.steps stoppedThenSnapshot).HasRead [2] 65540 (some [20]) :=
    ⟨⟨{ call := .get [2] 65540 }, some (.ok (.value (some [20])))⟩,
      List.mem_cons_of_mem _ (List.mem_cons_of_mem _ List.mem_cons_self), .get rfl rfl⟩
  have hscan : (Timeline.init.steps stoppedThenSnapshot).HasRead [1] 65540 (some [10]) :=
    ⟨⟨{ call := .scan [1] [] 10 65540 }, some (.ok (.pairs [([1], [10]), ([2], [20])]))⟩,
      List.mem_cons_of_mem _ (List.mem_cons_of_mem _ (List.mem_cons_of_mem _ List.mem_cons_self)),
      .scan rfl rfl List.mem_cons_self⟩
  have hreads := (node_snapshot_isolated stoppedThenSnapshot
    (Timeline.guarded_steps.mpr ⟨protocol_stoppedCommit,
      protocol_draw (by decide) (by simp),
      protocol_read rfl ⟨.read, by decide⟩ (protected_of_inTime rfl (by simp) (by simp) ?_),
      protocol_read rfl ⟨.read, by decide⟩ (protected_of_inTime rfl (by simp) (by simp) ?_),
      trivial⟩)
    (prefixFree_runKeys (by decide))).1.reads
  · exact ⟨hget, hreads _ _ _ hget, hscan, hreads _ _ _ hscan⟩
  -- the reads find the primary key settled
  · rintro k l lr lp t t' ⟨rfl, -, -⟩ hl hk hlp
    cases hl
    cases hlp
  · intro k l lr lp t t' _ hl
    cases hl

end AcidKv
