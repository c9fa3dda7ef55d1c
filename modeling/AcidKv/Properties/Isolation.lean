import AcidKv.Node.Calls
import AcidKv.Properties.Recovery
import AcidKv.Refine.Settling

/-!
# User data next to Raft state

Values and Raft records share the default partition.  A value stands under the user key followed by
its inverted start timestamp, and nothing keeps a client from choosing the two so that this is a
key of some region: then a prewrite overwrites Raft state, or adds an entry to a log, and a garbage
collection removes some.

The prewrites and the collection go from one key and start timestamp to the next: a mutation leaves
a lock, a lock becomes a record, and a record names the value that is collected with it.  If none
of these pairs is a key of the region, neither those of the run nor those that the store starts
with, the region is recovered as if nothing had been done.
-/

namespace AcidKv

open KeyEncoder LockResolver Coordinator Raft

/-- An item that neither touches the Raft state of region `r` nor leads to one that does. -/
def Harmless (r : UInt64) : BatchItem Part Bytes Bytes → Prop
  | .insert .default k _ => ¬ Owned r k
  | .remove .default k => ¬ Owned r k
  | .insert .lock k b => ∀ l, Lock.fromBytes b = .ok l → ¬ Owned r (encode k l.startTs)
  | .insert .write e b => ∀ k ts w, decode e = .ok (k, ts) → WriteRecord.fromBytes b = some w →
      ¬ Owned r (encode k w.startTs)
  | .remove .lock _ => True
  | .remove .write _ => True

/-- The locks and records of the store lead to no Raft state of region `r`. -/
structure Clean (r : UInt64) (st : Store) : Prop where
  locks : ∀ k b, st.get .lock k = some b → Harmless r (.insert .lock k b)
  writes : ∀ e b, st.get .write e = some b → Harmless r (.insert .write e b)

/-- And its Raft state is that of `st₀`. -/
structure Shielded (r : UInt64) (st₀ st : Store) : Prop extends Clean r st where
  raft : ∀ k, Owned r k → st.get .default k = st₀.get .default k

section

variable {r : UInt64} {st₀ st : Store} {T : UInt64 → Prop}

lemma Shielded.applyItem (h : Shielded r st₀ st) {i : BatchItem Part Bytes Bytes}
    (hi : Harmless r i) : Shielded r st₀ (st.applyItem i) := by
  -- an entry that is new is that of the item
  have hnew : ∀ {p k b}, p ≠ Part.default → (st.applyItem i).get p k = some b →
      (∀ b, st.get p k = some b → Harmless r (.insert p k b)) → Harmless r (.insert p k b) := by
    intro p k b hp hb hold
    rw [Keyspace.get_applyItem] at hb
    split_ifs at hb with hentry
    · cases i with
      | insert p' k' b' =>
          simp only [BatchItem.entry, Prod.mk.injEq] at hentry
          simp only [BatchItem.value, Option.some.injEq] at hb
          obtain ⟨rfl, rfl⟩ := hentry
          rw [← hb]
          exact hi
      | remove p' k' => cases hb
    · exact hold b hb
  refine ⟨⟨fun k b hb => hnew (by decide) hb (h.locks k),
    fun e b hb => hnew (by decide) hb (h.writes e)⟩, fun k hk => ?_⟩
  rw [Keyspace.get_applyItem]
  split_ifs with hentry
  · cases i with
    | insert p' k' b' =>
        simp only [BatchItem.entry, Prod.mk.injEq] at hentry
        obtain ⟨rfl, rfl⟩ := hentry
        exact absurd hk hi
    | remove p' k' =>
        simp only [BatchItem.entry, Prod.mk.injEq] at hentry
        obtain ⟨rfl, rfl⟩ := hentry
        exact absurd hk hi
  · exact h.raft k hk

lemma Shielded.apply (h : Shielded r st₀ st) {b : Batch} (hb : ∀ i ∈ b, Harmless r i) :
    Shielded r st₀ (st.apply b) := by
  induction b generalizing st with
  | nil => exact h
  | cons i b ih =>
      rw [List.forall_mem_cons] at hb
      exact ih (h.applyItem hb.1) hb.2

/-! ## The batches -/

/-- A record with a harmless start. -/
lemma harmless_settleBatch {k : Bytes} {s : UInt64} (h : ¬ Owned r (encode k s)) (ts : UInt64)
    (op : OpType) : ∀ i ∈ settleBatch k ts ⟨s, op⟩, Harmless r i := by
  intro i hi
  simp only [settleBatch, List.mem_cons, List.not_mem_nil, or_false] at hi
  rcases hi with rfl | rfl
  · intro k' ts' w' hdec hw'
    rw [decode_encode, Except.ok.injEq, Prod.mk.injEq] at hdec
    rw [WriteRecord.fromBytes_toBytes, Option.some.injEq] at hw'
    rwa [← hdec.1, ← hw']
  · exact trivial

lemma harmless_stageBatch {s : UInt64} {m : Mutation} (h : ¬ Owned r (encode m.key s)) (p : Bytes)
    (ttl : UInt64) : ∀ i ∈ stageBatch s p ttl m, Harmless r i := by
  have hop := m.opType_ne_rollback
  have hlock : Harmless r (.insert .lock m.key (Lock.mk p s ttl m.opType).toBytes) := by
    intro l hl
    rw [Lock.fromBytes_toBytes hop, Except.ok.injEq] at hl
    rwa [← hl]
  intro i hi
  cases m with
  | put k x =>
      simp only [stageBatch, List.mem_cons, List.not_mem_nil, or_false] at hi
      rcases hi with rfl | rfl
      · exact h
      · exact hlock
  | delete k =>
      simp only [stageBatch, List.mem_cons, List.not_mem_nil, or_false] at hi
      rw [hi]
      exact hlock

lemma harmless_gcLoop {sp : UInt64} {items : List (Bytes × Bytes)}
    (h : ∀ x ∈ items, Harmless r (.insert .write x.1 x.2)) (last : Option Bytes) (seen : Bool) :
    ∀ i ∈ (StorageEngine.gcLoop sp last seen items).1, Harmless r i := by
  intro i hi
  obtain ⟨x, hx, rfl | ⟨k, ts, w, hdec, hw, rfl⟩⟩ := StorageEngine.mem_gcLoop hi
  · exact trivial
  · exact h x hx k ts w hdec hw

/-! ## The handlers -/

/-- Settling a lock that leads to no Raft state leaves the store shielded. -/
lemma settling_shielded (r : UInt64) (st₀ : Store) :
    Settling (fun k s _ => ¬ Owned r (encode k s)) (Shielded r st₀) where
  locked h hg hl := h.locks _ _ hg _ hl
  rolledBack h hk := h.apply (harmless_settleBatch hk _ _)
  committed h hk _ := h.apply (harmless_settleBatch hk _ _)

/-- A handler that leaves the store shielded. -/
abbrev Shields {ε α : Type} (r : UInt64) (st₀ : Store) (x : Handler ε α) (st : Store) : Prop :=
  Keeps (Shielded r st₀) x st

lemma shields_prewrite {s : UInt64} {ms : List Mutation}
    (hms : ∀ m ∈ ms, ¬ Owned r (encode m.key s)) (h : Shielded r st₀ st) (p : Bytes)
    (ttl : UInt64) : Shields r st₀ (prewrite s ms p ttl) st := by
  induction ms generalizing st with
  | nil => exact h
  | cons m ms ih =>
      rw [List.forall_mem_cons] at hms
      refine keeps_checked (fun _ h => h) h (keeps_clearLockThen (settling_shielded r st₀) h m.key s
        fun st' h' => keeps_recheckLock h' m.key s) (fun _ _ h' => h') fun st' h' => ?_
      have hstaged := h'.apply (harmless_stageBatch hms.1 p ttl)
      exact ⟨hstaged, ih hms.2 hstaged⟩

lemma shields_stageLoop {s : UInt64} {ms : List Mutation}
    (hms : ∀ m ∈ ms, ¬ Owned r (encode m.key s)) (h : Shielded r st₀ st) (p : Bytes) (ttl : UInt64)
    {b : Batch} (hb : ∀ i ∈ b, Harmless r i) :
    (stageLoop s p ttl b ms).Sat (fun _ => True) (Shielded r st₀) (fun out st' =>
      Shielded r st₀ st' ∧ ∀ b', out = .ok b' → ∀ i ∈ b', Harmless r i) st := by
  induction ms generalizing st b with
  | nil =>
      refine ⟨h, ?_⟩
      rintro b' ⟨⟩
      exact hb
  | cons m ms ih =>
      rw [List.forall_mem_cons] at hms
      refine keeps_checked (fun _ h => h) h (keeps_clearLockThen (settling_shielded r st₀) h m.key s
        fun st' h' => h') ?_ fun st' h' => ?_
      · intro e st' h'
        refine ⟨h', ?_⟩
        rintro b' ⟨⟩
      · refine ih hms.2 h' fun i hi => ?_
        rcases List.mem_append.mp hi with hi | hi
        · exact hb i hi
        · exact harmless_stageBatch hms.1 p ttl i hi

lemma shields_batchPrewrite {s : UInt64} {ms : List Mutation}
    (hms : ∀ m ∈ ms, ¬ Owned r (encode m.key s)) (h : Shielded r st₀ st) (p : Bytes)
    (ttl : UInt64) : Shields r st₀ (batchPrewrite s ms p ttl) st := by
  cases ms with
  | nil => exact h
  | cons m ms =>
      simp only [Shields, batchPrewrite, Prog.sat_bind]
      refine (shields_stageLoop hms h p ttl fun i hi => absurd hi List.not_mem_nil).mono ?_
      rintro (e | b) st' ⟨h', hb⟩
      · exact h'
      · have hdone := h'.apply (hb b rfl)
        exact ⟨hdone, hdone⟩

lemma shields_gc {ε : Type} (h : Shielded r st₀ st) (sp : UInt64) :
    Shields r st₀ (StorageEngine.gcKeysOlderThan sp : Handler ε ℕ) st := by
  have hitems : ∀ x ∈ st.range .write [], Harmless r (.insert .write x.1 x.2) :=
    fun x hx => h.writes x.1 x.2 (Keyspace.mem_range.mp hx).1
  have hgone := h.apply (@harmless_gcLoop r sp _ hitems none false)
  simp only [Shields, StorageEngine.gcKeysOlderThan, Prog.sat_bind, Prog.sat_walk, Prog.then_ok]
  split_ifs
  · exact ⟨hgone, hgone⟩
  · exact h

end

/-! ## Runs -/

/-- The requests that write values or remove them: a prewrite in either form, or a collection. -/
def Call.WritesData (c : Call) : Prop := c.prewriteArgs.isSome ∨ ∃ sp, c = .gc sp

/-- None of the keys and timestamps that are prewritten makes a key of region `r`. -/
def Call.Avoids (r : UInt64) (c : Call) : Prop :=
  ∀ s ms p ttl, c.prewriteArgs = some (s, ms, p, ttl) → ∀ m ∈ ms, ¬ Owned r (encode m.key s)

lemma shields_handler {r : UInt64} {st₀ st : Store} {c : Call} (hc : c.WritesData)
    (hav : c.Avoids r) (h : Shielded r st₀ st) : Shields r st₀ c.handler st := by
  -- a reply on top changes nothing
  have hreply : ∀ {α : Type} {x : Handler TxnError α} {f : α → Reply}, Shields r st₀ x st →
      Shields r st₀ (do return f (← x) : Handler TxnError Reply) st := by
    intro α x f hx
    simp only [Shields, Prog.sat_bind]
    refine hx.mono ?_
    rintro (e | a) st' h'
    · exact h'
    · exact h'
  cases c with
  | prewrite s ms p ttl => exact hreply (shields_prewrite (hav s ms p ttl rfl) h p ttl)
  | batchPrewrite s ms p ttl => exact hreply (shields_batchPrewrite (hav s ms p ttl rfl) h p ttl)
  | gc sp => exact hreply (shields_gc h sp)
  | _ => rcases hc with hc | ⟨sp, hc⟩ <;> cases hc

lemma Shielded.exec {r : UInt64} {st₀ st : Store} {e : Event} (hc : e.call.WritesData)
    (hav : e.call.Avoids r) (h : Shielded r st₀ st) : Shielded r st₀ (e.exec st).2 := by
  have hsat := shields_handler hc hav h
  unfold Event.exec
  cases e.stop with
  | none => exact (hsat.run h fun _ => trivial).1
  | some n => exact hsat.stopAfter h (fun _ => trivial) n

/-- From any store, and for any prewrites and collections, cut off or not: if neither what they
mutate nor what the store holds leads to a key of the region, the region's Raft state is recovered
as without them. -/
theorem recovery_undisturbed (pb : Protobuf) (regionId : UInt64) (st : Store)
    (hclean : Clean regionId st) (es : List Event) (hcalls : ∀ e ∈ es, e.call.WritesData)
    (hav : ∀ e ∈ es, e.call.Avoids regionId) :
    RaftStorage.new pb (Config.steps ⟨[], st⟩ es).store regionId
      = RaftStorage.new pb st regionId := by
  have hguard : Guarded Config.step (fun _ e => e.call.WritesData ∧ e.call.Avoids regionId)
      ⟨[], st⟩ es := Guarded.of_forall fun e he => ⟨hcalls e he, hav e he⟩
  have hrun := @Guarded.invariant _ _ _ _ _ _ (fun c => Shielded regionId st c.store) hguard
    (fun c e h hok => h.exec hok.1 hok.2) ⟨hclean, fun _ _ => rfl⟩
  exact new_congr hrun.raft

/-- The store of a region with one log entry. -/
def oneEntry : Store := (appendStep Protobuf.plain created [blank 1 1]).2

lemma clean_oneEntry (r : UInt64) : Clean r oneEntry := by
  have hget : ∀ p k, p ≠ Part.default → oneEntry.get p k = none := by
    intro p k hp
    have hsame : oneEntry.get p k = Keyspace.empty.get p k :=
      get_appendBatch_of_ne (fun hd => absurd hd hp) _
    rw [hsame, Keyspace.get_empty]
  refine ⟨fun k b hb => ?_, fun e b hb => ?_⟩
  · rw [hget _ _ (by decide)] at hb
    cases hb
  · rw [hget _ _ (by decide)] at hb
    cases hb

/-- A prewrite and a collection next to that log. -/
theorem recovery_undisturbed_one :
    RaftStorage.new Protobuf.plain (Config.steps ⟨[], oneEntry⟩
        [{ call := .prewrite 65536 [.put [1] [10]] [1] 3000 }, { call := .gc 65540 }]).store 1
      = RaftStorage.new Protobuf.plain oneEntry 1 := by
  refine recovery_undisturbed Protobuf.plain 1 oneEntry (clean_oneEntry 1) _ ?_ ?_
  · simp [Call.WritesData, Call.prewriteArgs]
  · simp only [List.mem_cons, List.not_mem_nil, or_false, forall_eq_or_imp, forall_eq]
    refine ⟨?_, ?_⟩
    · rintro s ms p ttl ⟨⟩
      decide
    · rintro s ms p ttl ⟨⟩

/-- A put whose user key is the prefix of the log, and whose value is an entry: it is recovered as
the last entry of the log. -/
theorem recovery_forged :
    (RaftStorage.new Protobuf.plain oneEntry 1).lastIndex = 1 ∧
      (RaftStorage.new Protobuf.plain (Config.steps ⟨[], oneEntry⟩
        [{ call := .prewrite 65536 [.put (entryPrefix 1) (Protobuf.entryCode.enc (blank 9 9))]
            (entryPrefix 1) 3000 }]).store 1).lastIndex = 9 := by
  refine ⟨by decide, by decide⟩

end AcidKv
