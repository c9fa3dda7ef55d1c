import AcidKv.Refine.Careful

/-!
# Who touches a lock

Handlers are careful (`handler_careful`), so a lock is safe from other transactions as long as those
who touch it have read it in time (`UpToDate`).  Where they have read the entry too early, it is
not: of two prewrites that both find a key free, the slower one overwrites the lock of the other,
which may already have returned `Ok`.
-/

namespace AcidKv

open LockResolver

/-! ## Locks of finished prewrites -/

/-- A lock that stands on `k` and whose transaction has had a prewrite of `k` return `Ok`. -/
def Granted (P : Workers) (k : Bytes) (l : Lock) : Prop :=
  (view P.store).lock k = some l ∧
    ∃ th ∈ P.threads, th.job.Mutates l.startTs k ∧ th.prog = .pure .done

/-- What a handler knows of the lock entry of `k` still holds when a lock of `u` stands there: it
has seen nothing but locks of `u`, or it is a prewrite of `u` itself that has also seen the entry
empty. -/
def UpToDate (c : Call) (h : Trace) (k : Bytes) (u : UInt64) : Prop :=
  (∀ x ∈ known h k, Shows u x) ∨
    c.Mutates u k ∧ (views h .lock k).reads ≠ [] ∧ ∀ x ∈ known h k, x = none ∨ Shows u x

/-- Whoever is entitled to touch an entry, and has an up-to-date view of it, acts for the
transaction whose lock stands there. -/
lemma Entitled.eq_of_upToDate {c : Call} {h : Trace} {k : Bytes} {u u' : UInt64}
    (hent : Entitled c h k u') (hcurrent : UpToDate c h k u) : u' = u := by
  rcases hcurrent with hall | ⟨hmut, hreads, hall⟩
  · cases hent with
    | shown hx hs => exact hs.unique (hall _ hx)
    | free _ hx => exact absurd (hall _ hx) (not_shows_none u)
    | emptied he => exact absurd (hall _ he.mem) (not_shows_none u)
  · cases hent with
    | shown hx hs =>
        rcases hall _ hx with rfl | hs'
        · exact absurd hs (not_shows_none u')
        · exact hs.unique hs'
    | free hmut' _ =>
        obtain ⟨ms, p, ttl, hargs⟩ := hmut.args
        obtain ⟨ms', p', ttl', hargs'⟩ := hmut'.args
        rw [hargs] at hargs'
        cases hargs'
        rfl
    | emptied he =>
        have hviews : views h .lock k = ⟨some none, []⟩ := he
        rw [hviews] at hreads
        exact absurd rfl hreads

theorem careful_after (st : Store) (cs : Schedule) :
    ((Workers.idle st).after cs).Verified Careful fun _ _ _ => True := by
  refine @Guarded.invariant _ _ (Pool.next Call.handler) (fun _ _ => True) _ cs
    (fun P => P.Verified Careful fun _ _ _ => True) (Guarded.of_forall fun _ _ => trivial) ?_ ?_
  · intro P c hP _
    exact Pool.always_next hP fun j _ => handler_careful j
  · intro th hth
    cases hth

/-- Batches that touch a lock of a finished prewrite come from handlers with an up-to-date view of
it. -/
def LockSafe (P : Workers) (choice : Choice Call UInt64) : Prop :=
  ∀ c h b k l, CommitsBatch P choice c h b → (batchLeaves b .lock k).isSome → Granted P k l →
    UpToDate c h k l.startTs

/-- Under every schedule, a step that meets the condition leaves a lock whose prewrite has returned
`Ok` alone, or acts for the transaction of that lock. -/
theorem granted_lock_kept (st : Store) (cs : Schedule) (choice : Choice Call UInt64)
    (hsafe : LockSafe ((Workers.idle st).after cs) choice) (k : Bytes) (l : Lock)
    (hgranted : Granted ((Workers.idle st).after cs) k l) :
    (((Workers.idle st).after cs).next Call.handler choice).store.get .lock k
        = ((Workers.idle st).after cs).store.get .lock k ∨
      ∃ c h b, CommitsBatch ((Workers.idle st).after cs) choice c h b ∧ ActsFor b l.startTs := by
  have hverified := careful_after st cs
  have hturn := Pool.turn Call.handler ((Workers.idle st).after cs) choice
  generalize (Workers.idle st).after cs = P at hsafe hgranted hverified hturn ⊢
  generalize P.next Call.handler choice = P' at hturn ⊢
  cases hturn with
  | started j => exact Or.inl rfl
  | idle i t => exact Or.inl rfl
  | @stepped i t th o x' s' hth hstep =>
      obtain ⟨c, h, x⟩ := th
      simp only at hstep
      cases x with
      | pure a => cases hstep
      | throw e => cases hstep
      | get p k next => cases hstep; exact Or.inl rfl
      | range p lo next => cases hstep; exact Or.inl rfl
      | now next => cases hstep; exact Or.inl rfl
      | commit b next =>
          cases hstep
          have hby : CommitsBatch P (.step i t) c h b := ⟨i, t, _, rfl, hth⟩
          cases htouch : batchLeaves b .lock k with
          | none => exact Or.inl (by rw [get_apply_eq_batchLeaves, htouch]; rfl)
          | some x =>
              have htouch' : (batchLeaves b .lock k).isSome := by rw [htouch]; rfl
              obtain ⟨u, hacts, hent⟩ :=
                (hverified _ (List.mem_of_getElem? hth)).1 k htouch'
              have hu := hent.eq_of_upToDate (hsafe c h b k l hby htouch' hgranted)
              exact Or.inr ⟨c, h, b, hby, hu ▸ hacts⟩

/-- A prewrite that has returned, and a commit of it that has read the lock. -/
def commitReady : Schedule :=
  [.start (.prewrite 65536 [.put [1] [10]] [1] 3000), .step 0 0, .step 0 0, .step 0 0,
    .start (.commit 65536 65537 [[1]]), .step 1 0]

/-- The commit may go on. -/
theorem granted_lock_kept_commit :
    ∃ c h b, CommitsBatch ((Workers.idle Keyspace.empty).after commitReady) (.step 1 0) c h b ∧
      ActsFor b 65536 := by
  have hlock : (view ((Workers.idle Keyspace.empty).after commitReady).store).lock [1]
      = some ⟨[1], 65536, 3000, .put⟩ := by rfl
  have hthread : ∃ next, ((Workers.idle Keyspace.empty).after commitReady).threads[1]?
      = some ⟨.commit 65536 65537 [[1]],
        [.got .lock [1] (some (Lock.mk [1] 65536 3000 .put).toBytes)],
        .commit (settleBatch [1] 65537 ⟨65536, .put⟩) next⟩ := ⟨_, rfl⟩
  have hgone : (((Workers.idle Keyspace.empty).after commitReady).next Call.handler
      (.step 1 0)).store.get .lock [1] = none := by rfl
  have hgranted : Granted ((Workers.idle Keyspace.empty).after commitReady) [1]
      ⟨[1], 65536, 3000, .put⟩ := by
    refine ⟨hlock, _, List.mem_cons_self, ⟨[1], .put [1] [10], ⟨_, _, rfl, ?_⟩, rfl⟩, rfl⟩
    exact List.mem_cons_self
  have hsafe : LockSafe ((Workers.idle Keyspace.empty).after commitReady) (.step 1 0) := by
    rintro c h b k l ⟨i, t, next, hchoice, hth⟩ htouch ⟨hl, -⟩
    cases hchoice
    obtain ⟨next', hth'⟩ := hthread
    rw [hth'] at hth
    cases hth
    rw [batchLeaves_settle] at htouch
    split_ifs at htouch with hk
    · subst hk
      rw [hlock] at hl
      cases hl
      refine Or.inl fun x hx => ?_
      have hread : x ∈ [some (Lock.mk [1] 65536 3000 .put).toBytes] := hx
      rw [List.mem_singleton.mp hread]
      exact ⟨_, ⟨[1], 65536, 3000, .put⟩, rfl, by rfl, rfl⟩
    · cases htouch
  rcases granted_lock_kept Keyspace.empty commitReady (.step 1 0) hsafe [1] _ hgranted with
    hsame | hacts
  · obtain ⟨b, hb, -⟩ := view_lock_some hlock
    rw [hgone, hb] at hsame
    cases hsame
  · exact hacts

/-- Two prewrites find the key free, and one of them goes on and returns `Ok`. -/
def prewriteRace : Schedule :=
  [.start (.prewrite 65536 [.put [1] [10]] [1] 3000),
    .start (.prewrite 65537 [.put [1] [11]] [1] 3000),
    .step 0 0, .step 0 0, .step 1 0, .step 1 0, .step 1 0]

/-- The next step of the other one overwrites its lock. -/
theorem granted_lock_overwritten :
    Granted ((Workers.idle Keyspace.empty).after prewriteRace) [1] ⟨[1], 65537, 3000, .put⟩ ∧
      (view ((Workers.idle Keyspace.empty).after (prewriteRace ++ [.step 0 0])).store).lock [1]
        = some ⟨[1], 65536, 3000, .put⟩ := by
  refine ⟨⟨by rfl, _, List.mem_cons_of_mem _ List.mem_cons_self,
    ⟨[1], .put [1] [11], ⟨_, _, rfl, List.mem_cons_self⟩, rfl⟩, rfl⟩, by rfl⟩

end AcidKv
