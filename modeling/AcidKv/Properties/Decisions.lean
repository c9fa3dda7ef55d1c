import AcidKv.Abstract.Versions
import AcidKv.Properties.Clients
import AcidKv.Properties.Finality

/-!
# Whether an answer is final

`check_txn_status` answers `RolledBack` where it finds a rollback record or an expired lock, and
also where it finds nothing.  In the last case it leaves nothing behind either, so that a prewrite
which arrives later locks the key and the transaction can commit, while others have acted on the
answer.

`FinalSafe` says what a request has to respect in order not to go back on an answer.  After
`RolledBack` the prewrites of the transaction have to run into a version on the key.  The rest is
about records that are overwritten or fall out of sight: they stand under the commit timestamps that
clients choose and next to the entries of other keys, and nothing protects them.
-/

namespace AcidKv

open KeyEncoder

/-- A request that begins at `v` may write a record of transaction `t` on `k` at `ts`. -/
inductive MayRecord (c : Call) (v : View) (k : Bytes) (ts t : UInt64) : Prop where
  | commit {ks : List Bytes} (hc : c.commitArgs = some (t, ts, ks)) (hk : k ∈ ks)
      (hl : v.LockedBy k t)
  | rollback {ks : List Bytes} (hc : c = .rollback t ks) (hk : k ∈ ks) (hts : ts = t)
  | settle {l : Lock} (hl : v.lock k = some l) (hs : l.startTs = t) (hc : c.Settles v v k l)
      (hts : ts = t ∨ ∃ q, v.Committed q t ts)

section

variable {U : Set Bytes} {T : UInt64 → Prop} {c : Call} {v₀ v v' : View}

/-- The client's rollback writes its records on the keys that it lists. -/
lemma Move.rollback_listed {s : UInt64} {ks : List Bytes} (h : Move U T (.rollback s ks) v₀ v v')
    {k : Bytes} {ts : UInt64} {w : WriteRecord} (hw : v'.write k ts = some w) :
    v.write k ts = some w ∨ k ∈ ks := by
  cases h with
  | stage => exact Or.inl hw
  | commitKey hc => cases hc
  | rollForward hr => exact hr.elim
  | expire hq =>
      rcases hq with hc | ⟨k', l, lr, hr, -⟩
      · cases hc
      · exact hr.elim
  | rollBack hr => exact hr.elim
  | timeOut hr => exact hr.elim
  | abandon hc hk _ =>
      cases hc
      rcases View.settle_origin hw with hw | ⟨rfl, -, -, -⟩
      · exact Or.inl hw
      · exact Or.inr hk
  | forbid hc hk _ =>
      cases hc
      rw [View.mark_write] at hw
      split_ifs at hw with hk'
      · exact Or.inr (hk'.1 ▸ hk)
      · exact Or.inl hw
  | refresh => exact Or.inl hw
  | collect hc => cases hc

/-- Every record of a request is one that it might write from the start. -/
theorem Move.mayRecord (h : Move U T c v₀ v v') (hmoves : Moves U T c v₀ v₀ v) {k : Bytes}
    {ts : UInt64} {w : WriteRecord} (hw : v'.write k ts = some w) :
    v.write k ts = some w ∨ MayRecord c v₀ k ts w.startTs := by
  rcases h.write_origin hw with hold | hnew
  · exact Or.inl hold
  cases hnew with
  | commit hc hk hl hs _ _ _ =>
      obtain ⟨l', hl', heq⟩ := hmoves.lock_before hl fun ms p ttl hpre => by
        rw [(Call.prewrite_only hpre).1] at hc
        cases hc
      exact Or.inr (.commit hc hk ⟨l', hl', by rw [← hs, heq]⟩)
  | forward hr _ hl hs _ hp _ _ =>
      obtain ⟨hl₀, hsettles⟩ := Call.Settles.before (Or.inl ⟨_, hr⟩) hl hmoves
      have hcommit := (hr.queries hl).not_commit.1
      exact Or.inr (.settle hl₀ hs hsettles (Or.inr (hmoves.commit_time_before hcommit hp)))
  | back hl hs hw' _ hwhy =>
      subst hw'
      rcases hwhy with ⟨ks, rfl⟩ | hsettles
      · rcases h.rollback_listed hw with hold | hk
        · exact Or.inl hold
        · exact Or.inr (.rollback rfl hk rfl)
      · obtain ⟨hl₀, hsettles⟩ := hsettles.before hl hmoves
        exact Or.inr (.settle hl₀ hs hsettles (Or.inl rfl))
  | mark hc hk hw' _ =>
      subst hw'
      exact Or.inr (.rollback hc hk rfl)

/-! ## Rollback records bar their transaction -/

/-- Rollback records stand at the start of their transaction, and where they are in sight the
transaction has no lock. -/
structure Bars (v : View) : Prop where
  start : ∀ k ts s, v.write k ts = some ⟨s, .rollback⟩ → ts = s
  unlocked : ∀ k s, v.write k s = some ⟨s, .rollback⟩ → Seen v k s → ¬ v.LockedBy k s

lemma Bars.move (hgc : ∀ sp, c ≠ .gc sp) (hops : LockOps v) (hmoves : Moves U T c v₀ v₀ v)
    (h : Bars v) (hmove : Move U T c v₀ v v') : Bars v' where
  start := RollbacksAtStart.move h.start hops hmove
  unlocked := by
    rintro k s hw hseen ⟨l, hl, rfl⟩
    have hseen₀ : Seen v k l.startTs := hseen.anti fun k ts => hmove.write_isSome hgc
    rcases hmove.write_origin hw with hold | hnew
    · rcases hmove.lock_origin hl with ⟨l', hl', heq, -⟩ | hplaced
      · exact h.unlocked k _ hold hseen₀ ⟨l', hl', by rw [heq]⟩
      · -- the prewrite would have run into the record
        obtain ⟨ms, p, ttl, hargs⟩ := hplaced.mutates.args
        have hfirst := hmoves.own_record hargs hold
        exact UInt64.lt_irrefl _ (hplaced.check _ _ hfirst (Or.inr hseen₀))
    · cases hnew with
      | commit _ _ _ _ _ hgone _ => rw [hgone] at hl; cases hl
      | forward _ _ _ _ _ _ _ hgone => rw [hgone] at hl; cases hl
      | back _ _ _ hgone _ => rw [hgone] at hl; cases hl
      | mark _ _ _ hfree => exact hfree ⟨l, hl, rfl⟩

/-! ## What a request has to respect -/

/-- `check_txn_status(p, s)` has answered `status`. -/
def Answered (log : List Entry) (p : Bytes) (s : UInt64) (status : TxnStatus) : Prop :=
  ∃ en ∈ log, en.event.call = .checkTxnStatus p s ∧ en.reply = some (.ok (.status status))

/-- A request that begins at `v` does not go back on the answers in the log. -/
structure FinalSafe (log : List Entry) (v : View) (c : Call) : Prop where
  noGc : ∀ sp, c ≠ .gc sp
  /-- After `RolledBack`, a prewrite that mutates the primary key finds a version in its way. -/
  barred : ∀ p s, Answered log p s .rolledBack → c.Mutates s p →
    ∃ ts, s ≤ ts ∧ (v.write p ts).isSome ∧ Exposed c v p ts
  /-- After `RolledBack`, no record of another transaction may come to stand at `s` on a primary key
  that has a Put or Delete record of `s`. -/
  unmasked : ∀ p s, Answered log p s .rolledBack → ∀ t, MayRecord c v p s t → t ≠ s →
    ∀ ct, ¬ v.Committed p s ct
  /-- After `Committed`, of the records that may come to stand between the newest possible version of
  the primary key and the commit record, all are of the primary key, none is in the place of the
  commit record and none is of the same transaction. -/
  standing : ∀ p s ct, Answered log p s (.committed ct) → ∀ k ts t, MayRecord c v k ts t →
    encode p u64Max ≤ encode k ts → encode k ts ≤ encode p ct → k = p ∧ ts ≠ ct ∧ t ≠ s

/-! ## After `RolledBack` -/

/-- Transaction `s` has no lock on `p`, and a rollback record above each Put or Delete record of it
there that is in sight. -/
structure Lost (v : View) (p : Bytes) (s : UInt64) : Prop where
  unlocked : ¬ v.LockedBy p s
  overruled : ∀ ct, v.Committed p s ct → Seen v p ct →
    ct < s ∧ v.write p s = some ⟨s, .rollback⟩

/-- All through a request that finds `s` barred from `p`, it gets neither lock nor commit there. -/
lemma Lost.unlocked_moves {p : Bytes} {s : UInt64} (h₀ : Lost v₀ p s)
    (hbarred : c.Mutates s p → ∃ ts, s ≤ ts ∧ (v₀.write p ts).isSome ∧ Exposed c v₀ p ts)
    (hmoves : Moves U T c v₀ v₀ v) :
    ¬ v.LockedBy p s ∧ ∀ ct, v.Committed p s ct → v₀.Committed p s ct := by
  induction hmoves with
  | refl => exact ⟨h₀.unlocked, fun _ hcom => hcom⟩
  | tail hprev hmove ih =>
      refine ⟨?_, fun ct hcom => ?_⟩
      · rintro ⟨l, hl, rfl⟩
        rcases hmove.lock_origin hl with ⟨l', hl', heq, -⟩ | hplaced
        · exact ih.1 ⟨l', hl', by rw [heq]⟩
        · obtain ⟨ts, hle, hsome, hexp⟩ := hbarred hplaced.mutates
          exact hplaced.not_exposed hprev hsome hle hexp
      · rcases hmove.committed_origin hcom with hcom | ⟨hlocked, -⟩
        · exact ih.2 ct hcom
        · exact absurd hlocked ih.1

lemma Lost.move {log : List Entry} {p : Bytes} {s : UInt64} (hsafe : FinalSafe log v₀ c)
    (hans : Answered log p s .rolledBack) (h₀ : Lost v₀ p s) (hmoves : Moves U T c v₀ v₀ v)
    (h : Lost v p s) (hmove : Move U T c v₀ v v') : Lost v' p s where
  unlocked := (h₀.unlocked_moves (hsafe.barred p s hans) (hmoves.tail hmove)).1
  overruled := by
    intro ct hcom hseen
    obtain ⟨hfree, hbefore⟩ := h₀.unlocked_moves (hsafe.barred p s hans) hmoves
    have hold : v.Committed p s ct :=
      (hmove.committed_origin hcom).resolve_right fun hnew => hfree hnew.1
    obtain ⟨hlt, hw⟩ := h.overruled ct hold (hseen.anti fun k ts => hmove.write_isSome hsafe.noGc)
    refine ⟨hlt, ?_⟩
    -- the rollback record is still there: nothing of another transaction may take its place
    have hsome : (v.write p s).isSome := by rw [hw]; rfl
    obtain ⟨w', hw'⟩ := Option.isSome_iff_exists.mp (hmove.write_isSome hsafe.noGc hsome)
    rcases hmove.write_origin hw' with hsame | hnew
    · rw [hw', ← hsame, hw]
    · have hs : w'.startTs = s := by
        by_contra hne
        rcases hmove.mayRecord hmoves hw' with hsame | hmay
        · rw [hw, Option.some.injEq] at hsame
          exact hne (by rw [← hsame])
        · exact hsafe.unmasked p s hans _ hmay hne ct (hbefore ct hold)
      cases hnew with
      | commit _ _ hl hs' _ _ _ => exact absurd ⟨_, hl, hs'.trans hs⟩ hfree
      | forward _ _ hl hs' _ _ _ _ => exact absurd ⟨_, hl, hs'.trans hs⟩ hfree
      | back hl hs' _ _ _ => exact absurd ⟨_, hl, hs'⟩ hfree
      | mark _ _ hw'' _ => rw [hw', hw'']

/-! ## After `Committed` -/

/-- The commit of `s` on `p` at `ct` is what its status is read off. -/
def Stands (v : View) (p : Bytes) (s ct : UInt64) : Prop :=
  ∃ op, op ≠ .rollback ∧ Decides v p s ct ⟨s, op⟩

lemma encode_le_encode_same {k : Bytes} {ts ct : UInt64} (h : ct ≤ ts) :
    encode k ts ≤ encode k ct := by
  rwa [← List.not_lt, encode_lt_encode_same, UInt64.not_lt]

lemma Stands.move {log : List Entry} {p : Bytes} {s ct : UInt64} (hsafe : FinalSafe log v₀ c)
    (hans : Answered log p s (.committed ct)) (hmoves : Moves U T c v₀ v₀ v)
    (h : Stands v p s ct) (hmove : Move U T c v₀ v v') : Stands v' p s ct := by
  obtain ⟨op, hop, hd⟩ := h
  have hrule := hsafe.standing p s ct hans
  refine ⟨op, hop, ⟨hd.le, ?_, rfl, ?_⟩, ?_⟩
  · have hsome : (v.write p ct).isSome := by rw [hd.write]; rfl
    obtain ⟨w', hw'⟩ := Option.isSome_iff_exists.mp (hmove.write_isSome hsafe.noGc hsome)
    rcases hmove.mayRecord hmoves hw' with hsame | hmay
    · rw [hw', ← hsame, hd.write]
    · exact absurd rfl
        (hrule p ct _ hmay (encode_le_encode_same hd.le) (encode_le_encode_same UInt64.le_rfl)).2.1
  · intro ts' w' hw' hlt hle hs
    rcases hmove.mayRecord hmoves hw' with hold | hmay
    · exact hd.newest ts' w' hold hlt hle hs
    · exact (hrule p ts' _ hmay (encode_le_encode_same hle)
        (encode_le_encode_same (UInt64.le_of_lt hlt))).2.2 hs
  · intro k' ts' w' hw' hlo hlt
    rcases hmove.mayRecord hmoves hw' with hold | hmay
    · exact hd.clear k' ts' w' hold hlo hlt
    · exact (hrule k' ts' _ hmay hlo (Std.le_of_lt hlt)).1

end

/-! ## The answers -/

/-- A status query that replies is `check_txn_status` of the lock resolver. -/
lemma status_exec {e : Event} {st : Store} {p : Bytes} {s : UInt64} {r : Answer}
    (hcall : e.call = .checkTxnStatus p s) (hreply : (e.exec st).1 = some r) :
    ∃ res, (LockResolver.checkTxnStatus p s).run e.clock st = (res, (e.exec st).2) ∧
      r = (res.mapError TxnError.lockResolver).map Reply.status := by
  revert hreply
  simp only [Event.exec]
  cases e.stop with
  | some n => rintro ⟨⟩
  | none =>
      simp only [hcall, Call.handler, Coordinator.checkTxnStatus, Prog.run_map, Prog.run_mapError,
        Option.some.injEq]
      rintro rfl
      exact ⟨_, rfl, rfl⟩

section

variable {U : Set Bytes} {st : Store} {e : Event} {p : Bytes} {s : UInt64}

/-- Where the status of a transaction is open, none of its records is in sight. -/
lemma unseen_of_undecided {v : View} (hd : ∀ c w, ¬ Decides v p s c w) {ct : UInt64} {op : OpType}
    (hw : v.write p ct = some ⟨s, op⟩) : ¬ Seen v p ct := by
  intro hseen
  obtain ⟨c, w, hhit⟩ := @exists_hit v p u64Max (fun w => w.startTs = s) ct ⟨s, op⟩ (le_u64Max ct)
    hw rfl hseen
  exact hd c w hhit

/-- The answer `RolledBack` holds in the store that the query leaves. -/
lemma lost_of_answer (h : WF U st) (hbars : Bars (view st)) (hcall : e.call = .checkTxnStatus p s)
    (hreply : (e.exec st).1 = some (.ok (.status .rolledBack))) :
    Lost (view (e.exec st).2) p s := by
  obtain ⟨res, hrun, hres⟩ := status_exec hcall hreply
  have hverdict := checkTxnStatus_verdict h e.clock p s
  rw [hrun] at hverdict
  generalize (e.exec st).2 = st' at hverdict ⊢
  cases hverdict with
  | @decided c w hd =>
      obtain ⟨s', op⟩ := w
      obtain rfl : s' = s := hd.holds
      have hop : op = .rollback := by
        by_contra hop
        simp only [WriteRecord.status, if_neg hop] at hres
        cases hres
      subst hop
      obtain rfl := hbars.start p c _ hd.write
      refine ⟨hbars.unlocked p _ hd.write hd.clear, ?_⟩
      rintro ct ⟨op, hop, hw⟩ -
      refine ⟨UInt64.lt_of_le_of_ne (UInt64.not_lt.mp fun hlt => ?_) ?_, hd.write⟩
      · exact hd.newest ct _ hw hlt (le_u64Max ct) rfl
      · rintro rfl
        rw [hd.write] at hw
        cases hw
        exact hop rfl
  | gone hd hl =>
      refine ⟨?_, ?_⟩
      · rintro ⟨l, hl', hs⟩
        exact hl l hl' hs
      · rintro ct ⟨op, -, hw⟩ hseen
        exact absurd hseen (unseen_of_undecided hd hw)
  | expired hd hl hs hexp =>
      rw [view_settleBatch]
      refine ⟨?_, ?_⟩
      · rintro ⟨l', hl', -⟩
        simp at hl'
      · rintro ct ⟨op, hop, hw⟩ hseen
        rcases View.settle_origin hw with hw | ⟨-, -, hw, -⟩
        · refine absurd (hseen.anti fun k ts hsome => ?_) (unseen_of_undecided hd hw)
          simp only [View.settle_write]
          split_ifs
          · rfl
          · exact hsome
        · cases hw
          exact absurd rfl hop
  | locked hd hl hs hexp => cases hres

/-- A transaction that is lost is answered for as such. -/
lemma Lost.answer (h : WF U st) (hlost : Lost (view st) p s) {r : Answer}
    (hcall : e.call = .checkTxnStatus p s) (hreply : (e.exec st).1 = some r) :
    r = .ok (.status .rolledBack) := by
  obtain ⟨res, hrun, rfl⟩ := status_exec hcall hreply
  have hverdict := checkTxnStatus_verdict h e.clock p s
  rw [hrun] at hverdict
  generalize (e.exec st).2 = st' at hverdict
  cases hverdict with
  | @decided c w hd =>
      obtain ⟨s', op⟩ := w
      obtain rfl : s' = s := hd.holds
      by_cases hop : op = .rollback
      · rw [hop]
        rfl
      · obtain ⟨hlt, hw⟩ := hlost.overruled c ⟨op, hop, hd.write⟩ hd.clear
        exact absurd rfl (hd.newest _ _ hw hlt (le_u64Max _))
  | gone hd hl => rfl
  | expired hd hl hs hexp => rfl
  | locked hd hl hs hexp => exact absurd ⟨_, hl, hs⟩ hlost.unlocked

lemma stands_of_answer (h : WF U st) {ct : UInt64} (hcall : e.call = .checkTxnStatus p s)
    (hreply : (e.exec st).1 = some (.ok (.status (.committed ct)))) :
    Stands (view (e.exec st).2) p s ct := by
  obtain ⟨res, hrun, hres⟩ := status_exec hcall hreply
  have hok : res = .ok (.committed ct) := by
    cases res with
    | error err => cases hres
    | ok status =>
        simp only [Except.mapError, Except.map, Except.ok.injEq, Reply.status.injEq] at hres
        rw [hres]
  subst hok
  obtain ⟨op, hop, hd⟩ := @decides_of_committed U st e.clock h p s ct (by rw [hrun])
  rw [status_of_committed h hop hd, Prod.mk.injEq] at hrun
  rw [← hrun.2]
  exact ⟨op, hop, hd⟩

lemma Stands.answer (h : WF U st) {ct : UInt64} (hstands : Stands (view st) p s ct) {r : Answer}
    (hcall : e.call = .checkTxnStatus p s) (hreply : (e.exec st).1 = some r) :
    r = .ok (.status (.committed ct)) := by
  obtain ⟨res, hrun, rfl⟩ := status_exec hcall hreply
  obtain ⟨op, hop, hd⟩ := hstands
  rw [status_of_committed h hop hd, Prod.mk.injEq] at hrun
  rw [← hrun.1]
  rfl

end

/-! ## Over whole runs -/

/-- The requests of a run that go back on no answer. -/
abbrev FinalRun (cfg : Config) (es : List Event) : Prop :=
  Guarded Config.step (fun cfg e => FinalSafe cfg.log (view cfg.store) e.call) cfg es

lemma bars_steps {es : List Event} (h : FinalRun Config.init es) :
    WF Set.univ (Config.init.steps es).store ∧ Bars (view (Config.init.steps es).store) := by
  refine @run_invariant Set.univ _ (fun _ v => Bars v) (fun _ _ _ _ _ => trivial)
    (fun _ _ _ hinv => hinv) ?_ _ _ h ⟨wf_empty _, ?_, ?_⟩
  · intro cfg e v v' hok _ _ hprev hinv hmove
    exact hinv.move hok.noGc ((view_lockOps cfg.store).moves hprev) hprev hmove
  · intro k ts s hw
    simp [Config.init] at hw
  · intro k s hw
    simp [Config.init] at hw

/-- What an answer says is kept up by the rest of the run. -/
lemma answer_steps (P : View → Prop) {p : Bytes} {s : UInt64} {status : TxnStatus}
    (hmove : ∀ {U : Set Bytes} {T : UInt64 → Prop} {log : List Entry} {c : Call} {v₀ v v' : View},
      FinalSafe log v₀ c → Answered log p s status → P v₀ → Moves U T c v₀ v₀ v → P v →
      Move U T c v₀ v v' → P v')
    {cfg : Config} {es : List Event} (h : FinalRun cfg es) (hwf : WF Set.univ cfg.store)
    (hans : Answered cfg.log p s status) (hP : P (view cfg.store)) :
    WF Set.univ (cfg.steps es).store ∧ P (view (cfg.steps es).store) := by
  have hrun := @log_invariant Set.univ _
    (fun log _ v => Answered log p s status ∧ P v) (fun _ _ _ _ _ => trivial)
    (fun _ _ _ hinv => hinv) ?_ ?_ cfg es h ⟨hwf, hans, hP⟩
  · exact ⟨hrun.1, hrun.2.2⟩
  · intro cfg e v v' hok _ h₀ hprev hinv hm
    exact ⟨hinv.1, hmove hok h₀.1 h₀.2 hprev hinv.2 hm⟩
  · intro cfg e v reply _ _ _ hinv
    obtain ⟨en, hen, hin⟩ := hinv.1
    exact ⟨⟨en, List.mem_append_left _ hen, hin⟩, hinv.2⟩

/-- In runs of requests that respect the answers given, every answer to `check_txn_status(p, s)`
after a `RolledBack` is `RolledBack`, and every one after a `Committed` is the same `Committed`. -/
theorem status_answers_final (es₁ : List Event) (e₁ : Event) (es₂ : List Event) (e₂ : Event)
    (p : Bytes) (s : UInt64) (hrun : FinalRun Config.init (es₁ ++ e₁ :: es₂))
    (h₁ : e₁.call = .checkTxnStatus p s) (h₂ : e₂.call = .checkTxnStatus p s) (r : Answer)
    (hlater : (e₂.exec (Config.init.steps (es₁ ++ e₁ :: es₂)).store).1 = some r) :
    ((e₁.exec (Config.init.steps es₁).store).1 = some (.ok (.status .rolledBack)) →
      r = .ok (.status .rolledBack)) ∧
    ∀ ct, (e₁.exec (Config.init.steps es₁).store).1 = some (.ok (.status (.committed ct))) →
      r = .ok (.status (.committed ct)) := by
  obtain ⟨hrun₁, hsafe, hrun₂⟩ := Config.guarded_steps.mp hrun
  obtain ⟨hwf, hbars⟩ := bars_steps hrun₁
  obtain ⟨halong, -⟩ := exec_along hwf e₁ fun _ _ => trivial
  have hlog : ∀ status, (e₁.exec (Config.init.steps es₁).store).1 = some (.ok (.status status)) →
      Answered ((Config.init.steps es₁).step e₁).log p s status := by
    intro status hreply
    exact ⟨⟨e₁, _⟩, List.mem_append_right _ List.mem_cons_self, h₁, hreply⟩
  rw [Config.steps_append] at hlater
  refine ⟨fun hreply => ?_, fun ct hreply => ?_⟩
  · obtain ⟨hwf₂, hlost⟩ := answer_steps (fun v => Lost v p s)
      Lost.move hrun₂ halong.wf (hlog _ hreply) (lost_of_answer hwf hbars h₁ hreply)
    exact hlost.answer hwf₂ h₂ hlater
  · obtain ⟨hwf₂, hstands⟩ := answer_steps (fun v => Stands v p s ct)
      (fun hs ha _ hm h hmv => h.move hs ha hm hmv) hrun₂ halong.wf (hlog _ hreply)
      (stands_of_answer hwf h₁ hreply)
    exact hstands.answer hwf₂ h₂ hlater

/-- A transaction whose lock is found expired. -/
def expiredTxn : List Event := [{ call := .prewrite 65536 [.put [1] [10]] [1] 3000 }]

def expiryQuery : Event := { call := .checkTxnStatus [1] 65536, clock := fun _ => 5000 }

/-- A second copy of the prewrite that arrives after the answer runs into the rollback record. -/
theorem status_answers_final_late_prewrite :
    (expiryQuery.exec (Config.init.steps expiredTxn).store).1
        = some (.ok (.status .rolledBack)) ∧
      (Event.exec { call := .checkTxnStatus [1] 65536 }
        (Config.init.steps (expiredTxn ++ expiryQuery :: expiredTxn)).store).1
          = some (.ok (.status .rolledBack)) := by
  have hanswer : (expiryQuery.exec (Config.init.steps expiredTxn).store).1
      = some (.ok (.status .rolledBack)) := by rfl
  obtain ⟨r, hlater⟩ : ∃ r, (Event.exec { call := .checkTxnStatus [1] 65536 }
      (Config.init.steps (expiredTxn ++ expiryQuery :: expiredTxn)).store).1 = some r :=
    ⟨_, rfl⟩
  have hsilent : ∀ {log : List Entry} {v : View} {c : Call}, (∀ sp, c ≠ .gc sp) →
      (∀ p s status, ¬ Answered log p s status) → FinalSafe log v c :=
    fun hgc hnone => ⟨hgc, fun p s h => absurd h (hnone p s _), fun p s h => absurd h (hnone p s _),
      fun p s ct h => absurd h (hnone p s _)⟩
  have hsafe : FinalSafe ((Config.init.steps expiredTxn).step expiryQuery).log
      (view ((Config.init.steps expiredTxn).step expiryQuery).store)
      (.prewrite 65536 [.put [1] [10]] [1] 3000) := by
    have hans : ∀ p s status,
        Answered ((Config.init.steps expiredTxn).step expiryQuery).log p s status →
        p = [1] ∧ s = 65536 ∧ status = .rolledBack := by
      rintro p s status ⟨en, hen, hcall, hreply⟩
      rcases List.mem_cons.mp hen with rfl | hen
      · cases hcall
      · obtain rfl := List.mem_singleton.mp hen
        cases hcall
        rw [hanswer] at hreply
        cases hreply
        exact ⟨rfl, rfl, rfl⟩
    have hfree : (view ((Config.init.steps expiredTxn).step expiryQuery).store).lock [1] = none := by
      rfl
    refine ⟨by simp, ?_, ?_, ?_⟩
    · intro p s h _
      obtain ⟨rfl, rfl, -⟩ := hans p s _ h
      refine ⟨65536, UInt64.le_rfl, by rfl, ?_⟩
      exact exposed_of_prefixFree (wf_runKeys (expiredTxn ++ [expiryQuery]))
        (prefixFree_runKeys (by decide)) ⟨expiryQuery, by simp, List.mem_cons_self⟩ _
    · intro p s h t hmay
      obtain ⟨rfl, rfl, -⟩ := hans p s _ h
      cases hmay with
      | commit hc => cases hc
      | rollback hc => cases hc
      | settle hl => rw [hfree] at hl; cases hl
    · intro p s ct h
      cases (hans p s _ h).2.2
  refine ⟨hanswer, ?_⟩
  rw [hlater, (status_answers_final expiredTxn expiryQuery expiredTxn
    { call := .checkTxnStatus [1] 65536 } [1] 65536
    ⟨hsilent (by simp) ?_, hsilent (by simp [expiryQuery]) ?_, hsafe, trivial⟩ rfl rfl _ hlater).1
      hanswer]
  · rintro p s status ⟨en, hen, -⟩
    cases hen
  · rintro p s status ⟨en, hen, hcall, -⟩
    rw [List.mem_singleton.mp hen] at hcall
    cases hcall

/-- The query overtakes the prewrite: it finds nothing and answers `RolledBack`, and afterwards the
transaction is locked, and then committed. -/
theorem status_answer_revoked :
    (Event.exec { call := .checkTxnStatus [1] 65536 } Config.init.store).1
        = some (.ok (.status .rolledBack)) ∧
      (Event.exec { call := .checkTxnStatus [1] 65536 }
        (Config.init.steps [{ call := .checkTxnStatus [1] 65536 },
          { call := .prewrite 65536 [.put [1] [10]] [1] 3000 }]).store).1
        = some (.ok (.status (.locked 3000))) ∧
      (Event.exec { call := .checkTxnStatus [1] 65536 }
        (Config.init.steps [{ call := .checkTxnStatus [1] 65536 },
          { call := .prewrite 65536 [.put [1] [10]] [1] 3000 },
          { call := .commit 65536 65537 [[1]] }]).store).1
        = some (.ok (.status (.committed 65537))) :=
  ⟨by rfl, by rfl, by rfl⟩

end AcidKv
