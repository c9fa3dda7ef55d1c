import AcidKv.Lib.Evidence
import AcidKv.Node.Rules
import AcidKv.Properties.Clients
import AcidKv.Refine.Settling

/-!
# What the handlers leave for each other

However the handlers of a node are interleaved, the entries of its partitions stay in order
(`Accounted`): staged values go back to a put that was requested, locks to a prewrite of their key, Put
and Delete records to a commit of their transaction at their timestamp.  As long as there is no
garbage collection, and no key that is read is one that is deleted (`Undisturbed`), Put locks and Put
records have their values.

Each handler is shown to commit justified batches only.  Its outcome is described by what it has
seen: a value that it returns, by the record and the entry it was found in; an error about corrupted
state, by answers that cannot have been true.
-/

namespace AcidKv

open Coordinator LockResolver KeyEncoder

/-- The request reads `k` if there is something to read. -/
def Call.ReadsKey : Call → Bytes → Prop
  | .get k' _, k => k' = k
  | .scan a b _ _, k => InRange a b k
  | _, _ => False

/-- Nothing is collected, and what is deleted is not read. -/
structure Undisturbed (S : Call → Prop) : Prop where
  noGc : ∀ sp, ¬ S (.gc sp)
  unread : ∀ c c' s p k, S c → S c' → c.Prewrites s p (.delete k) → ¬ c'.ReadsKey k

/-- The value of `s` on `k` is staged. -/
def ValueStaged (st : Store) (k : Bytes) (s : UInt64) : Prop := (st.get .default (encode k s)).isSome

/-- What the entries of a partition may be when the requests are among `S`. -/
def Accounted (S : Call → Prop) (st : Store) : Part → Bytes → Bytes → Prop
  | .default, e, x => ∃ k s, e = encode k s ∧ ∃ c, S c ∧ ∃ p, c.Prewrites s p (.put k x)
  | .lock, k, b => ∃ l, Lock.fromBytes b = .ok l ∧
      (∃ c, S c ∧ ∃ p m, c.Prewrites l.startTs p m ∧ m.key = k ∧ m.opType = l.op) ∧
      (Undisturbed S → l.op = .put → ValueStaged st k l.startTs)
  | .write, e, b => ∃ k ct w, e = encode k ct ∧ WriteRecord.fromBytes b = some w ∧
      (w.op ≠ .rollback → ∃ c, S c ∧ ∃ ks, c.commitArgs = some (w.startTs, ct, ks)) ∧
      (Undisturbed S → w.op = .put → ValueStaged st k w.startTs)

/-- Errors that say that an entry cannot be read or is missing. -/
def TxnError.Corrupted : TxnError → Prop
  | .mvcc .corruptedState => True
  | .lockResolver (.mvcc .corruptedState) => True
  | _ => False

section

variable {S : Call → Prop} {st : Store} {h : Trace} {k : Bytes}

/-! ## Batches -/

lemma ValueStaged.apply {s : UInt64} {b : Batch} (hb : ∀ e, .remove .default e ∉ b)
    (hv : ValueStaged st k s) : ValueStaged (st.apply b) k s := by
  unfold ValueStaged at hv ⊢
  rcases Keyspace.get_apply_origin st b .default (encode k s) with hsame | ⟨i, hi, hentry, hvalue⟩
  · rwa [hsame]
  · rw [hvalue]
    cases i with
    | insert p' k' x' => rfl
    | remove p' k' =>
        cases hentry
        exact absurd hi (hb _)

/-- A batch that removes no values while they are needed leaves in order what was so. -/
lemma Accounted.apply {b : Batch} (hb : Undisturbed S → ∀ e, .remove .default e ∉ b) {p : Part}
    {e x : Bytes} (hin : Accounted S st p e x) : Accounted S (st.apply b) p e x := by
  cases p with
  | default => exact hin
  | lock =>
      obtain ⟨l, hl, hfrom, hvalue⟩ := hin
      exact ⟨l, hl, hfrom, fun hu hop => (hvalue hu hop).apply (hb hu)⟩
  | write =>
      obtain ⟨k, ct, w, he, hw, hfrom, hvalue⟩ := hin
      exact ⟨k, ct, w, he, hw, hfrom, fun hu hop => (hvalue hu hop).apply (hb hu)⟩

/-- The handler has seen a lock of `u` on `k`.  If it passes it on as a Put lock then it is one, or
`k` is among the keys that are read. -/
def Held (S : Call → Prop) (h : Trace) (k : Bytes) (u : UInt64) (op : OpType) : Prop :=
  ∃ b l, Saw h .lock k b ∧ Lock.fromBytes b = .ok l ∧ l.startTs = u ∧
    (op = .put → l.op = .put ∨ ∃ c, S c ∧ c.ReadsKey k)

lemma Held.append {u : UInt64} {op : OpType} (hh : Held S h k u op) (h' : Trace) :
    Held S (h ++ h') k u op := by
  obtain ⟨b, l, hs, hrest⟩ := hh
  exact ⟨b, l, hs.append h', hrest⟩

/-- A lock that has just been read, with the op it has. -/
lemma held_of_read {entry : Option Bytes} {l : Lock} (hl : entryLock entry = some l) :
    Held S (h ++ [Obs.got Part.lock k entry]) k l.startTs l.op := by
  obtain ⟨b, rfl, hb⟩ := entryLock_some hl
  exact ⟨b, l, saw_got h .lock k b, hb, rfl, Or.inl⟩

/-- The value behind a Put lock that was seen is still there. -/
lemma Held.valueStaged {u : UInt64} (hh : Held S h k u .put) (hu : Undisturbed S)
    (hb : Backs (Accounted S) st h) : ValueStaged st k u := by
  obtain ⟨b, l, hs, hl, rfl, hput⟩ := hh
  obtain ⟨l', hl', ⟨c, hc, p, m, hpre, rfl, hop⟩, hvalue⟩ := hb.seen _ _ _ hs
  rw [hl] at hl'
  cases hl'
  refine hvalue hu ?_
  rcases hput rfl with hput | ⟨c', hc', hreads⟩
  · exact hput
  · cases m with
    | put key value => exact hop.symm
    | delete key => exact absurd hreads (hu.unread c c' _ p key hc hc' hpre)

/-- The handler has seen the commit of `u` at `ct`, or it is what it was asked for. -/
def CommitKnown (S : Call → Prop) (h : Trace) (u ct : UInt64) : Prop :=
  ∀ st, Backs (Accounted S) st h → ∃ c, S c ∧ ∃ ks, c.commitArgs = some (u, ct, ks)

lemma justified_settle {ct u : UInt64} {op : OpType} (hct : op ≠ .rollback → CommitKnown S h u ct)
    (hheld : op = .put → Held S h k u .put) :
    Justified (Accounted S) h (settleBatch k ct ⟨u, op⟩) := by
  intro st hb
  have hkept : ∀ e, .remove .default e ∉ settleBatch k ct ⟨u, op⟩ := by simp [settleBatch]
  refine ⟨fun p e x hin => hin.apply fun _ => hkept, ?_⟩
  intro p e x hx
  simp only [settleBatch, List.mem_cons, List.not_mem_nil, or_false] at hx
  rcases hx with hx | hx
  · cases hx
    refine ⟨k, ct, ⟨u, op⟩, rfl, WriteRecord.fromBytes_toBytes _, fun hop => hct hop st hb, ?_⟩
    intro hu hop
    exact ((hheld hop).valueStaged hu hb).apply hkept
  · cases hx

lemma justified_back (h : Trace) (k : Bytes) (ts u : UInt64) :
    Justified (Accounted S) h (settleBatch k ts ⟨u, .rollback⟩) :=
  justified_settle (fun hop => absurd rfl hop) (by rintro ⟨⟩)

/-- What a prewrite stages is what it was asked for. -/
lemma justified_stage {c : Call} {s ttl : UInt64} {p : Bytes} {m : Mutation} (hc : S c)
    (hm : c.Prewrites s p m) (h : Trace) : Justified (Accounted S) h (stageBatch s p ttl m) := by
  intro st hb
  have hkept : ∀ e, .remove .default e ∉ stageBatch s p ttl m := by
    cases m with
    | put key value => simp [stageBatch]
    | delete key => simp [stageBatch]
  refine ⟨fun p e x hin => hin.apply fun _ => hkept, ?_⟩
  have hlock : ∀ {op : OpType}, op = m.opType → (op = .put →
      ValueStaged (st.apply (stageBatch s p ttl m)) m.key s) →
      Accounted S (st.apply (stageBatch s p ttl m)) .lock m.key (Lock.mk p s ttl op).toBytes := by
    rintro op rfl hvalue
    have hop : m.opType ≠ .rollback := by cases m <;> exact OpType.noConfusion
    exact ⟨_, Lock.fromBytes_toBytes hop, ⟨c, hc, p, m, hm, rfl, rfl⟩, fun _ => hvalue⟩
  intro p' e x hx
  cases m with
  | put key value =>
      simp only [stageBatch, List.mem_cons, List.not_mem_nil, or_false] at hx
      rcases hx with hx | hx
      · cases hx
        exact ⟨key, s, rfl, c, hc, p, hm⟩
      · cases hx
        refine hlock rfl fun _ => ?_
        simp [ValueStaged, stageBatch, Mutation.key]
  | delete key =>
      simp only [stageBatch, List.mem_cons, List.not_mem_nil, or_false] at hx
      cases hx
      exact hlock rfl (by rintro ⟨⟩)

/-- A heartbeat changes the TTL of the lock that it has read. -/
lemma justified_refresh {entry : Option Bytes} {l : Lock} (hl : entryLock entry = some l)
    (ttl : UInt64) : Justified (Accounted S) (h ++ [Obs.got Part.lock k entry])
      [.insert .lock k { l with ttl := ttl }.toBytes] := by
  obtain ⟨b, rfl, hdec⟩ := entryLock_some hl
  intro st hb
  refine ⟨fun p e x hin => hin.apply fun _ => by simp, ?_⟩
  intro p e x hx
  rw [List.mem_singleton] at hx
  cases hx
  obtain ⟨l', hl', hfrom, hvalue⟩ := hb.seen _ _ _ (saw_got h .lock k b)
  rw [hdec] at hl'
  cases hl'
  have hop : l.op ≠ .rollback := by
    obtain ⟨c, -, p, m, -, -, hop⟩ := hfrom
    rw [← hop]
    cases m <;> exact OpType.noConfusion
  exact ⟨_, @Lock.fromBytes_toBytes { l with ttl := ttl } hop, hfrom,
    fun hu hput => (hvalue hu hput).apply (by simp)⟩

/-! ## Answers that cannot have been true -/

lemma lock_decodes (hl : Lived (Accounted S) h) {b : Bytes} (hs : Saw h .lock k b) :
    ∃ l, Lock.fromBytes b = .ok l := by
  obtain ⟨st, l, hok, -⟩ := hl.saw hs
  exact ⟨l, hok⟩

lemma record_decodes (hl : Lived (Accounted S) h) {e b : Bytes} (hs : Saw h .write e b) :
    (∃ kt, decode e = .ok kt) ∧ ∃ w, WriteRecord.fromBytes b = some w := by
  obtain ⟨st, k, ct, w, rfl, hw, -⟩ := hl.saw hs
  exact ⟨⟨(k, ct), decode_encode k ct⟩, w, hw⟩

/-- An error of a handler that a history lived through rules out. -/
def Sound {α : Type} (S : Call → Prop) (out : Except TxnError α) (h : Trace) : Prop :=
  Lived (Accounted S) h → ∀ e, out = .error e → ¬ e.Corrupted

lemma sound_ok {α : Type} (a : α) (h : Trace) : Sound S (.ok a) h := by
  rintro - e ⟨⟩

lemma sound_error {α : Type} {e : TxnError} (he : ¬ e.Corrupted) (h : Trace) :
    Sound S (.error e : Except TxnError α) h := by
  rintro - e' ⟨⟩
  exact he

/-- A lock entry that does not decode was not read. -/
lemma sound_lock {α : Type} {b : Bytes} {e : LockError} (he : Lock.fromBytes b = .error e)
    (out : Except TxnError α) : Sound S out (h ++ [Obs.got Part.lock k (some b)]) := by
  intro hl
  obtain ⟨l, hok⟩ := lock_decodes hl (saw_got h .lock k b)
  rw [he] at hok
  cases hok

/-! ## Lock resolution -/

lemma statusLoop_error {q : Bytes} {u : UInt64} {items : List (Bytes × Bytes)}
    {e : LockResolverError} (hout : statusLoop q u items = .error e) :
    ∃ x ∈ items, ∃ err, decode x.1 = .error err := by
  fun_induction statusLoop q u items with
  | case2 e b rest err hdec => exact ⟨(e, b), List.mem_cons_self, err, hdec⟩
  | case6 _ _ _ _ _ _ _ _ ih | case7 _ _ _ _ _ _ ih =>
      obtain ⟨x, hx, hfound⟩ := ih hout
      exact ⟨x, List.mem_cons_of_mem _ hx, hfound⟩
  | _ => cases hout

/-- A status of committed comes with the record that says so, and an error is ruled out. -/
def StatusEvidence (S : Call → Prop) (u : UInt64) : Except LockResolverError TxnStatus → Trace → Prop
  | .ok (.committed ct), h => CommitKnown S h u ct
  | .ok _, _ => True
  | .error _, h => ¬ Lived (Accounted S) h

lemma checkTxnStatus_evidence (q : Bytes) (u : UInt64) (h : Trace) :
    (LockResolver.checkTxnStatus q u).Always (Justified (Accounted S)) (StatusEvidence S u) h := by
  refine checkTxnStatus_always ?_ ?_ ?_
  · intro items e hout hl
    obtain ⟨⟨e', b⟩, hx, err, hdec⟩ := statusLoop_error hout
    obtain ⟨⟨kt, hok⟩, -⟩ := record_decodes hl (saw_walked h .write _ hx)
    rw [hdec] at hok
    cases hok
  · intro items status hout
    cases status with
    | committed ct =>
        obtain ⟨⟨e, b⟩, hx, w, hdec, hw, rfl, hop⟩ := statusLoop_committed hout
        intro st hb
        obtain ⟨k', ct', w', rfl, hw', hfrom, -⟩ := hb.seen _ _ _ (saw_walked h .write _ hx)
        rw [decode_encode] at hdec
        cases hdec
        rw [hw] at hw'
        cases hw'
        exact hfrom hop
    | _ => trivial
  · intro items _
    refine checkPrimaryLock_always ?_ ?_ ?_
    · exact fun _ _ => trivial
    · exact fun entry l t _ _ _ => ⟨justified_back _ q u u, trivial⟩
    · exact fun _ _ _ _ _ _ => trivial

lemma resolveLock_evidence {lock : Lock} (hheld : Held S h k lock.startTs lock.op) :
    (resolveLock k lock).Always (Justified (Accounted S)) (fun _ _ => True) h := by
  have hstatus := (checkTxnStatus_evidence (S := S) lock.primaryKey lock.startTs h).keep
    (R := fun h' => Held S h' k lock.startTs lock.op) (fun _ o hh => hh.append [o]) hheld
  refine resolveLock_always (S := fun out h' => ((∃ e, out = .error e) ∨
    StatusEvidence S lock.startTs out h') ∧ Held S h' k lock.startTs lock.op)
    (hstatus.mono fun out h' hout => ⟨Or.inr hout.1, hout.2⟩) ?_ (fun _ _ _ _ => trivial) ?_ ?_
  · rintro out h' t ⟨hseen, hh⟩
    refine ⟨?_, hh.append _⟩
    rcases hseen with herr | hseen
    · exact Or.inl herr
    · rcases out with e | status
      · exact Or.inl ⟨e, rfl⟩
      · cases status with
        | committed ct => exact Or.inr fun st hb => hseen st hb.of_append
        | rolledBack => exact Or.inr trivial
        | locked ttl => exact Or.inr trivial
  · rintro ct h' ⟨⟨e, ⟨⟩⟩ | hseen, hh⟩
    exact ⟨justified_settle (fun _ => hseen) fun hop => hop ▸ hh, trivial⟩
  · intro status h' _ _
    exact ⟨justified_back h' k _ _, trivial⟩

/-! ## Reads -/

/-- A value comes with the record and the entry it was found in, a lock with the entry that holds
it; corrupted state is ruled out where nothing disturbs. -/
def ReadEvidence (S : Call → Prop) (k : Bytes) (r : UInt64) :
    Except MvccError (Option Bytes) → Trace → Prop
  | .ok (some x), h => ∃ ct s e b, ct ≤ r ∧ Saw h .write e b ∧ decode e = .ok (k, ct) ∧
      WriteRecord.fromBytes b = some ⟨s, .put⟩ ∧ Saw h .default (encode k s) x
  | .ok none, _ => True
  | .error .corruptedState, h => Lived (Accounted S) h → ¬ Undisturbed S
  | .error (.keyIsLocked p t), h => ∃ b l, Saw h .lock k b ∧ Lock.fromBytes b = .ok l ∧
      l.primaryKey = p ∧ l.startTs = t

variable {A : Trace → Batch → Prop}

lemma getLoop_evidence {r : UInt64} {items : List (Bytes × Bytes)}
    (hitems : ∀ x ∈ items, Saw h .write x.1 x.2) :
    (MvccReader.getLoop k r items).Always A (ReadEvidence S k r) h := by
  induction items with
  | nil => trivial
  | cons x items ih =>
      obtain ⟨e, b⟩ := x
      have hsaw := hitems _ List.mem_cons_self
      have hrest := ih fun y hy => hitems y (List.mem_cons_of_mem _ hy)
      simp only [MvccReader.getLoop]
      cases hdec : decode e with
      | error err =>
          intro hl
          obtain ⟨⟨kt, hok⟩, -⟩ := record_decodes hl hsaw
          rw [hdec] at hok
          cases hok
      | ok kt =>
          obtain ⟨k', ct⟩ := kt
          simp only
          split_ifs with hk hle
          · cases hw : WriteRecord.fromBytes b with
            | none =>
                intro hl
                obtain ⟨-, w, hw'⟩ := record_decodes hl hsaw
                rw [hw] at hw'
                cases hw'
            | some w =>
                obtain ⟨s, op⟩ := w
                cases op with
                | put =>
                    simp only [Prog.always_bind, Prog.always_lookup, Prog.onward_ok]
                    intro value
                    cases value with
                    | some x =>
                        exact ⟨ct, s, e, b, hle, hsaw.append _, hk ▸ hdec, hw,
                          saw_got h .default _ x⟩
                    | none =>
                        -- the record was seen before the value was missed
                        intro hl hu
                        obtain ⟨st, hb, hnone⟩ := hl.last
                        obtain ⟨k'', ct', w, rfl, hw', -, hvalue⟩ := hb.seen _ _ _ hsaw
                        rw [decode_encode] at hdec
                        cases hdec
                        rw [hw] at hw'
                        cases hw'
                        have hv : (st.get .default (encode k' s)).isSome := hvalue hu rfl
                        have hmissed : st.get .default (encode k s) = none := hnone
                        rw [hk, hmissed] at hv
                        cases hv
                | delete => trivial
                | rollback => exact hrest
          · exact hrest
          · trivial

lemma readerGet_evidence (k : Bytes) (r : UInt64) (h : Trace) :
    (MvccReader.get k r).Always A (ReadEvidence S k r) h := by
  have hwalk : ∀ h' : Trace, (Prog.walk .write (encode k r) >>= fun items =>
      MvccReader.getLoop k r items : Handler MvccError _).Always A (ReadEvidence S k r) h' := by
    intro h'
    simp only [Prog.always_bind, Prog.always_walk, Prog.onward_ok]
    exact fun items => getLoop_evidence fun x hx => saw_walked h' .write _ hx
  simp only [MvccReader.get, Prog.always_bind, Prog.always_lookup, Prog.onward_ok]
  intro entry
  cases entry with
  | none => exact hwalk _
  | some b =>
      cases hl : Lock.fromBytes b with
      | error e =>
          simp only [hl]
          intro hlived
          obtain ⟨l, hok⟩ := lock_decodes hlived (saw_got h .lock k b)
          rw [hl] at hok
          cases hok
      | ok l =>
          simp only [hl]
          split_ifs
          · exact ⟨b, l, saw_got h .lock k b, hl, rfl, rfl⟩
          · exact hwalk _

/-- The same for a read that resolves a lock in its way. -/
def GetEvidence (S : Call → Prop) (k : Bytes) (r : UInt64) :
    Except TxnError (Option Bytes) → Trace → Prop
  | .ok (some x), h => ReadEvidence S k r (.ok (some x)) h
  | .ok none, _ => True
  | .error e, h => Lived (Accounted S) h → e.Corrupted → ¬ Undisturbed S

lemma get_evidence {c : Call} {r : UInt64} (hc : S c) (hreads : c.ReadsKey k) (h : Trace) :
    (Coordinator.get k r).Always (Justified (Accounted S)) (GetEvidence S k r) h := by
  have hseen : ∀ {out : Except MvccError (Option Bytes)} {h' : Trace}, ReadEvidence S k r out h' →
      GetEvidence S k r (out.mapError .mvcc) h' := by
    rintro ((_ | _) | _ | x) h' hout
    · exact fun _ hcor => hcor.elim
    · exact fun hl _ => hout hl
    · trivial
    · exact hout
  simp only [Coordinator.get, Prog.always_bind, Prog.always_attempt]
  refine (readerGet_evidence (S := S) k r h).mono ?_
  rintro ((⟨p, t⟩ | _) | _ | x) h' hout
  · obtain ⟨b, l, hsaw, hl, rfl, rfl⟩ := hout
    simp only [Prog.onward_ok, Prog.always_bind, Prog.always_attempt]
    have hheld : Held S h' k l.startTs .put :=
      ⟨b, l, hsaw, hl, rfl, fun _ => Or.inr ⟨c, hc, hreads⟩⟩
    refine (@resolveLock_evidence S h' k (reportedLock l.primaryKey l.startTs) hheld).mono ?_
    intro out h'' _
    cases out with
    | error e => exact fun _ hcor => hcor.elim
    | ok u =>
        simp only [Prog.always_mapError]
        exact (readerGet_evidence (S := S) k r h'').mono fun out h₃ => hseen
  · exact fun hl _ => hout hl
  · trivial
  · exact hout

/-- Every pair comes with its evidence. -/
def ScanEvidence (S : Call → Prop) (r : UInt64) :
    Except TxnError (List (Bytes × Bytes)) → Trace → Prop
  | .ok kvs, h => ∀ y ∈ kvs, ReadEvidence S y.1 r (.ok (some y.2)) h
  | .error e, h => Lived (Accounted S) h → e.Corrupted → ¬ Undisturbed S

/-- Evidence stays. -/
lemma ReadEvidence.append {r : UInt64} {x : Bytes} (hs : ReadEvidence S k r (.ok (some x)) h)
    (h' : Trace) : ReadEvidence S k r (.ok (some x)) (h ++ h') := by
  obtain ⟨ct, s, e, b, hle, hsaw, hdec, hw, hsaw'⟩ := hs
  exact ⟨ct, s, e, b, hle, hsaw.append h', hdec, hw, hsaw'.append h'⟩

lemma scanLoop_evidence {a b : Bytes} {n : UInt32} {r : UInt64} {c : Call} (hc : S c)
    (hreads : ∀ k, InRange a b k → c.ReadsKey k) {items : List (Bytes × Bytes)}
    (hitems : ∀ x ∈ items, Saw h .write x.1 x.2) (last : Option Bytes)
    {results : List (Bytes × Bytes)} (hresults : ScanEvidence S r (.ok results) h) :
    (scanLoop a b n r last results items).Always (Justified (Accounted S)) (ScanEvidence S r) h := by
  induction items generalizing last results h with
  | nil => exact hresults
  | cons x items ih =>
      obtain ⟨e, bytes⟩ := x
      have hrest := fun y hy => hitems y (List.mem_cons_of_mem (e, bytes) hy)
      simp only [scanLoop]
      cases hdec : decode e with
      | error err =>
          intro hl
          obtain ⟨⟨kt, hok⟩, -⟩ := record_decodes hl (hitems _ List.mem_cons_self)
          rw [hdec] at hok
          cases hok
      | ok kt =>
          obtain ⟨k, ct⟩ := kt
          simp only
          split_ifs with ha hb hlast
          · exact ih hrest last hresults
          · exact hresults
          · exact ih hrest last hresults
          · have hin : InRange a b k := inRange_iff.mpr ⟨ha, hb⟩
            rw [Prog.always_bind]
            -- what has been seen so far is remembered through the read
            refine ((get_evidence (r := r) hc (hreads k hin) h).keep
              (R := fun h' => (∀ y ∈ items, Saw h' .write y.1 y.2) ∧
                ScanEvidence S r (.ok results) h') ?_ ⟨hrest, hresults⟩).mono ?_
            · rintro h' o ⟨hs, hr⟩
              exact ⟨fun y hy => (hs y hy).append [o], fun y hy => (hr y hy).append [o]⟩
            · rintro (e | _ | value) h' ⟨hout, hitems', hresults'⟩
              · exact hout
              · exact ih hitems' (some k) hresults'
              · have hmore : ScanEvidence S r (.ok (results ++ [(k, value)])) h' := by
                  intro y hy
                  rcases List.mem_append.mp hy with hy | hy
                  · exact hresults' y hy
                  · rw [List.mem_singleton.mp hy]
                    exact hout
                simp only [Prog.onward_ok]
                split_ifs
                · exact hmore
                · exact ih hitems' (some k) hmore

lemma scan_evidence {a b : Bytes} {n : UInt32} {r : UInt64} (hc : S (.scan a b n r)) (h : Trace) :
    (Coordinator.scan a b n r).Always (Justified (Accounted S)) (ScanEvidence S r) h := by
  simp only [Coordinator.scan, Prog.always_bind, Prog.always_walk, Prog.onward_ok]
  intro items
  exact scanLoop_evidence hc (fun k hk => hk) (fun x hx => saw_walked h .write _ hx) none
    fun y hy => absurd hy List.not_mem_nil

/-! ## Prewrites -/

lemma conflictLoop_corrupted {k : Bytes} {s : UInt64} {items : List (Bytes × Bytes)} {e : TxnError}
    (hout : conflictLoop k s items = .error e) (he : e.Corrupted) :
    ∃ x ∈ items, ∃ err, decode x.1 = .error err := by
  fun_induction conflictLoop k s items with
  | case2 e b rest err hdec => exact ⟨(e, b), List.mem_cons_self, err, hdec⟩
  | case5 _ _ _ _ _ _ _ ih =>
      obtain ⟨x, hx, hfound⟩ := ih hout
      exact ⟨x, List.mem_cons_of_mem _ hx, hfound⟩
  | case1 | case6 => cases hout
  | case3 | case4 =>
      cases hout
      exact he.elim

lemma checkConflict_evidence (k : Bytes) (s : UInt64) (h : Trace) :
    (checkConflict k s).Always A (Sound S) h := by
  simp only [checkConflict, Prog.always_bind, Prog.always_walk, Prog.onward_ok,
    Prog.always_ofExcept]
  intro items hl e hout he
  obtain ⟨⟨e', b⟩, hx, err, hdec⟩ := conflictLoop_corrupted hout he
  obtain ⟨⟨kt, hok⟩, -⟩ := record_decodes hl (saw_walked h .write _ hx)
  rw [hdec] at hok
  cases hok

lemma recheckLock_evidence (k : Bytes) (s : UInt64) (h : Trace) :
    (recheckLock k s).Always A (Sound S) h := by
  simp only [recheckLock, Prog.always_bind, Prog.always_lookup, Prog.onward_ok]
  intro entry
  cases entry with
  | none => exact sound_ok _ _
  | some b =>
      cases hl : Lock.fromBytes b with
      | error e =>
          simp only [hl]
          exact sound_lock hl _
      | ok l =>
          simp only [hl]
          split_ifs
          · exact sound_ok _ _
          · exact sound_error id _

lemma clearLockThen_evidence {k : Bytes} {s : UInt64} {afterwards : Handler TxnError Unit}
    (hafter : ∀ h', afterwards.Always (Justified (Accounted S)) (Sound S) h') (h : Trace) :
    (clearLockThen k s afterwards).Always (Justified (Accounted S)) (Sound S) h := by
  simp only [clearLockThen, Prog.always_bind, Prog.always_lookup, Prog.onward_ok]
  intro entry
  cases entry with
  | none => exact sound_ok _ _
  | some b =>
      cases hl : Lock.fromBytes b with
      | error e =>
          simp only [hl]
          exact sound_lock hl _
      | ok l =>
          simp only [hl]
          split_ifs
          · exact sound_ok _ _
          · simp only [Prog.always_bind, Prog.always_attempt]
            refine (resolveLock_evidence (S := S) (held_of_read (entryLock_read hl))).mono ?_
            intro out h' _
            cases out with
            | error e => exact sound_error id _
            | ok u => exact hafter h'

lemma clearLock_evidence (k : Bytes) (s : UInt64) (h : Trace) :
    (clearLock k s).Always (Justified (Accounted S)) (Sound S) h :=
  clearLockThen_evidence (recheckLock_evidence k s) h

lemma clearLockOnce_evidence (k : Bytes) (s : UInt64) (h : Trace) :
    (clearLockOnce k s).Always (Justified (Accounted S)) (Sound S) h :=
  clearLockThen_evidence (fun h' => Prog.always_pure.mpr (sound_ok () h')) h

variable {c : Call} {s ttl : UInt64} {p : Bytes}

lemma prewrite_evidence (hc : S c) {ms : List Mutation} (hms : ∀ m ∈ ms, c.Prewrites s p m)
    (h : Trace) :
    (Coordinator.prewrite s ms p ttl).Always (Justified (Accounted S)) (Sound S) h := by
  induction ms generalizing h with
  | nil => exact sound_ok _ _
  | cons m ms ih =>
      simp only [Coordinator.prewrite, Prog.always_bind]
      refine (checkConflict_evidence (S := S) m.key s h).mono ?_
      intro out h₁ hout
      cases out with
      | error e => exact hout
      | ok u =>
          simp only [Prog.onward_ok, Prog.always_bind]
          refine (clearLock_evidence m.key s h₁).mono ?_
          intro out h₂ hout
          cases out with
          | error e => exact hout
          | ok u =>
              refine ⟨justified_stage hc (hms m List.mem_cons_self) h₂, ?_⟩
              exact ih (fun m' hm' => hms m' (List.mem_cons_of_mem m hm')) _

lemma stageLoop_evidence (hc : S c) {ms : List Mutation} (hms : ∀ m ∈ ms, c.Prewrites s p m)
    {b : Batch} (hb : Justified (Accounted S) h b) :
    (stageLoop s p ttl b ms).Always (Justified (Accounted S))
      (fun out h' => Sound S out h' ∧ ∀ b', out = .ok b' → Justified (Accounted S) h' b') h := by
  induction ms generalizing h b with
  | nil =>
      refine ⟨sound_ok _ _, ?_⟩
      rintro b' ⟨⟩
      exact hb
  | cons m ms ih =>
      simp only [stageLoop, Prog.always_bind]
      refine ((checkConflict_evidence (S := S) m.key s h).keep
        (R := fun h' => Justified (Accounted S) h' b) (fun _ o hj => hj.append_history [o]) hb).mono ?_
      rintro out h₁ ⟨hout, hb₁⟩
      cases out with
      | error e =>
          refine ⟨fun hl e' he' => hout hl e' (by cases he'; rfl), ?_⟩
          rintro b' ⟨⟩
      | ok u =>
          simp only [Prog.onward_ok, Prog.always_bind]
          refine ((clearLockOnce_evidence (S := S) m.key s h₁).keep
            (R := fun h' => Justified (Accounted S) h' b) (fun _ o hj => hj.append_history [o])
            hb₁).mono ?_
          rintro out h₂ ⟨hout, hb₂⟩
          cases out with
          | error e =>
              refine ⟨fun hl e' he' => hout hl e' (by cases he'; rfl), ?_⟩
              rintro b' ⟨⟩
          | ok u =>
              exact ih (fun m' hm' => hms m' (List.mem_cons_of_mem m hm'))
                (hb₂.append (justified_stage hc (hms m List.mem_cons_self) h₂))

lemma batchPrewrite_evidence (hc : S c) {ms : List Mutation} (hms : ∀ m ∈ ms, c.Prewrites s p m)
    (h : Trace) :
    (Coordinator.batchPrewrite s ms p ttl).Always (Justified (Accounted S)) (Sound S) h := by
  cases ms with
  | nil => exact sound_ok _ _
  | cons m ms =>
      simp only [Coordinator.batchPrewrite, Prog.always_bind]
      refine (stageLoop_evidence hc hms (justified_nil h)).mono ?_
      rintro out h' ⟨hout, hb⟩
      cases out with
      | error e => exact fun hl e' he' => hout hl e' (by cases he'; rfl)
      | ok b => exact ⟨hb b rfl, sound_ok _ _⟩

/-! ## Commits, rollbacks and heartbeats -/

variable {ct : UInt64} {ks : List Bytes}

/-- A commit settles the locks of its own transaction. -/
lemma justified_commit (hc : S c) (hargs : c.commitArgs = some (s, ct, ks))
    {entry : Option Bytes} {l : Lock} (hl : entryLock entry = some l) (hs : l.startTs = s) :
    Justified (Accounted S) (h ++ [Obs.got Part.lock k entry]) (settleBatch k ct ⟨s, l.op⟩) := by
  subst hs
  refine justified_settle (fun _ st _ => ⟨c, hc, ks, hargs⟩) fun hop => ?_
  have hheld := held_of_read (S := S) (h := h) (k := k) hl
  rwa [hop] at hheld

lemma commitSecondaries_evidence (hc : S c) (hargs : c.commitArgs = some (s, ct, ks))
    (rest : List Bytes) (h : Trace) :
    (commitSecondaries s ct rest).Always (Justified (Accounted S)) (Sound S) h := by
  induction rest generalizing h with
  | nil => exact sound_ok _ _
  | cons k rest ih =>
      simp only [commitSecondaries, Prog.always_bind, Prog.always_lookup, Prog.onward_ok]
      intro entry
      cases entry with
      | none => exact ih _
      | some b =>
          cases hl : Lock.fromBytes b with
          | error e =>
              simp only [hl]
              exact ih _
          | ok l =>
              simp only [hl]
              split_ifs with hs
              · rw [Prog.always_bind]
                exact ⟨justified_commit hc hargs (entryLock_read hl) hs, ih _⟩
              · exact ih _

lemma commit_evidence (hc : S c) (hargs : c.commitArgs = some (s, ct, ks)) (h : Trace) :
    (Coordinator.commit s ct ks).Always (Justified (Accounted S)) (Sound S) h := by
  cases ks with
  | nil => exact sound_ok _ _
  | cons k ks =>
      simp only [Coordinator.commit, Prog.always_bind, Prog.always_lookup, Prog.onward_ok]
      intro entry
      cases entry with
      | none => exact sound_error id _
      | some b =>
          cases hl : Lock.fromBytes b with
          | error e =>
          simp only [hl]
          exact sound_lock hl _
          | ok l =>
              simp only [hl]
              split_ifs with hs
              · rw [Prog.always_bind]
                exact ⟨justified_commit hc hargs (entryLock_read hl) hs,
                  commitSecondaries_evidence hc hargs ks _⟩
              · exact sound_error id _

lemma commitLoop_evidence (hc : S c) (hargs : c.commitArgs = some (s, ct, ks)) (rest : List Bytes)
    {b : Batch} (hb : Justified (Accounted S) h b) :
    (commitLoop s ct b rest).Always (Justified (Accounted S))
      (fun out h' => Sound S out h' ∧ ∀ b', out = .ok b' → Justified (Accounted S) h' b') h := by
  induction rest generalizing h b with
  | nil =>
      refine ⟨sound_ok _ _, ?_⟩
      rintro b' ⟨⟩
      exact hb
  | cons k rest ih =>
      simp only [commitLoop, Prog.always_bind, Prog.always_lookup, Prog.onward_ok]
      intro entry
      have hb' := hb.append_history [Obs.got Part.lock k entry]
      cases entry with
      | none => exact ih hb'
      | some bytes =>
          cases hl : Lock.fromBytes bytes with
          | error e =>
              simp only [hl]
              refine ⟨sound_lock hl _, ?_⟩
              rintro b' ⟨⟩
          | ok l =>
              simp only [hl]
              split_ifs with hs
              · exact ih (hb'.append (justified_commit hc hargs (entryLock_read hl) hs))
              · exact ih hb'

lemma batchCommit_evidence (hc : S c) (hargs : c.commitArgs = some (s, ct, ks)) (h : Trace) :
    (Coordinator.batchCommit s ct ks).Always (Justified (Accounted S)) (Sound S) h := by
  cases ks with
  | nil => exact sound_ok _ _
  | cons k ks =>
      simp only [Coordinator.batchCommit, Prog.always_bind]
      refine (commitLoop_evidence hc hargs (k :: ks) (justified_nil h)).mono ?_
      rintro out h' ⟨hout, hb⟩
      cases out with
      | error e => exact fun hl e' he' => hout hl e' (by cases he'; rfl)
      | ok b => exact ⟨hb b rfl, sound_ok _ _⟩

/-- Rollback records are in order anywhere. -/
lemma justified_record (h : Trace) (k : Bytes) (s : UInt64) {b : Batch}
    (hb : ∀ i ∈ b, (∃ k', i = .remove .lock k') ∨
      i = .insert .write (encode k s) (WriteRecord.mk s .rollback).toBytes) :
    Justified (Accounted S) h b := by
  intro st _
  have hkept : ∀ e, .remove .default e ∉ b := by
    intro e he
    rcases hb _ he with ⟨k', heq⟩ | heq <;> cases heq
  refine ⟨fun p e x hin => hin.apply fun _ => hkept, ?_⟩
  intro p e x hx
  rcases hb _ hx with ⟨k', heq⟩ | heq
  · cases heq
  · cases heq
    exact ⟨k, s, ⟨s, .rollback⟩, rfl, WriteRecord.fromBytes_toBytes _, fun hop => absurd rfl hop,
      by rintro - ⟨⟩⟩

lemma rollback_evidence (s : UInt64) (ks : List Bytes) (h : Trace) :
    (Coordinator.rollback s ks).Always (Justified (Accounted S)) (Sound S) h := by
  induction ks generalizing h with
  | nil => exact sound_ok _ _
  | cons k ks ih =>
      simp only [Coordinator.rollback, Prog.always_bind, Prog.always_lookup, Prog.onward_ok]
      have hrecord : ∀ h' : Trace, Justified (Accounted S) h'
          [.insert .write (encode k s) (WriteRecord.mk s .rollback).toBytes] :=
        fun h' => justified_record h' k s (by simp)
      intro entry
      cases entry with
      | none =>
          rw [Prog.always_bind]
          exact ⟨hrecord _, ih _⟩
      | some b =>
          cases hl : Lock.fromBytes b with
          | error e =>
              simp only [hl, Prog.always_bind]
              exact ⟨hrecord _, ih _⟩
          | ok l =>
              simp only [hl]
              split_ifs
              · rw [Prog.always_bind]
                exact ⟨justified_record _ k s (by simp), ih _⟩
              · rw [Prog.always_bind]
                exact ⟨hrecord _, ih _⟩

lemma heartbeat_evidence (k : Bytes) (s ttl : UInt64) (h : Trace) :
    (Coordinator.heartbeat k s ttl).Always (Justified (Accounted S)) (Sound S) h := by
  simp only [Coordinator.heartbeat, Prog.always_bind, Prog.always_lookup, Prog.onward_ok]
  intro entry
  cases entry with
  | none => exact sound_error id _
  | some b =>
      cases hl : Lock.fromBytes b with
      | error e =>
          simp only [hl]
          exact sound_lock hl _
      | ok l =>
          simp only [hl]
          split_ifs
          · rw [Prog.always_bind]
            exact ⟨justified_refresh (entryLock_read hl) ttl, sound_ok _ _⟩
          · exact sound_error id _

/-- A collection inserts nothing, and where one is requested nothing rests on the values. -/
lemma gc_evidence {sp : UInt64} (hc : S (.gc sp)) (h : Trace) :
    (StorageEngine.gcKeysOlderThan sp : Handler TxnError ℕ).Always (Justified (Accounted S))
      (Sound S) h := by
  simp only [StorageEngine.gcKeysOlderThan, Prog.always_bind, Prog.always_walk, Prog.onward_ok]
  intro items
  split_ifs
  · rw [Prog.always_bind]
    refine ⟨fun st _ => ⟨?_, ?_⟩, sound_ok _ _⟩
    · exact fun p e x hin => hin.apply fun hu => absurd hc (hu.noGc sp)
    · intro p e x hx
      obtain ⟨y, -, hy | ⟨_, _, _, -, -, hy⟩⟩ := StorageEngine.mem_gcLoop hx
      · cases hy
      · cases hy
  · exact sound_ok _ _

/-! ## Requests -/

/-- What the outcome of a request comes with. -/
def ReplyEvidence (S : Call → Prop) (c : Call) (out : Except TxnError Reply) (h : Trace) : Prop :=
  (∀ e, out = .error e → Lived (Accounted S) h → e.Corrupted →
    c.readTs.isSome ∧ ¬ Undisturbed S) ∧
  (∀ k r x, c = .get k r → out = .ok (.value (some x)) → ReadEvidence S k r (.ok (some x)) h) ∧
  ∀ a b n r kvs, c = .scan a b n r → out = .ok (.pairs kvs) →
    ∀ y ∈ kvs, ReadEvidence S y.1 r (.ok (some y.2)) h

lemma replyEvidence_of_sound {α : Type} {out : Except TxnError α} {f : α → Reply}
    (hout : Sound S out h) (hget : ∀ k r, c ≠ .get k r) (hscan : ∀ a b n r, c ≠ .scan a b n r) :
    ReplyEvidence S c (out.map f) h := by
  refine ⟨?_, fun k r x hc => absurd hc (hget k r), fun a b n r kvs hc => absurd hc (hscan a b n r)⟩
  intro e he hl hcor
  cases out with
  | ok a => cases he
  | error e' =>
      cases he
      exact absurd hcor (hout hl e rfl)

/-- **Every handler leaves its partitions in order**, whatever runs beside it. -/
theorem handler_evidence (hc : S c) :
    c.handler.Always (Justified (Accounted S)) (ReplyEvidence S c) [] := by
  have hplain : ∀ {α : Type} {x : Handler TxnError α} {f : α → Reply}, c.readTs = none →
      x.Always (Justified (Accounted S)) (Sound S) [] →
      (do return f (← x) : Handler TxnError Reply).Always (Justified (Accounted S))
        (ReplyEvidence S c) [] := by
    intro α x f hnone hx
    rw [Prog.always_bind_pure]
    refine hx.mono fun out h hout => replyEvidence_of_sound hout ?_ ?_
    · rintro k r rfl
      cases hnone
    · rintro a b n r rfl
      cases hnone
  cases c with
  | prewrite s ms p ttl =>
      exact hplain rfl (prewrite_evidence hc (fun m hm => ⟨ms, ttl, rfl, hm⟩) [])
  | batchPrewrite s ms p ttl =>
      exact hplain rfl (batchPrewrite_evidence hc (fun m hm => ⟨ms, ttl, rfl, hm⟩) [])
  | commit s ct ks => exact hplain rfl (commit_evidence hc rfl [])
  | batchCommit s ct ks => exact hplain rfl (batchCommit_evidence hc rfl [])
  | rollback s ks => exact hplain rfl (rollback_evidence s ks [])
  | heartbeat p s ttl => exact hplain rfl (heartbeat_evidence p s ttl [])
  | get k r =>
      rw [Call.handler, Prog.always_bind_pure]
      refine (get_evidence hc rfl []).mono ?_
      intro out h hout
      refine ⟨?_, ?_, by rintro a b n r' kvs ⟨⟩⟩
      · intro e he hl hcor
        cases out with
        | ok x => cases he
        | error e' =>
            cases he
            exact ⟨rfl, hout hl hcor⟩
      · rintro k' r' x ⟨⟩ hx
        cases out with
        | ok y =>
            cases hx
            exact hout
        | error e => cases hx
  | scan a b n r =>
      rw [Call.handler, Prog.always_bind_pure]
      refine (scan_evidence hc []).mono ?_
      intro out h hout
      refine ⟨?_, by rintro k r' x ⟨⟩, ?_⟩
      · intro e he hl hcor
        cases out with
        | ok kvs => cases he
        | error e' =>
            cases he
            exact ⟨rfl, hout hl hcor⟩
      · rintro a' b' n' r' kvs ⟨⟩ hx
        cases out with
        | ok kvs' =>
            cases hx
            exact hout
        | error e => cases hx
  | checkTxnStatus p s =>
      refine hplain rfl ?_
      rw [Coordinator.checkTxnStatus, Prog.always_mapError]
      refine (checkTxnStatus_evidence p s []).mono fun out h hout => ?_
      cases out with
      | ok status => exact sound_ok _ _
      | error e => exact fun hl => absurd hl hout
  | gc sp => exact hplain rfl (gc_evidence hc [])

end

end AcidKv
