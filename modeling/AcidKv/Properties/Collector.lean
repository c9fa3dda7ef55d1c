import AcidKv.Client.BatchCollector
import AcidKv.Lib.Runs
import Mathlib.Data.List.Nodup

/-!
# What becomes of the items of the batch collector

At every moment the items that the channel has accepted are, in this order: those whose calls have
returned, those that the task holds, and those in the channel (`Accounts`).  So calls are made in
the order of arrival, and each sender gets the result of its own call.

The task returns from inside the inner loop when it finds the channel closed, with whatever is in
the buffer.  Nothing is lost exactly if the buffer is empty then (`LeavesNothing`).
-/

namespace AcidKv

namespace BatchCollector

variable {ι κ : Type}

namespace Stage

/-- The items that the task holds; at its end, those it has dropped. -/
def held : Stage ι → List ι
  | .collecting items => items
  | .calling item rest => item :: rest
  | .ended dropped => dropped

/-- The item whose call is under way. -/
def underWay : Stage ι → List ι
  | .calling item _ => [item]
  | _ => []

end Stage

namespace BatchTask

variable {w : Work ι κ} {batchSize : ℕ} {t : BatchTask ι κ} {served : List (ι × CallResult)}

/-- The items in `served` have been dealt with, with these results; the task holds `held`, and of
these it is calling for `underWay`. -/
structure Logged (w : Work ι κ) (t : BatchTask ι κ) (served : List (ι × CallResult))
    (held underWay : List ι) : Prop where
  accepted : t.accepted = served.map (·.1) ++ held ++ t.queue
  calls : t.calls = (served.map (·.1) ++ underWay).map w.request
  returned : t.returned = served.map fun x => (w.request x.1, x.2)
  sent : t.sent = served.map fun x => (w.tx x.1, x.2)
  nodup : (t.accepted.map w.tx).Nodup

/-- Everything that was accepted is accounted for, and an ended task has an empty channel. -/
structure Accounts (w : Work ι κ) (t : BatchTask ι κ) (served : List (ι × CallResult)) : Prop where
  logged : Logged w t served t.stage.held t.stage.underWay
  ended : ∀ dropped, t.stage = .ended dropped → t.closed ∧ t.queue = []

lemma accounts_start : Accounts w (start : BatchTask ι κ) [] :=
  ⟨⟨rfl, rfl, rfl, rfl, List.nodup_nil⟩, fun _ h => by cases h⟩

/-! ## One event -/

lemma Logged.collecting {items : List ι} (h : Logged w t served items []) :
    Accounts w { t with stage := .collecting items } served :=
  ⟨⟨h.accepted, h.calls, h.returned, h.sent, h.nodup⟩, fun _ hended => by cases hended⟩

/-- Going over to the calls. -/
lemma Logged.flush {items : List ι} (h : Logged w t served items []) :
    Accounts w (t.flush w items) served := by
  have hcalls := h.calls
  rw [List.append_nil] at hcalls
  cases items with
  | nil => exact h.collecting
  | cons item rest =>
      refine ⟨⟨h.accepted, ?_, h.returned, h.sent, h.nodup⟩, fun _ hended => by cases hended⟩
      rw [BatchTask.flush, Stage.underWay, List.map_append, ← hcalls]
      rfl

lemma Accounts.send (h : Accounts w t served) (item : ι) : Accounts w (t.send w item) served := by
  unfold BatchTask.send
  split_ifs with hrefused
  · exact h
  obtain ⟨hopen, hrefused⟩ := not_or.mp hrefused
  obtain ⟨-, hfresh⟩ := not_or.mp hrefused
  refine ⟨⟨?_, h.logged.calls, h.logged.returned, h.logged.sent, ?_⟩, fun dropped hended => ?_⟩
  · rw [h.logged.accepted, List.append_assoc]
  · rw [List.map_append, List.nodup_append]
    refine ⟨h.logged.nodup, List.nodup_singleton _, fun a ha b hb heq => ?_⟩
    rw [List.map_singleton, List.mem_singleton] at hb
    exact hfresh (hb ▸ heq ▸ ha)
  · exact absurd (h.ended dropped hended).1 hopen

lemma Accounts.recv {items : List ι} (h : Accounts w t served)
    (hstage : t.stage = .collecting items) : Accounts w (t.recv w batchSize items) served := by
  have hlogged := h.logged
  rw [hstage] at hlogged
  unfold BatchTask.recv
  cases hqueue : t.queue with
  | nil =>
      simp only
      split_ifs with hclosed
      · refine ⟨⟨?_, hlogged.calls, hlogged.returned, hlogged.sent, hlogged.nodup⟩,
          fun _ _ => ⟨hclosed, rfl⟩⟩
        rw [hlogged.accepted, hqueue]
        rfl
      · exact h
  | cons item queue =>
      -- the item moves from the channel to the end of the buffer
      have hmoved : Logged w { t with queue := queue } served (items ++ [item]) [] := by
        refine ⟨?_, hlogged.calls, hlogged.returned, hlogged.sent, hlogged.nodup⟩
        rw [hlogged.accepted, hqueue]
        simp [Stage.held]
      simp only
      split_ifs
      · exact hmoved.flush
      · exact hmoved.collecting

lemma Accounts.callReturns {item : ι} {rest : List ι} (h : Accounts w t served)
    (hstage : t.stage = .calling item rest) (res : CallResult) :
    Accounts w (t.callReturns w item rest res) (served ++ [(item, res)]) := by
  have hlogged := h.logged
  rw [hstage] at hlogged
  refine Logged.flush ⟨?_, ?_, ?_, ?_, hlogged.nodup⟩
  · rw [hlogged.accepted]
    simp [Stage.held]
  · rw [hlogged.calls]
    simp [Stage.underWay]
  · rw [hlogged.returned]
    simp
  · rw [hlogged.sent]
    simp

lemma Accounts.step (h : Accounts w t served) (e : TaskEvent ι) :
    ∃ served', Accounts w (t.step w batchSize e) served' := by
  cases e with
  | send item => exact ⟨served, h.send item⟩
  | dropSenders =>
      obtain ⟨hlogged, hended⟩ := h
      exact ⟨served, ⟨hlogged.accepted, hlogged.calls, hlogged.returned, hlogged.sent,
        hlogged.nodup⟩, fun dropped hstage => ⟨rfl, (hended dropped hstage).2⟩⟩
  | recv =>
      simp only [BatchTask.step]
      cases hstage : t.stage with
      | collecting items => exact ⟨served, h.recv hstage⟩
      | calling item rest => exact ⟨served, h⟩
      | ended dropped => exact ⟨served, h⟩
  | timeout =>
      simp only [BatchTask.step]
      cases hstage : t.stage with
      | collecting items =>
          have hlogged := h.logged
          rw [hstage] at hlogged
          exact ⟨served, hlogged.flush⟩
      | calling item rest => exact ⟨served, h⟩
      | ended dropped => exact ⟨served, h⟩
  | callReturns res =>
      simp only [BatchTask.step]
      cases hstage : t.stage with
      | calling item rest => exact ⟨_, h.callReturns hstage res⟩
      | collecting items => exact ⟨served, h⟩
      | ended dropped => exact ⟨served, h⟩

lemma stage_send (item : ι) : (t.send w item).stage = t.stage := by
  unfold BatchTask.send
  split_ifs
  · rfl
  · rfl

/-- An ended task does nothing more. -/
lemma step_of_ended {dropped : List ι} (h : t.stage = .ended dropped) (e : TaskEvent ι) :
    (t.step w batchSize e).stage = .ended dropped := by
  cases e with
  | send item => exact (stage_send item).trans h
  | dropSenders => exact h
  | _ => simp only [BatchTask.step, h]

lemma flush_stage_ne {items dropped : List ι} : (t.flush w items).stage ≠ .ended dropped := by
  cases items with
  | nil => exact fun h => by cases h
  | cons item rest => exact fun h => by cases h

lemma ended_of_recv {items dropped : List ι} (hstage : t.stage = .collecting items)
    (h : (t.recv w batchSize items).stage = .ended dropped) :
    items = dropped ∧ t.queue = [] ∧ t.closed := by
  unfold BatchTask.recv at h
  cases hqueue : t.queue with
  | nil =>
      simp only [hqueue] at h
      split_ifs at h with hclosed
      · cases h
        exact ⟨rfl, rfl, hclosed⟩
      · rw [hstage] at h
        cases h
  | cons item queue =>
      simp only [hqueue] at h
      split_ifs at h
      exact absurd h flush_stage_ne

/-- Where a task has come to its end: it was there before, or it has found the channel closed. -/
lemma ended_of_step {e : TaskEvent ι} {dropped : List ι}
    (h : (t.step w batchSize e).stage = .ended dropped) :
    t.stage = .ended dropped ∨
      e = .recv ∧ t.stage = .collecting dropped ∧ t.queue = [] ∧ t.closed := by
  cases hstage : t.stage with
  | ended dropped' =>
      rw [step_of_ended hstage] at h
      exact Or.inl h
  | calling item rest =>
      cases e with
      | send item' =>
          rw [BatchTask.step, stage_send, hstage] at h
          cases h
      | callReturns res =>
          simp only [BatchTask.step, hstage] at h
          exact absurd h flush_stage_ne
      | _ => simp [BatchTask.step, hstage] at h
  | collecting items =>
      cases e with
      | send item =>
          rw [BatchTask.step, stage_send, hstage] at h
          cases h
      | recv =>
          simp only [BatchTask.step, hstage] at h
          obtain ⟨rfl, hqueue, hclosed⟩ := ended_of_recv hstage h
          exact Or.inr ⟨rfl, rfl, hqueue, hclosed⟩
      | timeout =>
          simp only [BatchTask.step, hstage] at h
          exact absurd h flush_stage_ne
      | _ => simp [BatchTask.step, hstage] at h

/-! ## Runs -/

lemma accounts_run (w : Work ι κ) (batchSize : ℕ) (events : List (TaskEvent ι)) :
    ∃ served, Accounts w (run w batchSize events) served := by
  refine List.foldlRecOn (motive := fun t => ∃ served, Accounts w t served) events _
    ⟨[], accounts_start⟩ fun t ht e _ => ?_
  obtain ⟨served, h⟩ := ht
  exact h.step e

/-- If the task finds the channel closed, its buffer is empty. -/
def LeavesNothing (t : BatchTask ι κ) (e : TaskEvent ι) : Prop :=
  ∀ items, e = .recv → t.stage = .collecting items → t.queue = [] → t.closed → items = []

/-- If the task has ended, it has dropped nothing. -/
def NoneDropped (t : BatchTask ι κ) : Prop := ∀ dropped, t.stage = .ended dropped → dropped = []

lemma noneDropped_run_iff (w : Work ι κ) (batchSize : ℕ) (events : List (TaskEvent ι)) :
    NoneDropped (run w batchSize events) ↔
      Guarded (step w batchSize) LeavesNothing start events := by
  have hstart : NoneDropped (start : BatchTask ι κ) := fun _ h => by cases h
  have hstep : ∀ (t : BatchTask ι κ) e, NoneDropped t → LeavesNothing t e →
      NoneDropped (t.step w batchSize e) := by
    intro t e ht he dropped hended
    rcases ended_of_step hended with hbefore | ⟨hrecv, hstage, hqueue, hclosed⟩
    · exact ht dropped hbefore
    · exact he dropped hrecv hstage hqueue hclosed
  have hback : ∀ (t : BatchTask ι κ) e, NoneDropped t → NoneDropped (t.step w batchSize e) →
      LeavesNothing t e := by
    rintro t _ - ht items rfl hstage hqueue hclosed
    exact ht items (by simp [BatchTask.step, BatchTask.recv, hstage, hqueue, hclosed])
  rw [← forall_prefixes_iff_guarded NoneDropped NoneDropped (fun _ h => h) hstep hback hstart]
  refine ⟨fun h done hdone => ?_, fun h => h events (List.prefix_refl _)⟩
  -- what has ended by then stays so to the end of the run
  obtain ⟨rest, rfl⟩ := hdone
  intro dropped hended
  refine h dropped ?_
  rw [run, List.foldl_append]
  exact List.foldlRecOn (motive := fun t : BatchTask ι κ => t.stage = .ended dropped) rest _ hended
    fun t ht e _ => step_of_ended ht e

/-! ## All items -/

/-- Calls are made in the order of arrival; of the items whose calls have returned, each sender has
been used once, with the result of its own call. -/
structure InOrder (w : Work ι κ) (t : BatchTask ι κ) : Prop where
  calls : t.calls <+: t.accepted.map w.request
  answered : ∃ served : List (ι × CallResult), served.map (·.1) <+: t.accepted ∧
    t.returned = (served.map fun x => (w.request x.1, x.2)) ∧
    t.sent = served.map fun x => (w.tx x.1, x.2)
  nodup : (t.accepted.map w.tx).Nodup

/-- Every accepted item has had its one call, and its sender the result. -/
def Complete (w : Work ι κ) (t : BatchTask ι κ) : Prop :=
  ∃ served : List (ι × CallResult), served.map (·.1) = t.accepted ∧
    t.calls = t.accepted.map w.request ∧
    t.returned = (served.map fun x => (w.request x.1, x.2)) ∧
    t.sent = served.map fun x => (w.tx x.1, x.2)

lemma Accounts.inOrder (h : Accounts w t served) : InOrder w t := by
  have hlogged := h.logged
  refine ⟨?_, ⟨served, ?_, hlogged.returned, hlogged.sent⟩, hlogged.nodup⟩
  · rw [hlogged.calls, hlogged.accepted]
    refine List.IsPrefix.map _ ?_
    rw [List.append_assoc, List.prefix_append_right_inj]
    cases t.stage with
    | calling item rest => exact ⟨rest ++ t.queue, rfl⟩
    | collecting items => exact List.nil_prefix
    | ended dropped => exact List.nil_prefix
  · rw [hlogged.accepted, List.append_assoc]
    exact List.prefix_append _ _

lemma Accounts.accepted_of_ended (h : Accounts w t served) {dropped : List ι}
    (hended : t.stage = .ended dropped) : t.accepted = served.map (·.1) ++ dropped := by
  rw [h.logged.accepted, (h.ended dropped hended).2, List.append_nil, hended]
  rfl

lemma Accounts.complete_iff (h : Accounts w t served) {dropped : List ι}
    (hended : t.stage = .ended dropped) : Complete w t ↔ dropped = [] := by
  have haccepted := h.accepted_of_ended hended
  have hlogged := h.logged
  rw [hended] at hlogged
  have hcalls : t.calls = (served.map (·.1)).map w.request := by
    rw [hlogged.calls]
    simp [Stage.underWay]
  constructor
  · rintro ⟨-, -, hall, -⟩
    -- there are as many calls as items, and none for those that were dropped
    rw [hcalls, haccepted] at hall
    have hlen := congrArg List.length hall
    simp only [List.length_map, List.length_append] at hlen
    exact List.eq_nil_of_length_eq_zero (by omega)
  · rintro rfl
    rw [List.append_nil] at haccepted
    exact ⟨served, haccepted.symm, by rw [hcalls, haccepted], hlogged.returned, hlogged.sent⟩

lemma run_complete_iff (w : Work ι κ) (batchSize : ℕ) (events : List (TaskEvent ι)) :
    InOrder w (run w batchSize events) ∧
      ∀ dropped, (run w batchSize events).stage = .ended dropped →
        (Complete w (run w batchSize events) ↔
          Guarded (step w batchSize) LeavesNothing start events) := by
  obtain ⟨served, h⟩ := accounts_run w batchSize events
  refine ⟨h.inOrder, fun dropped hended => ?_⟩
  rw [h.complete_iff hended, ← noneDropped_run_iff]
  constructor
  · rintro rfl dropped' hended'
    rw [hended] at hended'
    cases hended'
    rfl
  · exact fun hnone => hnone dropped hended

/-! ## What the submitters are told -/

/-- The sender of an item that comes later in the list is not that of one before. -/
lemma tx_ne {before after : List ι} {item : ι} (h : ((before ++ after).map w.tx).Nodup)
    (hitem : item ∈ after) : ∀ x ∈ before, w.tx item ≠ w.tx x := by
  intro x hx heq
  rw [List.map_append, List.nodup_append] at h
  exact h.2.2 _ (List.mem_map_of_mem hx) _ (List.mem_map_of_mem hitem) heq.symm

lemma Accounts.reply_of_served (h : Accounts w t served) {item : ι} {res : CallResult}
    (hx : (item, res) ∈ served) : t.reply w (w.tx item) = some res := by
  obtain ⟨before, after, rfl⟩ := List.append_of_mem hx
  have hnodup := h.logged.nodup
  have haccepted : t.accepted = before.map (·.1) ++
      item :: (after.map (·.1) ++ (t.stage.held ++ t.queue)) := by
    rw [h.logged.accepted]
    simp
  rw [haccepted] at hnodup
  have hlookup : t.sent.lookup (w.tx item) = some res := by
    rw [h.logged.sent, List.lookup_eq_some_iff]
    refine ⟨before.map fun x => (w.tx x.1, x.2), after.map fun x => (w.tx x.1, x.2), ?_, ?_⟩
    · rw [List.map_append, List.map_cons]
    · rw [List.forall_mem_map]
      intro x hx'
      exact bne_iff_ne.mpr (tx_ne hnodup List.mem_cons_self x.1 (List.mem_map_of_mem hx'))
  simp [reply, hlookup]

lemma Accounts.reply_of_dropped (h : Accounts w t served) {dropped : List ι}
    (hended : t.stage = .ended dropped) {item : ι} (hitem : item ∈ dropped) :
    t.reply w (w.tx item) = some (.error .channelClosed) := by
  have hnodup := h.logged.nodup
  rw [h.logged.accepted, List.append_assoc, hended] at hnodup
  have hlookup : t.sent.lookup (w.tx item) = none := by
    rw [h.logged.sent, List.lookup_eq_none_iff, List.forall_mem_map]
    intro x hx
    exact bne_iff_ne.mpr (tx_ne hnodup (List.mem_append_left _ hitem) x.1 (List.mem_map_of_mem hx))
  have hmem : w.tx item ∈ dropped.map w.tx := List.mem_map_of_mem hitem
  simp only [reply, hlookup, hended, if_pos hmem]

/-- A submitter is told the result of its own call, or that the channel was closed. -/
theorem reply_run (w : Work ι κ) (batchSize : ℕ) (events : List (TaskEvent ι)) :
    ∃ served : List (ι × CallResult),
      ((run w batchSize events).returned = served.map fun x => (w.request x.1, x.2)) ∧
      (∀ x ∈ served, (run w batchSize events).reply w (w.tx x.1) = some x.2) ∧
      ∀ dropped, (run w batchSize events).stage = .ended dropped →
        (run w batchSize events).accepted = served.map (·.1) ++ dropped ∧
        ∀ item ∈ dropped,
          (run w batchSize events).reply w (w.tx item) = some (.error .channelClosed) := by
  obtain ⟨served, h⟩ := accounts_run w batchSize events
  refine ⟨served, h.logged.returned, fun x hx => h.reply_of_served hx, fun dropped hended => ?_⟩
  exact ⟨h.accepted_of_ended hended, fun item hitem => h.reply_of_dropped hended hitem⟩

end BatchTask

open BatchTask

/-- **The collector makes the calls of all items exactly if it never returns with a filled buffer.**
For both tasks, every size of a batch and every order of events: calls are made in the order of
arrival, each at most once, and each sender that is used gets the result of its own call.  By the
end of the task every accepted item has had its call and every sender its result exactly if the
buffer was empty when the task found the channel closed. -/
theorem collector_complete_iff (batchSize : ℕ) :
    (∀ events : List (TaskEvent PrewriteItem),
      InOrder prewriteWork (run prewriteWork batchSize events) ∧
        ∀ dropped, (run prewriteWork batchSize events).stage = .ended dropped →
          (Complete prewriteWork (run prewriteWork batchSize events) ↔
            Guarded (step prewriteWork batchSize) LeavesNothing start events)) ∧
      ∀ events : List (TaskEvent CommitItem),
        InOrder commitWork (run commitWork batchSize events) ∧
          ∀ dropped, (run commitWork batchSize events).stage = .ended dropped →
            (Complete commitWork (run commitWork batchSize events) ↔
              Guarded (step commitWork batchSize) LeavesNothing start events) :=
  ⟨run_complete_iff prewriteWork batchSize, run_complete_iff commitWork batchSize⟩

/-- With nothing dropped, what the node is called for is what was submitted, in this order. -/
theorem calls_of_complete {t : BatchTask PrewriteItem BatchPrewriteRequest}
    (h : Complete prewriteWork t) :
    t.calls.map BatchPrewriteRequest.call = t.accepted.map fun item =>
      Call.batchPrewrite item.startTs (item.mutations.map Mutation.submitted) item.primaryKey
        item.lockTtl := by
  obtain ⟨-, -, hcalls, -⟩ := h
  rw [hcalls, List.map_map]
  exact List.map_congr_left fun item _ => KvClient.call_batchPrewrite _ _ _ _

/-- One item arrives and is put into the buffer, the last sender is dropped, and the task finds the
channel closed before the timer fires: it ends without a call. -/
theorem collector_drops_item :
    let item : PrewriteItem := ⟨65536, [([1], some [10])], [1], 3000, 0⟩
    let t := run prewriteWork 2 [.send item, .recv, .dropSenders, .recv]
    t.stage = .ended [item] ∧ t.accepted = [item] ∧ t.calls = [] ∧ t.sent = [] ∧
      t.reply prewriteWork 0 = some (.error .channelClosed) ∧ ¬ Complete prewriteWork t := by
  intro item t
  refine ⟨rfl, rfl, rfl, rfl, rfl, ?_⟩
  rintro ⟨-, -, hcalls, -⟩
  cases hcalls

end BatchCollector

end AcidKv
