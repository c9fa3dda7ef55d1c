import AcidKv.Raft.Node
import Mathlib.Data.List.Perm.Subperm

/-!
# What `process_ready` returns

A run of ticks, steps, proposals and `process_ready` calls, with everything that the `RawNode` has
handed over in it and everything that `process_ready` has returned.  Of each call it returns the
first part and drops a second one (`Handed.kept`, `Handed.dropped`), so a run delivers all payloads
and all messages exactly if nothing was in what it dropped.
-/

namespace AcidKv.Raft

open MultiRaftNode

/-- The first parts of pieces make up the whole only if nothing is in the second parts. -/
lemma flatMap_eq_append_iff {α β : Type} {f g : α → List β} {l : List α} :
    l.flatMap f = l.flatMap (fun x => f x ++ g x) ↔ ∀ x ∈ l, g x = [] := by
  constructor
  · intro heq
    have hle : ∀ l : List α, (l.flatMap f).length ≤ (l.flatMap fun x => f x ++ g x).length := by
      intro l
      induction l with
      | nil => exact le_refl _
      | cons x l ih =>
          simp only [List.flatMap_cons, List.length_append]
          omega
    induction l with
    | nil => simp
    | cons x l ih =>
        simp only [List.flatMap_cons, List.append_assoc, List.append_cancel_left_eq] at heq
        have hlen := congrArg List.length heq
        have hle := hle l
        rw [List.length_append] at hlen
        have hnil : g x = [] := List.eq_nil_of_length_eq_zero (by omega)
        rw [hnil, List.nil_append] at heq
        exact List.forall_mem_cons.mpr ⟨hnil, ih heq⟩
  · intro hnil
    refine List.flatMap_congr fun x hx => ?_
    rw [hnil x hx, List.append_nil]

/-- The first parts contain everything, occurrence for occurrence, only if nothing is in the second
ones. -/
lemma subperm_flatMap_iff {α β : Type} {f g : α → List β} {l : List α} :
    (l.flatMap fun x => f x ++ g x).Subperm (l.flatMap f) ↔ ∀ x ∈ l, g x = [] := by
  rw [← flatMap_eq_append_iff]
  constructor
  · intro hsubperm
    have hsub : (l.flatMap f).Sublist (l.flatMap fun x => f x ++ g x) := by
      clear hsubperm
      induction l with
      | nil => exact List.Sublist.refl _
      | cons x l ih =>
          simp only [List.flatMap_cons]
          exact (List.sublist_append_left _ _).append ih
    exact hsub.eq_of_length_le hsubperm.length_le
  · intro heq
    rw [← heq]

variable {api : RawNodeApi}

/-! ## One call -/

lemma payloads_flatMap {α : Type} (f : α → List Entry) (l : List α) :
    payloads (l.flatMap f) = l.flatMap fun x => payloads (f x) := by
  simp only [payloads, List.map_flatMap, List.filter_flatMap]

namespace Handed

/-- The committed entries that were handed over in a call, in order. -/
def committed (h : Handed api) : List Entry :=
  h.ready.committedEntries ++ (h.light.map LightReady.committedEntries).getD []

/-- The messages that were handed over in a call. -/
def messages (h : Handed api) : List api.Message :=
  h.ready.messages ++ h.ready.persistedMessages ++ (h.light.map LightReady.messages).getD []

/-- The messages and payloads that are returned: those of the `Ready`, if it was persisted. -/
def kept (h : Handed api) : List api.Message × List Bytes :=
  match h.light with
  | some _ => (h.ready.messages, payloads h.ready.committedEntries)
  | none => ([], [])

/-- The messages and payloads that are not. -/
def dropped (h : Handed api) : List api.Message × List Bytes :=
  match h.light with
  | some light => (h.ready.persistedMessages ++ light.messages, payloads light.committedEntries)
  | none => (h.ready.messages ++ h.ready.persistedMessages, payloads h.ready.committedEntries)

lemma payloads_committed (h : Handed api) :
    payloads h.committed = h.kept.2 ++ h.dropped.2 := by
  obtain ⟨ready, _ | light⟩ := h <;> simp [committed, kept, dropped, payloads]

lemma messages_eq (h : Handed api) : h.messages = h.kept.1 ++ h.dropped.1 := by
  obtain ⟨ready, _ | light⟩ := h <;> simp [messages, kept, dropped]

end Handed

/-! ## Runs -/

/-- A node with its store, what was handed over so far, and the concatenation of the lists that
were returned. -/
structure Session (api : RawNodeApi) where
  node : MultiRaftNode api
  engine : Store
  handed : List (Handed api)
  messages : List api.Message
  payloads : List Bytes

namespace Session

def start (node : MultiRaftNode api) (engine : Store) : Session api := ⟨node, engine, [], [], []⟩

def perform (pb : Protobuf) (s : Session api) : Op api → Session api
  | .tick => { s with node := s.node.tick }
  | .step msg => { s with node := (s.node.step msg).2 }
  | .propose data => { s with node := (s.node.propose data).2 }
  | .processReady =>
      let (handed, res, node, engine) := readyCycle pb s.node s.engine
      let (messages, payloads) := res.toOption.getD ([], [])
      { node, engine
        handed := s.handed ++ handed.toList
        messages := s.messages ++ messages
        payloads := s.payloads ++ payloads }

/-- The messages and payloads that were returned are those that were kept. -/
structure Accounted (s : Session api) : Prop where
  messages : s.messages = s.handed.flatMap fun h => h.kept.1
  payloads : s.payloads = s.handed.flatMap fun h => h.kept.2

/-- What a call returns is what it keeps of what it is handed. -/
lemma readyCycle_returns (pb : Protobuf) (node : MultiRaftNode api) (engine : Store) :
    (readyCycle pb node engine).2.1.toOption.getD ([], []) =
      ((readyCycle pb node engine).1.map Handed.kept).getD ([], []) := by
  have hcycle := readyCycle_cycle pb node engine
  generalize readyCycle pb node engine = out at hcycle ⊢
  cases hcycle <;> rfl

lemma Accounted.perform {s : Session api} (h : s.Accounted) (pb : Protobuf) (op : Op api) :
    (s.perform pb op).Accounted := by
  cases op with
  | processReady =>
      have hret := readyCycle_returns pb s.node s.engine
      rcases hcycle : (readyCycle pb s.node s.engine).1 with _ | handed
      all_goals
        rw [hcycle] at hret
        constructor
        · simp [Session.perform, h.messages, hcycle, hret]
        · simp [Session.perform, h.payloads, hcycle, hret]
  | _ => exact ⟨h.messages, h.payloads⟩

lemma accounted_run (pb : Protobuf) (node : MultiRaftNode api) (engine : Store)
    (ops : List (Op api)) : (ops.foldl (perform pb) (start node engine)).Accounted := by
  refine List.foldlRecOn ops (perform pb) ⟨rfl, rfl⟩ fun s hs op _ => hs.perform pb op

end Session

/-- In every run the payloads returned are those of the committed entries that were handed over
exactly if no call has dropped one, and the messages handed over are returned, each as often as it
was handed over, exactly if no call has dropped one. -/
theorem delivered_iff_nothing_dropped (pb : Protobuf) (node : MultiRaftNode api) (engine : Store)
    (ops : List (Op api)) :
    let s := ops.foldl (Session.perform pb) (Session.start node engine)
    (s.payloads = payloads (s.handed.flatMap Handed.committed) ↔
        ∀ h ∈ s.handed, h.dropped.2 = []) ∧
      ((s.handed.flatMap Handed.messages).Subperm s.messages ↔
        ∀ h ∈ s.handed, h.dropped.1 = []) := by
  intro s
  have hs : s.Accounted := Session.accounted_run pb node engine ops
  constructor
  · have hpay : payloads (s.handed.flatMap Handed.committed) =
        s.handed.flatMap fun h => h.kept.2 ++ h.dropped.2 := by
      simp only [payloads_flatMap, Handed.payloads_committed]
    rw [hs.payloads, hpay]
    exact flatMap_eq_append_iff
  · have hmsg : s.handed.flatMap Handed.messages =
        s.handed.flatMap fun h => h.kept.1 ++ h.dropped.1 :=
      List.flatMap_congr fun h _ => h.messages_eq
    rw [hs.messages, hmsg]
    exact subperm_flatMap_iff

/-! ## A leader with and without a second voter -/

/-- The leader, in term 1, of a new region with the given voters. -/
def leader (voters : List UInt64) : MultiRaftNode peerApi :=
  let storage := ((RaftStorage.new Protobuf.plain Keyspace.empty 1).setConfState Protobuf.plain
    { ConfState.default with voters } Keyspace.empty).1
  ⟨1, ⟨.leader (voters = [1]), ⟨1, 1, 0⟩, ⟨1, 1, 0⟩, [], [], [], []⟩, storage⟩

/-- The entry that holds a proposal. -/
def proposed (index : UInt64) (data : Bytes) : Entry :=
  { Entry.default with term := 1, index, data }

/-- With a second voter, two equal proposals are returned after they were acknowledged, and so are
the messages that carry them. -/
theorem acknowledged_delivered :
    let ops : List (Op peerApi) :=
      [.propose [7], .propose [7], .processReady, .step (.appendResponse 2), .processReady]
    let s := ops.foldl (Session.perform Protobuf.plain)
      (Session.start (leader [1, 2]) Keyspace.empty)
    s.payloads = [[7], [7]] ∧ s.payloads = payloads (s.handed.flatMap Handed.committed) ∧
      s.messages = [PeerMessage.append 1 [proposed 1 [7]] 0, .append 1 [proposed 2 [7]] 0] ∧
      (s.handed.flatMap Handed.messages).Subperm s.messages := by
  intro ops s
  obtain ⟨hpay, hmsg⟩ :=
    delivered_iff_nothing_dropped Protobuf.plain (leader [1, 2]) Keyspace.empty ops
  exact ⟨by decide, hpay.mpr (by decide), rfl, hmsg.mpr (by decide)⟩

/-- Alone, the leader hands the entry over as committed in the `LightReady` of the call that
persists it, and it is never returned. -/
theorem lone_voter_payload_lost :
    let ops : List (Op peerApi) := [.propose [7], .processReady, .processReady]
    let s := ops.foldl (Session.perform Protobuf.plain)
      (Session.start (leader [1]) Keyspace.empty)
    payloads (s.handed.flatMap Handed.committed) = [[7]] ∧ s.payloads = [] := by
  decide

end AcidKv.Raft
