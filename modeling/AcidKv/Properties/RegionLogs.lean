import AcidKv.Raft.Frames

/-!
# Several regions over one engine

The storages of all regions write into one partition under textual keys.  No two regions share a
key, so that what a region finds there when it is opened is what its own calls have left, in the
order in which they were made; and since the index in a key has a fixed width, its log comes back in
the order of the indices, with the entry that was appended last at each of them.
-/

namespace AcidKv.Raft

/-- The calls that change the Raft state of a region. -/
inductive StorageCall where
  | append (entries : List Entry)
  | setHardState (hs : HardState)
  | setConfState (cs : ConfState)

/-- The storage and the engine after a call. -/
def RaftStorage.call (pb : Protobuf) (s : RaftStorage) (engine : Store) :
    StorageCall → RaftStorage × Store
  | .append entries => (s.append pb entries engine).2
  | .setHardState hs => s.setHardState pb hs engine
  | .setConfState cs => s.setConfState pb cs engine

/-- An engine with the storage of every region. -/
structure Regions where
  engine : Store
  storage : UInt64 → RaftStorage

namespace Regions

/-- The storages as they are opened over an engine. -/
def start (pb : Protobuf) (engine : Store) : Regions := ⟨engine, RaftStorage.new pb engine⟩

/-- A call on the storage of a region. -/
def step (pb : Protobuf) (c : Regions) (x : UInt64 × StorageCall) : Regions :=
  let (s, engine) := (c.storage x.1).call pb c.engine x.2
  ⟨engine, Function.update c.storage x.1 s⟩

/-- What a call appends for a region: the entries of an append that succeeds. -/
def appends (pb : Protobuf) (c : Regions) (r : UInt64) : UInt64 × StorageCall → List Entry
  | (r', .append entries) =>
      if r' = r ∧ ((c.storage r').append pb entries c.engine).1 = .ok () then entries else []
  | (_, .setHardState _) => []
  | (_, .setConfState _) => []

/-- All entries that were successfully appended for a region in a run, in order. -/
def written (pb : Protobuf) (r : UInt64) : Regions → List (UInt64 × StorageCall) → List Entry
  | _, [] => []
  | c, x :: xs => c.appends pb r x ++ written pb r (c.step pb x) xs

end Regions

variable {pb : Protobuf} {r : UInt64} {s : RaftStorage} {engine : Store} {c c' : Regions}

/-! ## Calls for other regions -/

lemma call_writes (pb : Protobuf) (s : RaftStorage) (engine : Store) (x : StorageCall) :
    (s.call pb engine x).1.regionId = s.regionId ∧
      WritesUnder s.regionId engine (s.call pb engine x).2 := by
  cases x with
  | append entries => exact append_writes pb s entries engine
  | setHardState hs => exact setHardState_writes pb s hs engine
  | setConfState cs => exact setConfState_writes pb s cs engine

/-- What a call does to the storage and writes does not depend on what is on disk. -/
lemma call_congr (pb : Protobuf) (s : RaftStorage) (engine engine' : Store) (x : StorageCall) :
    (s.call pb engine x).1 = (s.call pb engine' x).1 ∧
      ∀ k, engine.get .default k = engine'.get .default k →
        (s.call pb engine x).2.get .default k = (s.call pb engine' x).2.get .default k := by
  cases x with
  | append entries =>
      cases entries with
      | nil => exact ⟨rfl, fun _ hk => hk⟩
      | cons e es =>
          simp only [RaftStorage.call, RaftStorage.append]
          split_ifs
          · exact ⟨rfl, fun _ hk => hk⟩
          · exact ⟨rfl, fun _ hk => Keyspace.get_apply_congr hk _⟩
  | setHardState hs =>
      refine ⟨rfl, fun _ hk => ?_⟩
      simp only [RaftStorage.call, RaftStorage.setHardState]
      cases pb.hardState.writeToBytes hs with
      | none => exact hk
      | some bytes => exact Keyspace.get_apply_congr hk _
  | setConfState cs =>
      refine ⟨rfl, fun _ hk => ?_⟩
      simp only [RaftStorage.call, RaftStorage.setConfState]
      cases pb.confState.writeToBytes cs with
      | none => exact hk
      | some bytes => exact Keyspace.get_apply_congr hk _

/-- Every storage is that of its region. -/
def Regions.Named (c : Regions) : Prop := ∀ r, (c.storage r).regionId = r

lemma Regions.Named.step (h : c.Named) (pb : Protobuf) (x : UInt64 × StorageCall) :
    (c.step pb x).Named := by
  intro r
  simp only [Regions.step]
  by_cases hr : r = x.1
  · rw [hr, Function.update_self, (call_writes pb _ _ _).1]
    exact h x.1
  · rw [Function.update_of_ne hr]
    exact h r

/-- A call for another region touches nothing of this one. -/
lemma Regions.Named.frame (h : c.Named) (pb : Protobuf) {x : UInt64 × StorageCall}
    (hx : x.1 ≠ r) : (c.step pb x).storage r = c.storage r ∧
      ∀ k, Owned r k → (c.step pb x).engine.get .default k = c.engine.get .default k := by
  refine ⟨Function.update_of_ne hx.symm _ _, fun k hk => ?_⟩
  have hwrites := (call_writes pb (c.storage x.1) c.engine x.2).2
  rw [h x.1] at hwrites
  exact hwrites.frame k fun hk' => hx (hk'.unique hk)

/-- Two runs in which a region has the same storage and the same on disk. -/
structure Alike (r : UInt64) (c c' : Regions) : Prop where
  named : c.Named
  named' : c'.Named
  storage : c.storage r = c'.storage r
  disk : ∀ k, Owned r k → c.engine.get .default k = c'.engine.get .default k

namespace Alike

/-- A call for another region in one of them. -/
lemma other (h : Alike r c c') (pb : Protobuf) {x : UInt64 × StorageCall} (hx : x.1 ≠ r) :
    Alike r (c.step pb x) c' := by
  obtain ⟨hstorage, hdisk⟩ := h.named.frame pb hx
  exact ⟨h.named.step pb x, h.named', hstorage.trans h.storage,
    fun k hk => (hdisk k hk).trans (h.disk k hk)⟩

/-- A call for the region in both. -/
lemma own (h : Alike r c c') (pb : Protobuf) (x : StorageCall) :
    Alike r (c.step pb (r, x)) (c'.step pb (r, x)) := by
  obtain ⟨hstorage, hdisk⟩ := call_congr pb (c.storage r) c.engine c'.engine x
  refine ⟨h.named.step pb _, h.named'.step pb _, ?_, fun k hk => ?_⟩
  · simp only [Regions.step, Function.update_self]
    rw [hstorage, h.storage]
  · simp only [Regions.step]
    rw [hdisk k (h.disk k hk), h.storage]

lemma run (h : Alike r c c') (pb : Protobuf) (calls : List (UInt64 × StorageCall)) :
    Alike r (calls.foldl (Regions.step pb) c)
      ((calls.filter fun x => x.1 = r).foldl (Regions.step pb) c') := by
  induction calls generalizing c c' with
  | nil => exact h
  | cons x calls ih =>
      obtain ⟨r', x⟩ := x
      by_cases hr : r' = r
      · simp only [hr, decide_true, List.filter_cons_of_pos, List.foldl_cons]
        exact ih (h.own pb x)
      · simp only [hr, decide_false, Bool.false_eq_true, not_false_eq_true,
          List.filter_cons_of_neg, List.foldl_cons]
        exact ih (h.other pb hr)

end Alike

/-! ## What a region gets back -/

/-- The disk has, at every index, what was appended there last. -/
structure Holds (pb : Protobuf) (r : UInt64) (w : List Entry) (c : Regions) : Prop where
  named : c.Named
  filed : Filed pb c.engine r
  disk : ∀ i, onDisk pb c.engine r i = lastAt w i

namespace Holds

variable {w : List Entry}

lemma congr (h : Holds pb r w c) (hnamed : c'.Named)
    (hsame : ∀ k, entryPrefix r <+: k → c'.engine.get .default k = c.engine.get .default k) :
    Holds pb r w c' :=
  ⟨hnamed, h.filed.congr hsame, fun i => (onDisk_congr hsame i).trans (h.disk i)⟩

lemma append (h : Holds pb r w c) (es : List Entry) :
    Holds pb r (w ++ c.appends pb r (r, .append es)) (c.step pb (r, .append es)) := by
  have hnamed := h.named.step pb (r, .append es)
  have hregion := h.named r
  cases es with
  | nil => simpa [Regions.appends] using h.congr hnamed fun _ _ => rfl
  | cons e es =>
      by_cases hlt : e.index < (c.storage r).first.index
      · have hengine : (c.step pb (r, .append (e :: es))).engine = c.engine := by
          simp [Regions.step, RaftStorage.call, RaftStorage.append, hlt]
        have hnone : c.appends pb r (r, .append (e :: es)) = [] := by
          simp [Regions.appends, RaftStorage.append, hlt]
        rw [hnone, List.append_nil]
        exact h.congr hnamed fun _ _ => by rw [hengine]
      · have hengine : (c.step pb (r, .append (e :: es))).engine =
            c.engine.apply (RaftStorage.appendBatch pb r (e :: es)) := by
          simp [Regions.step, RaftStorage.call, RaftStorage.append, hlt, hregion]
        have hall : c.appends pb r (r, .append (e :: es)) = e :: es := by
          simp [Regions.appends, RaftStorage.append, hlt]
        rw [hall]
        refine ⟨hnamed, ?_, fun i => ?_⟩
        · rw [hengine]
          exact h.filed.append _
        · rw [hengine, onDisk_append, h.disk, lastAt_append]

/-- One call. -/
lemma step (h : Holds pb r w c) (x : UInt64 × StorageCall) :
    Holds pb r (w ++ c.appends pb r x) (c.step pb x) := by
  obtain ⟨r', x⟩ := x
  have hnamed := h.named.step pb (r', x)
  by_cases hr : r' = r
  · subst hr
    cases x with
    | append es => exact h.append es
    | setHardState hs =>
        rw [Regions.appends, List.append_nil]
        refine h.congr hnamed fun k hk => ?_
        have hne : k ≠ hsKey r' := fun heq => not_entryPrefix_hsKey r' r' (heq ▸ hk)
        simp only [Regions.step, RaftStorage.call, RaftStorage.setHardState, h.named r']
        cases pb.hardState.writeToBytes hs <;> simp [hne]
    | setConfState cs =>
        rw [Regions.appends, List.append_nil]
        refine h.congr hnamed fun k hk => ?_
        have hne : k ≠ csKey r' := fun heq => not_entryPrefix_csKey r' r' (heq ▸ hk)
        simp only [Regions.step, RaftStorage.call, RaftStorage.setConfState, h.named r']
        cases pb.confState.writeToBytes cs <;> simp [hne]
  · have hnone : c.appends pb r (r', x) = [] := by
      cases x <;> simp [Regions.appends, hr]
    rw [hnone, List.append_nil]
    exact h.congr hnamed fun k hk => (h.named.frame pb hr).2 k (Or.inr (Or.inr hk))

lemma run (h : Holds pb r w c) (calls : List (UInt64 × StorageCall)) :
    Holds pb r (w ++ Regions.written pb r c calls) (calls.foldl (Regions.step pb) c) := by
  induction calls generalizing c w with
  | nil => simpa [Regions.written] using h
  | cons x calls ih =>
      have hrun := ih (h.step x)
      rwa [List.append_assoc] at hrun

/-- Opened again, the log has the last entry at each index, in order. -/
lemma reopened (h : Holds pb r w c) :
    let entries := (RaftStorage.new pb c.engine r).core.entries
    (entries.Pairwise fun a b => a.index < b.index) ∧ (w = [] → entries = [Entry.default]) ∧
      (w ≠ [] → ∀ e, e ∈ entries ↔ lastAt w e.index = some e) := by
  intro entries
  have hmem : ∀ e, e ∈ logOf pb c.engine r ↔ lastAt w e.index = some e := by
    intro e
    rw [h.filed.mem_logOf, h.disk]
  have hentries : entries = RaftStorage.orDummy (logOf pb c.engine r) := rfl
  cases hlog : logOf pb c.engine r with
  | nil =>
      rw [hlog] at hentries hmem
      rw [hentries]
      refine ⟨List.pairwise_singleton _ _, fun _ => rfl, fun hne => ?_⟩
      -- the last of the entries that were appended is on disk
      obtain ⟨e, he⟩ := List.exists_mem_of_ne_nil w hne
      cases hlast : lastAt w e.index with
      | none => exact absurd rfl (lastAt_eq_none.mp hlast e he)
      | some e' =>
          have hidx := lastAt_index hlast
          rw [← hidx] at hlast
          exact absurd ((hmem e').mpr hlast) List.not_mem_nil
  | cons e es =>
      rw [hlog] at hentries hmem
      rw [hentries]
      have hsorted := h.filed.logOf_sorted
      rw [hlog] at hsorted
      refine ⟨hsorted, fun hw => ?_, fun _ => hmem⟩
      have hin := (hmem e).mp List.mem_cons_self
      rw [hw] at hin
      cases hin

end Holds

/-- In every run of calls on the storages of any regions over one engine: what a region finds when
it is opened is what it would find if only its own calls had been made; and if it has started with
nothing on disk, this is the last entry appended successfully at each index, in the order of the
indices, or the placeholder if there is none. -/
theorem recovered_entries (pb : Protobuf) (engine : Store) (r : UInt64)
    (calls : List (UInt64 × StorageCall)) :
    let start := Regions.start pb engine
    let c := calls.foldl (Regions.step pb) start
    let own := (calls.filter fun x => x.1 = r).foldl (Regions.step pb) start
    let reopened := RaftStorage.new pb c.engine r
    let w := Regions.written pb r start calls
    reopened = RaftStorage.new pb own.engine r ∧
      (FreshRegion engine r →
        (reopened.core.entries.Pairwise fun a b => a.index < b.index) ∧
          (w = [] → reopened.core.entries = [Entry.default]) ∧
          (w ≠ [] → ∀ e, e ∈ reopened.core.entries ↔ lastAt w e.index = some e)) := by
  intro start c own reopened w
  have hnamed : start.Named := fun _ => rfl
  constructor
  · have halike : Alike r start start := ⟨hnamed, hnamed, rfl, fun _ _ => rfl⟩
    exact new_congr (halike.run pb calls).disk
  · intro hfresh
    have hstart : Holds pb r [] start :=
      ⟨hnamed, hfresh.filed pb, fun i => hfresh.onDisk_eq_none pb i⟩
    exact (hstart.run calls).reopened

/-- Regions 1 and 12, whose keys look alike: the first appends at 2 and 10, then again at 2. -/
theorem recovered_entries_two_regions :
    let calls : List (UInt64 × StorageCall) :=
      [(1, .append [blank 1 2, blank 1 10]), (12, .append [blank 7 2]),
        (12, .setHardState ⟨7, 1, 2⟩), (1, .append [blank 3 2])]
    let c := calls.foldl (Regions.step Protobuf.plain) (Regions.start Protobuf.plain Keyspace.empty)
    let entries := (RaftStorage.new Protobuf.plain c.engine 1).core.entries
    (entries.Pairwise fun a b => a.index < b.index) ∧ blank 3 2 ∈ entries ∧
      blank 1 10 ∈ entries ∧ blank 1 2 ∉ entries := by
  intro calls c entries
  obtain ⟨hsorted, -, hmem⟩ := (recovered_entries Protobuf.plain Keyspace.empty 1 calls).2
    (freshRegion_empty 1)
  have hmem := hmem (by decide)
  exact ⟨hsorted, (hmem _).mpr (by decide), (hmem _).mpr (by decide),
    fun hin => absurd ((hmem _).mp hin) (by decide)⟩

end AcidKv.Raft
