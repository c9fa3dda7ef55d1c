import AcidKv.Lib.Codec
import AcidKv.Lib.Decimal
import AcidKv.Storage.Engine

/-!
# Raft storage

The log, hard state and configuration of a region's Raft group.  `RaftStorage` keeps a copy in
memory, which Raft reads, and writes every change to the default partition under textual keys with
the region id in them; `RaftStorage.new` reads it back.  In memory the log starts with a
placeholder for what precedes the first entry, and an append that overlaps the log cuts off what
follows; on disk entries are only ever inserted.

The messages are serialised by a protobuf library, of which only the round trip is known.
-/

namespace AcidKv.Raft

open Decimal

inductive EntryType where
  | entryNormal
  | entryConfChange
  | entryConfChangeV2
  deriving DecidableEq, Repr

structure Entry where
  entryType : EntryType
  term : UInt64
  index : UInt64
  data : Bytes
  context : Bytes
  syncLog : Bool
  deriving DecidableEq, Repr

/-- `Entry::default()`: also the placeholder in front of an empty log. -/
def Entry.default : Entry := ⟨.entryNormal, 0, 0, [], [], false⟩

/-- An entry without data. -/
def blank (term index : UInt64) : Entry := { Entry.default with term := term, index := index }

structure HardState where
  term : UInt64
  vote : UInt64
  commit : UInt64
  deriving DecidableEq, Repr

def HardState.default : HardState := ⟨0, 0, 0⟩

structure ConfState where
  voters : List UInt64
  learners : List UInt64
  votersOutgoing : List UInt64
  learnersNext : List UInt64
  autoLeave : Bool
  deriving DecidableEq, Repr

def ConfState.default : ConfState := ⟨[], [], [], [], false⟩

/-- The serialisation of the three messages. -/
structure Protobuf where
  entry : Codec Entry
  hardState : Codec HardState
  confState : Codec ConfState

namespace Protobuf

open PrefixCode

/-- The number of an entry type. -/
def entryTypeCode : PrefixCode EntryType :=
  byte.map (fun b => if b = 0 then .entryNormal else if b = 1 then .entryConfChange else
    .entryConfChangeV2) (fun
      | .entryNormal => 0
      | .entryConfChange => 1
      | .entryConfChangeV2 => 2) (by rintro (_ | _ | _) <;> rfl)

def boolCode : PrefixCode Bool :=
  byte.map (fun b => decide (b ≠ 0)) (fun b => if b then 1 else 0) (by decide)

def entryCode : PrefixCode Entry :=
  (entryTypeCode.pair (u64.pair (u64.pair (byte.list.pair (byte.list.pair boolCode))))).map
    (fun x => ⟨x.1, x.2.1, x.2.2.1, x.2.2.2.1, x.2.2.2.2.1, x.2.2.2.2.2⟩)
    (fun e => (e.entryType, e.term, e.index, e.data, e.context, e.syncLog)) (fun _ => rfl)

def hardStateCode : PrefixCode HardState :=
  (u64.pair (u64.pair u64)).map (fun x => ⟨x.1, x.2.1, x.2.2⟩)
    (fun h => (h.term, h.vote, h.commit)) (fun _ => rfl)

def confStateCode : PrefixCode ConfState :=
  (u64.list.pair (u64.list.pair (u64.list.pair (u64.list.pair boolCode)))).map
    (fun x => ⟨x.1, x.2.1, x.2.2.1, x.2.2.2.1, x.2.2.2.2⟩)
    (fun c => (c.voters, c.learners, c.votersOutgoing, c.learnersNext, c.autoLeave)) (fun _ => rfl)

/-- A serialisation, field by field. -/
def plain : Protobuf := ⟨entryCode.codec, hardStateCode.codec, confStateCode.codec⟩

end Protobuf

/-! ## Keys -/

def hsKey (regionId : UInt64) : Bytes :=
  ascii ['r', '_', 'h', 's', '_'] ++ decimal regionId.toNat

def csKey (regionId : UInt64) : Bytes :=
  ascii ['r', '_', 'c', 's', '_'] ++ decimal regionId.toNat

def entryPrefix (regionId : UInt64) : Bytes :=
  ascii ['r', '_', 'e', 'n', 't', 'r', 'y', '_'] ++ decimal regionId.toNat ++ ascii ['_']

def entryKey (regionId idx : UInt64) : Bytes := entryPrefix regionId ++ padded 20 idx.toNat

/-! ## The storage -/

inductive StorageError where
  | compacted
  | unavailable
  deriving DecidableEq, Repr

inductive RaftError where
  | store (e : StorageError)
  /-- The slice of the log is out of range, where the program panics. -/
  | sliceOutOfRange
  deriving DecidableEq, Repr

/-- What is kept in memory; there is always a first entry. -/
structure RaftStorageCore where
  hardState : HardState
  confState : ConfState
  entries : List Entry
  nonempty : entries ≠ []

structure RaftStorage where
  regionId : UInt64
  core : RaftStorageCore

namespace RaftStorage

/-- The loop that collects the log: up to the first key without the prefix, and without what does
not parse. -/
def loadLoop (pb : Protobuf) (pre : Bytes) : List (Bytes × Bytes) → List Entry
  | [] => []
  | (k, v) :: rest =>
      if pre <+: k then
        match pb.entry.parseFromBytes v with
        | some entry => entry :: loadLoop pb pre rest
        | none => loadLoop pb pre rest
      else []

/-- The log as read, or the placeholder. -/
def orDummy : List Entry → List Entry
  | [] => [Entry.default]
  | e :: rest => e :: rest

lemma orDummy_ne_nil (es : List Entry) : orDummy es ≠ [] := by
  cases es <;> simp [orDummy]

/-- A stored message, or the default if there is none or it does not parse. -/
def loadMessage {α : Type} (codec : Codec α) (default : α) : Option Bytes → α
  | some bytes => (codec.parseFromBytes bytes).getD default
  | none => default

def new (pb : Protobuf) (engine : Store) (regionId : UInt64) : RaftStorage where
  regionId := regionId
  core :=
    { hardState := loadMessage pb.hardState HardState.default (engine.get .default (hsKey regionId))
      confState := loadMessage pb.confState ConfState.default (engine.get .default (csKey regionId))
      entries := orDummy (loadLoop pb (entryPrefix regionId)
        (engine.range .default (entryPrefix regionId)))
      nonempty := orDummy_ne_nil _ }

/-- `core.entries[0]`. -/
def first (s : RaftStorage) : Entry := s.core.entries.head s.core.nonempty

/-- `core.entries.last()`. -/
def last (s : RaftStorage) : Entry := s.core.entries.getLast s.core.nonempty

/-- The batch of an append: an entry that cannot be written is left out. -/
def appendBatch (pb : Protobuf) (regionId : UInt64) (entries : List Entry) : Batch :=
  entries.filterMap fun entry =>
    (pb.entry.writeToBytes entry).map fun bytes =>
      .insert .default (entryKey regionId entry.index) bytes

/-- The log from `diff` on is replaced. -/
def spliced (entries : List Entry) (diff : ℕ) (new : List Entry) : List Entry :=
  (if diff < entries.length then entries.take diff else entries) ++ new

def append (pb : Protobuf) (s : RaftStorage) (entries : List Entry) (engine : Store) :
    Except StorageError Unit × RaftStorage × Store :=
  match entries with
  | [] => (.ok (), s, engine)
  | e :: rest =>
      if e.index < s.first.index then (.error .compacted, s, engine)
      else
        let diff := (e.index - s.first.index).toNat
        let core := { s.core with
          entries := spliced s.core.entries diff (e :: rest)
          nonempty := by simp [spliced] }
        (.ok (), { s with core := core }, engine.apply (appendBatch pb s.regionId (e :: rest)))

def setHardState (pb : Protobuf) (s : RaftStorage) (hs : HardState) (engine : Store) :
    RaftStorage × Store :=
  ({ s with core := { s.core with hardState := hs } },
    match pb.hardState.writeToBytes hs with
    | some bytes => engine.apply [.insert .default (hsKey s.regionId) bytes]
    | none => engine)

def setConfState (pb : Protobuf) (s : RaftStorage) (cs : ConfState) (engine : Store) :
    RaftStorage × Store :=
  ({ s with core := { s.core with confState := cs } },
    match pb.confState.writeToBytes cs with
    | some bytes => engine.apply [.insert .default (csKey s.regionId) bytes]
    | none => engine)

/-! ## What Raft reads -/

/-- What a node starts from. -/
def initialState (s : RaftStorage) : HardState × ConfState := (s.core.hardState, s.core.confState)

/-- The entries from `low` up to `high`. -/
def entries (s : RaftStorage) (low high : UInt64) : Except RaftError (List Entry) :=
  let firstIdx := s.first.index
  if low < firstIdx then .error (.store .compacted)
  else
    let lastIdx := s.last.index
    if high > lastIdx + 1 then .error (.store .unavailable)
    else
      let start := (low - firstIdx).toNat
      let stop := (high - firstIdx).toNat
      if start ≤ stop ∧ stop ≤ s.core.entries.length then
        .ok ((s.core.entries.take stop).drop start)
      else .error .sliceOutOfRange

def term (s : RaftStorage) (idx : UInt64) : Except RaftError UInt64 :=
  let firstIdx := s.first.index
  if idx < firstIdx then .error (.store .compacted)
  else
    match s.core.entries[(idx - firstIdx).toNat]? with
    | some entry => .ok entry.term
    | none => .error (.store .unavailable)

def firstIndex (s : RaftStorage) : UInt64 := s.first.index + 1

def lastIndex (s : RaftStorage) : UInt64 := s.last.index

end RaftStorage

end AcidKv.Raft
