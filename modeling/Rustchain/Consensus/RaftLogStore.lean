/-
  Rustchain.Consensus.RaftLogStore

  Where a Raft peer keeps its log (`raft_log_store.rs`): a JSON file in the
  peer's directory, or memory.  The file store carries the state of the one
  file it owns and, for each save to come, the I/O error that save meets, if
  any; a save that fails leaves the file as it was.
-/

import Rustchain.Platform

namespace Rustchain

/-- What `load` returns. -/
structure RaftLogState where
  log : List RaftLogEntry
  commitIndex : Option Nat
deriving DecidableEq, Repr

/-- The two ways `FileRaftLogStore::save` fails, with the I/O error's text. -/
inductive SaveError where
  | createDir (e : String)
  | write (e : String)

/-- `FileRaftLogStore` with the file it owns. -/
structure FileRaftLogStore where
  peerDir : String
  /-- The file's contents; `none` when it does not exist. -/
  contents : Option Bytes
  /-- The error `fs::read` meets on the file, if any. -/
  readError : Option String
  /-- How many saves were attempted so far. -/
  saves : Nat
  /-- The error the `k`-th save meets, if any. -/
  saveError : Nat → Option SaveError

namespace FileRaftLogStore

/-- A store whose file does not exist yet, and that never meets an I/O error. -/
def empty (peerDir : String) : FileRaftLogStore :=
  { peerDir, contents := none, readError := none, saves := 0, saveError := fun _ => none }

/-- The file's path: `peer_dir.join("raft_log.json")`. -/
def path (store : FileRaftLogStore) : String := store.peerDir ++ "/raft_log.json"

def load (pf : Platform) (store : FileRaftLogStore) : Except String RaftLogState :=
  match store.contents with
  | none => .ok { log := [], commitIndex := none }
  | some contents =>
    match store.readError with
    | some e => .error s!"Failed to read Raft log {store.path}: {e}"
    | none =>
      match pf.decodeRaftLog contents with
      | .error e => .error s!"Failed to deserialize Raft log {store.path}: {e}"
      | .ok stored => .ok { log := stored.log, commitIndex := some stored.commitIndex }

def save (pf : Platform) (store : FileRaftLogStore) (log : List RaftLogEntry)
    (commitIndex : Nat) : FileRaftLogStore × Except String Unit :=
  match store.saveError store.saves with
  | some (.createDir e) =>
    ({ store with saves := store.saves + 1 },
      .error s!"Failed to create Raft log directory {store.peerDir}: {e}")
  | some (.write e) =>
    ({ store with saves := store.saves + 1 },
      .error s!"Failed to write Raft log {store.path}: {e}")
  | none =>
    ({ store with
        saves := store.saves + 1
        contents := some (pf.encodeRaftLog { log, commitIndex }) }, .ok ())

end FileRaftLogStore

structure InMemoryRaftLogStore where
  log : List RaftLogEntry
  commitIndex : Option Nat

namespace InMemoryRaftLogStore

def new : InMemoryRaftLogStore := { log := [], commitIndex := none }

def load (store : InMemoryRaftLogStore) : RaftLogState :=
  { log := store.log, commitIndex := store.commitIndex }

def save (log : List RaftLogEntry) (commitIndex : Nat) : InMemoryRaftLogStore :=
  { log, commitIndex := some commitIndex }

end InMemoryRaftLogStore

inductive AnyRaftLogStore where
  | file (store : FileRaftLogStore)
  | inMemory (store : InMemoryRaftLogStore)

namespace AnyRaftLogStore

def load (pf : Platform) : AnyRaftLogStore → Except String RaftLogState
  | file store => store.load pf
  | inMemory store => .ok store.load

def save (pf : Platform) (store : AnyRaftLogStore) (log : List RaftLogEntry)
    (commitIndex : Nat) : AnyRaftLogStore × Except String Unit :=
  match store with
  | file store =>
    let (store, result) := store.save pf log commitIndex
    (file store, result)
  | inMemory _ => (inMemory (InMemoryRaftLogStore.save log commitIndex), .ok ())

/-- The store's saves succeed from now on: it is in memory, or no save to come
    meets an I/O error. -/
def SavesSucceed : AnyRaftLogStore → Prop
  | file store => ∀ k, store.saveError k = none
  | inMemory _ => True

/-- A store whose saves succeed reports success and keeps that property. -/
theorem save_of_savesSucceed (pf : Platform) {store : AnyRaftLogStore}
    (h : store.SavesSucceed) (log : List RaftLogEntry) (commitIndex : Nat) :
    (store.save pf log commitIndex).2 = .ok () ∧
      (store.save pf log commitIndex).1.SavesSucceed := by
  cases store with
  | inMemory store => exact ⟨rfl, trivial⟩
  | file store =>
      have hk : store.saveError store.saves = none := h store.saves
      constructor
      · simp only [save, FileRaftLogStore.save, hk]
      · simp only [save, FileRaftLogStore.save, hk]
        exact h

/-- The next save succeeds: the store is in memory, or it meets no I/O error. -/
def NextSaveSucceeds : AnyRaftLogStore → Prop
  | file store => store.saveError store.saves = none
  | inMemory _ => True

theorem save_ok_iff (pf : Platform) (store : AnyRaftLogStore) (log : List RaftLogEntry)
    (commitIndex : Nat) :
    (store.save pf log commitIndex).2 = .ok () ↔ store.NextSaveSucceeds := by
  cases store with
  | inMemory store => exact iff_of_true rfl trivial
  | file store =>
      rcases hfault : store.saveError store.saves with _ | ⟨e⟩ | ⟨e⟩
      all_goals simp [save, FileRaftLogStore.save, NextSaveSucceeds, hfault]

/-- The store can be read: it is in memory, or its file meets no I/O error. -/
def ReadsSucceed : AnyRaftLogStore → Prop
  | file store => store.readError = none
  | inMemory _ => True

/-- Nothing was ever saved in the store, and it can be read. -/
def IsEmpty : AnyRaftLogStore → Prop
  | file store => store.contents = none ∧ store.readError = none
  | inMemory store => store = .new

/-- The second store is opened on what the first one left behind; which of its
    saves fail is open again. -/
inductive Reopens : AnyRaftLogStore → AnyRaftLogStore → Prop where
  | file (store : FileRaftLogStore) (saves : Nat) (saveError : Nat → Option SaveError) :
      Reopens (file store) (file { store with saves, saveError })
  | inMemory (store : InMemoryRaftLogStore) : Reopens (inMemory store) (inMemory store)

theorem IsEmpty.load {store : AnyRaftLogStore} (h : store.IsEmpty) (pf : Platform) :
    store.load pf = .ok { log := [], commitIndex := none } := by
  cases store with
  | file store =>
      have hcontents : store.contents = none := h.1
      show store.load pf = _
      rw [FileRaftLogStore.load, hcontents]
  | inMemory store =>
      have hnew : store = .new := h
      rw [hnew]
      rfl

theorem IsEmpty.readsSucceed {store : AnyRaftLogStore} (h : store.IsEmpty) :
    store.ReadsSucceed := by
  cases store with
  | file store => exact h.2
  | inMemory store => trivial

/-- A readable store that loads no commit index and no log is empty. -/
theorem isEmpty_of_load {pf : Platform} {store : AnyRaftLogStore} (hreads : store.ReadsSucceed)
    (h : store.load pf = .ok { log := [], commitIndex := none }) : store.IsEmpty := by
  cases store with
  | inMemory store =>
      obtain ⟨log, commitIndex⟩ := store
      cases h
      rfl
  | file store =>
      refine ⟨?_, hreads⟩
      have hread : store.readError = none := hreads
      simp only [load, FileRaftLogStore.load, hread] at h
      split at h
      · assumption
      · -- a file that was read holds a commit index
        split at h
        · cases h
        · have hnone := congrArg RaftLogState.commitIndex (Except.ok.inj h)
          cases hnone

theorem Reopens.load {store store' : AnyRaftLogStore} (h : Reopens store store')
    (pf : Platform) : store'.load pf = store.load pf := by
  cases h <;> rfl

theorem Reopens.readsSucceed {store store' : AnyRaftLogStore} (h : Reopens store store')
    (hreads : store.ReadsSucceed) : store'.ReadsSucceed := by
  cases h
  · exact hreads
  · trivial

/-- A save that succeeds is what the store loads next; one that fails changes
    nothing. -/
theorem load_save {pf : Platform} (hpf : pf.Lawful) {store : AnyRaftLogStore}
    (hreads : store.ReadsSucceed) (log : List RaftLogEntry) (commitIndex : Nat) :
    (store.save pf log commitIndex).1.ReadsSucceed ∧
      (store.save pf log commitIndex).1.load pf =
        match (store.save pf log commitIndex).2 with
        | .ok () => .ok { log, commitIndex := some commitIndex }
        | .error _ => store.load pf := by
  cases store with
  | inMemory store => exact ⟨trivial, rfl⟩
  | file store =>
      have hread : store.readError = none := hreads
      rcases hfault : store.saveError store.saves with _ | ⟨e⟩ | ⟨e⟩
      · simp only [save, FileRaftLogStore.save, hfault]
        refine ⟨hread, ?_⟩
        simp only [load, FileRaftLogStore.load, hread, hpf.decode_encodeRaftLog]
      all_goals
        simp only [save, FileRaftLogStore.save, hfault]
        exact ⟨hread, rfl⟩

/-- A save that fails leaves a trace: it was attempted. -/
theorem save_ne_error (pf : Platform) (store : AnyRaftLogStore) (log : List RaftLogEntry)
    (commitIndex : Nat) (e : String) : store.save pf log commitIndex ≠ (store, .error e) := by
  intro h
  cases store with
  | inMemory store => cases congrArg Prod.snd h
  | file store =>
      have hsaves : (store.save pf log commitIndex).1 = store := file.inj (congrArg Prod.fst h)
      have hcount : (store.save pf log commitIndex).1.saves = store.saves + 1 := by
        rw [FileRaftLogStore.save]
        split <;> rfl
      rw [hsaves] at hcount
      omega

end AnyRaftLogStore

end Rustchain
