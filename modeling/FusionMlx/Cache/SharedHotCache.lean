import FusionMlx.Support.OrderedDict
import FusionMlx.Support.Runs

/-!
# The shared hot-cache budget

The hot caches of several `PagedSSDCacheManager`s and the `SharedHotCacheBudget`
they share. Each manager keeps its own entries and their bytes; the budget
keeps an entry for each of them and evicts over all managers. Managers are
numbered, as `id` numbers them. What the entries hold besides their tensors,
the counters of the statistics and the files are left out.
-/
namespace FusionMlx.SharedHotCache

open OrderedDict OrderedDict.Dict

variable {η : Type} [DecidableEq η]

structure HotEntry where
  tensorBytes : List Nat
  estimatedBytes : Nat := 0

structure Manager (η : Type) where
  hotCache : Dict η HotEntry := .empty
  hotCacheTotalBytes : Nat := 0
  hotCacheMaxBytes : Nat := 0
  shuttingDown : Bool := false

structure Budget (η : Type) where
  maxBytes : Nat
  entries : Dict (Nat × η) Nat := .empty
  totalBytes : Nat := 0
  shuttingDownOwners : List Nat := []

namespace Budget

variable (b : Budget η)

def pop (key : Nat × η) : Budget η :=
  match b.entries.get? key with
  | some size => { b with entries := b.entries.erase key, totalBytes := b.totalBytes - size }
  | none => b

def touch (owner : Nat) (blockHash : η) : Budget η :=
  { b with entries := b.entries.moveToEnd (owner, blockHash) }

def forget (owner : Nat) (blockHash : η) : Budget η := b.pop (owner, blockHash)

def forgetOwner (owner : Nat) : Budget η :=
  let b := { b with shuttingDownOwners := owner :: b.shuttingDownOwners }
  let b := (b.entries.keys.filter (fun key => key.1 = owner)).foldl pop b
  { b with shuttingDownOwners := b.shuttingDownOwners.filter (· ≠ owner) }

def putLoop (key : Nat × η) : List ((Nat × η) × Nat) → Budget η → Budget η × List (Nat × η)
  | [], b => (b, [])
  | (victim, _) :: rest, b =>
    if b.maxBytes < b.totalBytes then
      if victim = key ∧ rest = [] then (b, [])
      else
        let r := putLoop key rest (b.pop victim)
        (r.1, victim :: r.2)
    else (b, [])

def put (owner : Nat) (blockHash : η) (sizeBytes : Nat) : Budget η × List (Nat × η) :=
  if owner ∈ b.shuttingDownOwners then (b, [])
  else
    let key := (owner, blockHash)
    let b := b.pop key
    let b := { b with entries := b.entries.set key sizeBytes, totalBytes := b.totalBytes + sizeBytes }
    putLoop key b.entries.entries b

def shrinkLoop (targetBytes : Nat) (protectedHashes : List η) :
    List ((Nat × η) × Nat) → Budget η → Budget η × List ((Nat × η) × Nat)
  | [], b => (b, [])
  | (victim, size) :: rest, b =>
    if targetBytes < b.totalBytes then
      if victim.2 ∈ protectedHashes then shrinkLoop targetBytes protectedHashes rest b
      else
        let r := shrinkLoop targetBytes protectedHashes rest (b.pop victim)
        (r.1, (victim, size) :: r.2)
    else (b, [])

end Budget

structure State (η : Type) where
  managers : Nat → Manager η
  budget : Budget η

namespace State

variable (s : State η)

def setManager (owner : Nat) (m : Manager η) : State η :=
  { s with managers := Function.update s.managers owner m }

def hotCacheRemove (owner : Nat) (blockHash : η) (updateBudget : Bool) : State η × Option HotEntry :=
  let m := s.managers owner
  match m.hotCache.get? blockHash with
  | none => (s, none)
  | some entry =>
    let s := s.setManager owner { m with
      hotCache := m.hotCache.erase blockHash
      hotCacheTotalBytes := m.hotCacheTotalBytes - entry.estimatedBytes }
    (if updateBudget then { s with budget := s.budget.forget owner blockHash } else s, some entry)

def hotCacheGet (owner : Nat) (blockHash : η) : State η × Option HotEntry :=
  let m := s.managers owner
  match m.hotCache.get? blockHash with
  | none => (s, none)
  | some entry =>
    let s := s.setManager owner { m with hotCache := m.hotCache.moveToEnd blockHash }
    ({ s with budget := s.budget.touch owner blockHash }, some entry)

def removeVictims (victims : List (Nat × η)) : State η :=
  victims.foldl (fun s v => (s.hotCacheRemove v.1 v.2 false).1) s

def capLoop (owner : Nat) : List η → State η → State η
  | [], s => s
  | blockHash :: rest, s =>
    let m := s.managers owner
    if 0 < m.hotCacheMaxBytes ∧ m.hotCacheMaxBytes < m.hotCacheTotalBytes ∧ 1 < m.hotCache.entries.length then
      capLoop owner rest (s.hotCacheRemove owner blockHash true).1
    else s

def hotCachePut (owner : Nat) (blockHash : η) (tensorBytes : List Nat) : State η :=
  let s := (s.hotCacheRemove owner blockHash false).1
  let m := s.managers owner
  let estBytes := tensorBytes.sum
  let s := s.setManager owner { m with
    hotCache := m.hotCache.set blockHash { tensorBytes, estimatedBytes := estBytes }
    hotCacheTotalBytes := m.hotCacheTotalBytes + estBytes }
  let (budget, victims) := s.budget.put owner blockHash estBytes
  let s := { s with budget }.removeVictims victims
  capLoop owner (s.managers owner).hotCache.keys s

/-- `shrink_hot_cache_to` of a manager with a budget, which is `shrink_to`: what it freed comes out. -/
def shrinkTo (targetBytes : Nat) (protectedHashes : List η) : State η × Nat :=
  let (budget, victims) := Budget.shrinkLoop targetBytes protectedHashes s.budget.entries.entries s.budget
  victims.foldl (fun r v =>
    let (s, evicted) := r.1.hotCacheRemove v.1.1 v.1.2 false
    (s, if evicted.isSome then r.2 + v.2 else r.2)) ({ s with budget }, 0)

def clear (owner : Nat) : State η :=
  s.setManager owner { s.managers owner with hotCache := .empty, hotCacheTotalBytes := 0 }

def clearHotCache (owner : Nat) : State η × Nat :=
  let count := (s.managers owner).hotCache.entries.length
  let s := s.setManager owner { s.managers owner with hotCache := .empty, hotCacheTotalBytes := 0 }
  ({ s with budget := s.budget.forgetOwner owner }, count)

def close (owner : Nat) : State η :=
  let s := s.setManager owner { s.managers owner with shuttingDown := true }
  { s with budget := s.budget.forgetOwner owner }

end State

inductive Op (η : Type)
  | put (owner : Nat) (blockHash : η) (tensorBytes : List Nat)
  | get (owner : Nat) (blockHash : η)
  | remove (owner : Nat) (blockHash : η)
  | shrink (targetBytes : Nat) (protectedHashes : List η)
  | clear (owner : Nat)
  | clearHotCache (owner : Nat)
  | close (owner : Nat)

def next (s : State η) : Op η → State η
  | .put owner blockHash tensorBytes => s.hotCachePut owner blockHash tensorBytes
  | .get owner blockHash => (s.hotCacheGet owner blockHash).1
  | .remove owner blockHash => (s.hotCacheRemove owner blockHash true).1
  | .shrink targetBytes protectedHashes => (s.shrinkTo targetBytes protectedHashes).1
  | .clear owner => s.clear owner
  | .clearHotCache owner => (s.clearHotCache owner).1
  | .close owner => s.close owner

/-- Managers and budget as they are made. -/
def Start (s : State η) : Prop :=
  (∀ o, ∃ cap, s.managers o = { hotCacheMaxBytes := cap }) ∧ ∃ maxBytes, s.budget = { maxBytes }

end FusionMlx.SharedHotCache
