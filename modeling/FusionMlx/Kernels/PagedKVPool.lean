import FusionMlx.Cache.BlockHashing
import FusionMlx.Support.OrderedDict
import Mathlib.Data.List.MinMax

/-!
# The physical KV slab pool

`FusionPagedKVPool`: a free list of slab numbers and three dictionaries that
say who holds a slab, how often it is shared and by whom. A Python set has no
fixed iteration order, so the order in which a set is iterated is a parameter.
The contents of the slabs are left out: no operation reads them to decide who
owns a slab.
-/
namespace FusionMlx.PagedKVPool

open BlockHashing (PyError)
open OrderedDict

/-- The order in which the sets are iterated: the owners of each slab and the
requests that may be evicted. -/
structure SetOrder (ρ : Type) where
  owners : Nat → List ρ → List ρ
  ids : List ρ → List ρ
  mem_owners : ∀ pb l r, r ∈ owners pb l ↔ r ∈ l
  mem_ids : ∀ l r, r ∈ ids l ↔ r ∈ l

def SetOrder.asFilled (ρ : Type) : SetOrder ρ := ⟨fun _ l => l, id, fun _ _ _ => .rfl, fun _ _ => .rfl⟩

/-- The head of `freeList` is the right end of the deque; `activeIds` is `None`
or a nonempty set. -/
structure KVPool (ρ : Type) where
  numBlocks : Nat
  freeList : List Nat
  inUse : Dict Nat ρ
  refcount : Dict Nat Int
  owners : Dict Nat (List ρ)
  step : Nat
  lastAccess : Dict ρ Nat
  activeIds : Option (List ρ)

namespace KVPool

variable {ρ : Type} [DecidableEq ρ]

def init (numBlocks : Nat) : Except PyError (KVPool ρ) :=
  if numBlocks < 1 then .error .valueError
  else .ok
    { numBlocks
      freeList := List.range numBlocks
      inUse := Dict.empty
      refcount := Dict.empty
      owners := Dict.empty
      step := 0
      lastAccess := Dict.empty
      activeIds := none }

def setActiveIds (s : KVPool ρ) (ids : Option (List ρ)) : KVPool ρ :=
  { s with activeIds := ids.filter (· ≠ []) }

def touchActive (s : KVPool ρ) : KVPool ρ :=
  match s.activeIds with
  | none => s
  | some ids =>
    { s with
      step := s.step + 1
      lastAccess := ids.foldl (fun d r => d.set r (s.step + 1)) s.lastAccess }

def touch (s : KVPool ρ) (r : ρ) : KVPool ρ :=
  { s with step := s.step + 1, lastAccess := s.lastAccess.set r (s.step + 1) }

def record (s : KVPool ρ) (pb : Nat) (tag : ρ) (rc : Int) (os : List ρ) : KVPool ρ :=
  { s with
    inUse := s.inUse.set pb tag, refcount := s.refcount.set pb rc, owners := s.owners.set pb os }

def erase (s : KVPool ρ) (pb : Nat) : KVPool ρ :=
  { s with
    inUse := s.inUse.erase pb, refcount := s.refcount.erase pb, owners := s.owners.erase pb }

def pushFree (s : KVPool ρ) (pb : Nat) : KVPool ρ := { s with freeList := pb :: s.freeList }

def freePrimary (o : SetOrder ρ) (r : ρ) (s : KVPool ρ) (pb : Nat) : KVPool ρ :=
  let rc := (s.refcount.get? pb).getD 1
  let os := ((s.owners.get? pb).getD []).filter (· ≠ r)
  match o.owners pb os with
  | [] => (s.erase pb).pushFree pb
  | remaining :: _ => (s.erase pb).record pb remaining (max (rc - 1) os.length) os

def freeShare (r : ρ) (freed : List Nat) (s : KVPool ρ) (pb : Nat) : KVPool ρ :=
  let os := (s.owners.get? pb).getD []
  if r ∈ os ∧ pb ∉ freed then
    if os.filter (· ≠ r) = [] then (s.erase pb).pushFree pb
    else
      { s with
        refcount := s.refcount.set pb
          (max ((s.refcount.get? pb).getD 1 - 1) (os.filter (· ≠ r)).length)
        owners := s.owners.set pb (os.filter (· ≠ r)) }
  else s

def primaryOf (s : KVPool ρ) (r : ρ) : List Nat :=
  (s.inUse.entries.filter (fun e => e.2 = r)).map Prod.fst

def freeRequest (o : SetOrder ρ) (s : KVPool ρ) (r : ρ) : Nat × KVPool ρ :=
  let freed := s.primaryOf r
  let s₁ := freed.foldl (freePrimary o r) s
  let s₂ := s₁.owners.keys.foldl (freeShare r freed) s₁
  let alone := s₁.owners.entries.filter (fun e => e.1 ∉ freed ∧ r ∈ e.2 ∧ e.2.filter (· ≠ r) = [])
  let count := freed.length + alone.length
  (count, if count = 0 then s₂ else { s₂ with lastAccess := s₂.lastAccess.erase r })

def evictable (s : KVPool ρ) (active : List ρ) : List ρ :=
  ((s.inUse.entries.map Prod.snd).filter (· ∉ active)).dedup

def victim (o : SetOrder ρ) (s : KVPool ρ) (active : List ρ) : Option ρ :=
  (o.ids (s.evictable active)).argmin (fun r => (s.lastAccess.get? r).getD 0)

def makeRoom (o : SetOrder ρ) (s : KVPool ρ) (active : List ρ) : Except PyError Unit × KVPool ρ :=
  if s.freeList = [] then
    match s.victim o active with
    | some v => (.ok (), (s.freeRequest o v).2)
    | none => (.error .runtimeError, s)
  else (.ok (), s)

def handOut (s : KVPool ρ) (r : ρ) : Except PyError Nat × KVPool ρ :=
  match s.freeList with
  | [] => (.error .indexError, s)
  | pb :: rest => (.ok pb, { s with freeList := rest }.record pb r 1 [r])

def activeFor (s : KVPool ρ) (r : ρ) (activeIds : Option (List ρ)) : List ρ :=
  activeIds.getD (s.activeIds.getD [r])

def allocBlock (o : SetOrder ρ) (s : KVPool ρ) (r : ρ) (activeIds : Option (List ρ)) :
    Except PyError Nat × KVPool ρ :=
  match (s.touch r).makeRoom o (s.activeFor r activeIds) with
  | (.error e, s) => (.error e, s)
  | (.ok (), s) => s.handOut r

def shareBlock (s : KVPool ρ) (r : ρ) (phys : Nat) : Except PyError Unit × KVPool ρ :=
  let rc := (s.refcount.get? phys).getD 0
  if rc ≤ 0 then (.error .runtimeError, s)
  else
    let os := (s.owners.get? phys).getD []
    (.ok (), { s with
      refcount := s.refcount.set phys (rc + 1)
      owners := s.owners.set phys (if r ∈ os then os else os ++ [r]) })

/-- The source's copy of the slab is left out; `rc` is read before any eviction. -/
def ensureWritable (o : SetOrder ρ) (s : KVPool ρ) (r : ρ) (phys : Nat) :
    Except PyError Nat × KVPool ρ :=
  let rc := (s.refcount.get? phys).getD 0
  if rc ≤ 1 then (.ok phys, s)
  else
    match s.makeRoom o (s.activeFor r none) with
    | (.error e, s) => (.error e, s)
    | (.ok (), s) =>
      match s.handOut r with
      | (.error e, s) => (.error e, s)
      | (.ok pb, s) =>
        match s.owners.get? phys with
        | none => (.error .keyError, { s with refcount := s.refcount.set phys (rc - 1) })
        | some os =>
          (.ok pb, { s with
            refcount := s.refcount.set phys (rc - 1)
            owners := if os.filter (· ≠ r) = [] then s.owners.erase phys
              else s.owners.set phys (os.filter (· ≠ r)) })

/-- With one owner the slab is freed whoever asks. -/
def freeBlock (o : SetOrder ρ) (s : KVPool ρ) (pb : Nat) (requestId : Option ρ) : KVPool ρ :=
  let rc := (s.refcount.get? pb).getD 0
  if rc ≤ 0 then s
  else
    let os := (s.owners.get? pb).getD []
    match requestId with
    | some r =>
      if os.length > 1 then
        let left := os.filter (· ≠ r)
        { s with
          refcount := s.refcount.set pb (max (rc - 1) left.length)
          owners := s.owners.set pb left
          inUse :=
            if s.inUse.get? pb = some r then
              match o.owners pb left with
              | [] => s.inUse
              | q :: _ => s.inUse.set pb q
            else s.inUse }
      else (s.erase pb).pushFree pb
    | none => (s.erase pb).pushFree pb

end KVPool

/-- A call of the pool; `freeRequest` and `freeBlock` are also what request caches use. -/
inductive Op (ρ : Type) where
  | setActiveIds (ids : Option (List ρ))
  | touchActive
  | touch (r : ρ)
  | allocBlock (r : ρ) (activeIds : Option (List ρ))
  | shareBlock (r : ρ) (phys : Nat)
  | ensureWritable (r : ρ) (phys : Nat)
  | freeRequest (r : ρ)
  | freeBlock (pb : Nat) (requestId : Option ρ)

variable {ρ : Type} [DecidableEq ρ]

def exec (s : KVPool ρ) (c : SetOrder ρ × Op ρ) : KVPool ρ :=
  match c.2 with
  | .setActiveIds ids => s.setActiveIds ids
  | .touchActive => s.touchActive
  | .touch r => s.touch r
  | .allocBlock r ids => (s.allocBlock c.1 r ids).2
  | .shareBlock r phys => (s.shareBlock r phys).2
  | .ensureWritable r phys => (s.ensureWritable c.1 r phys).2
  | .freeRequest r => (s.freeRequest c.1 r).2
  | .freeBlock pb r => s.freeBlock c.1 pb r

end FusionMlx.PagedKVPool
