import FusionMlx.Cache.BlockHashMap
import FusionMlx.Cache.FreeBlockQueue

/-!
# The paged block pool

The state of `PagedCacheManager` and the bodies of its operations, as they run
with the paged locks held. Blocks live in a heap indexed by `block_id`; the
wall clock is a stream read once at every `time.time()`. A body that can raise
returns the state it leaves behind together with the exception.
-/
namespace FusionMlx.BlockPool

open BlockHashing BlockHashMap FreeBlockQueue OrderedDict

/-- The constructor's arguments, with the digest, the `repr` of a salt
component and the clock it runs with. -/
structure Params (κ : Type) where
  blockSize : Nat := 64
  maxBlocks : Nat := 1000
  enableCaching : Bool := true
  modelName : Bytes := []
  initialBlocks : Nat := 256
  sha256 : Bytes → Bytes
  repr : κ → Bytes
  clock : Nat → Nat

def Params.hash {κ : Type} (P : Params κ) (parentHash : Option BlockHash) (tokens : List Int)
    (extraKeys : Option (List κ)) : BlockHash :=
  computeBlockHash P.sha256 P.repr parentHash tokens extraKeys P.modelName

structure CacheBlock where
  refCount : Int := 0
  blockHash : Option BlockHash := none
  parentHash : Option BlockHash := none
  isNull : Bool := false
  tokenCount : Nat := 0
  lastAccess : Nat := 0

namespace CacheBlock

def isShared (c : CacheBlock) : Bool := c.refCount > 1

def resetHash (c : CacheBlock) : CacheBlock := { c with blockHash := none, parentHash := none }

def setRef (c : CacheBlock) (n : Int) : CacheBlock := { c with refCount := n }

end CacheBlock

structure PagedCacheStats where
  hits : Nat := 0
  misses : Nat := 0
  evictions : Nat := 0
  totalBlocks : Int := 0
  allocatedBlocks : Int := 0
  freeBlocks : Int := 0
  sharedBlocks : Int := 0
  totalTokensCached : Int := 0
  cowCopies : Nat := 0
  touchGhostSkips : Nat := 0

structure BlockTable where
  requestId : String
  blockIds : List Nat := []
  numTokens : Nat := 0
  deriving DecidableEq

/-- `blocks` has `currentAllocatedCount` entries; `allocatedBlocks` lists the
keys of the dictionary in insertion order. -/
structure Pool where
  blocks : Nat → CacheBlock
  currentAllocatedCount : Nat
  freeBlockQueue : FreeKVCacheBlockQueue
  cachedBlockHashToBlock : BlockHashToBlockMap
  requestTables : Dict String BlockTable
  allocatedBlocks : List Nat
  stats : PagedCacheStats
  pendingContentInvalidated : List Nat
  ticks : Nat

namespace Pool

variable {κ : Type}

def modify (s : Pool) (b : Nat) (f : CacheBlock → CacheBlock) : Pool :=
  { s with blocks := Function.update s.blocks b (f (s.blocks b)) }

def bump (s : Pool) (f : PagedCacheStats → PagedCacheStats) : Pool :=
  { s with stats := f s.stats }

def touchBlock (P : Params κ) (s : Pool) (b : Nat) : Pool :=
  { s.modify b (fun c => { c with lastAccess := P.clock s.ticks }) with ticks := s.ticks + 1 }

def addAllocated (s : Pool) (b : Nat) : Pool :=
  { s with
    allocatedBlocks := if b ∈ s.allocatedBlocks then s.allocatedBlocks
      else s.allocatedBlocks ++ [b] }

def delAllocated (s : Pool) (b : Nat) : Pool :=
  { s with allocatedBlocks := s.allocatedBlocks.filter (· ≠ b) }

def popHash (s : Pool) (h : BlockHash) (blockId : Option Nat) : Pool :=
  { s with cachedBlockHashToBlock := (s.cachedBlockHashToBlock.pop h blockId).1 }

def insertHash (s : Pool) (h : BlockHash) (b : Nat) : Pool :=
  { s with cachedBlockHashToBlock := s.cachedBlockHashToBlock.insert h b }

def enqueue (s : Pool) (b : Nat) : Pool :=
  { s with freeBlockQueue := s.freeBlockQueue.append b }

def notifyBlockContentInvalidated (s : Pool) (b : Nat) : Pool :=
  { s with pendingContentInvalidated := s.pendingContentInvalidated ++ [b] }

def setTable (s : Pool) (t : BlockTable) : Pool :=
  { s with requestTables := s.requestTables.set t.requestId t }

/-- The constructor: the first `min(initial_blocks, max_blocks)` blocks, of which
block 0 is reserved. With no block at all the reservation raises. -/
def init (P : Params κ) : Except PyError Pool :=
  let initialCount := min P.initialBlocks P.maxBlocks
  match (FreeKVCacheBlockQueue.init initialCount).popleft with
  | .error e => .error e
  | .ok (nullBlock, q) => .ok
    { blocks := fun b =>
        { refCount := if b = nullBlock then 1 else 0
          isNull := b = nullBlock
          lastAccess := P.clock b }
      currentAllocatedCount := initialCount
      freeBlockQueue := q
      cachedBlockHashToBlock := Dict.empty
      requestTables := Dict.empty
      allocatedBlocks := [nullBlock]
      stats :=
        { totalBlocks := initialCount, allocatedBlocks := 1, freeBlocks := initialCount - 1 }
      pendingContentInvalidated := []
      ticks := initialCount }

def growBlocks (P : Params κ) (s : Pool) (additionalBlocks : Nat) : Nat × Pool :=
  let toCreate := min additionalBlocks (P.maxBlocks - s.currentAllocatedCount)
  if toCreate = 0 then (0, s)
  else
    let startId := s.currentAllocatedCount
    let q := s.freeBlockQueue.appendN (List.range' startId toCreate)
    (toCreate,
      { s with
        blocks := fun b => if startId ≤ b ∧ b < startId + toCreate then
          { lastAccess := P.clock (s.ticks + (b - startId)) } else s.blocks b
        freeBlockQueue := q
        currentAllocatedCount := startId + toCreate
        ticks := s.ticks + toCreate
        stats := { s.stats with
          totalBlocks := startId + toCreate, freeBlocks := q.numFreeBlocks } })

def maybeEvictCachedBlock (s : Pool) (b : Nat) : Pool :=
  match (s.blocks b).blockHash with
  | none => s
  | some h =>
    match (s.cachedBlockHashToBlock.pop h none).2 with
    | none => s.popHash h none
    | some _ =>
      (((s.popHash h none).modify b CacheBlock.resetHash).notifyBlockContentInvalidated b).bump
        (fun t => { t with evictions := t.evictions + 1 })

def claimPopped (P : Params κ) (s : Pool) (b : Nat) : Pool :=
  let s := if P.enableCaching then s.maybeEvictCachedBlock b else s
  ((s.modify b (·.setRef 1)).touchBlock P b).addAllocated b

def allocatePopped (P : Params κ) (s : Pool) : Except PyError (Option Nat) × Pool :=
  match s.freeBlockQueue.popleft with
  | .error e => (.error e, s)
  | .ok (b, q) =>
    (.ok (some b), (claimPopped P { s with freeBlockQueue := q } b).bump
      (fun t => { t with
        allocatedBlocks := t.allocatedBlocks + 1, freeBlocks := t.freeBlocks - 1 }))

def allocateBlockInternal (P : Params κ) (s : Pool) : Except PyError (Option Nat) × Pool :=
  if s.freeBlockQueue.numFreeBlocks = 0 then
    let g := s.growBlocks P (min 256 (P.maxBlocks - s.currentAllocatedCount))
    if g.1 = 0 then (.ok none, g.2) else g.2.allocatePopped P
  else s.allocatePopped P

def getNewBlocks (P : Params κ) (s : Pool) (numBlocks : Nat) : Except PyError (List Nat) × Pool :=
  let s := if (numBlocks : Int) > s.freeBlockQueue.numFreeBlocks then
    (s.growBlocks P ((numBlocks - s.freeBlockQueue.numFreeBlocks).toNat + 128)).2 else s
  if (numBlocks : Int) > s.freeBlockQueue.numFreeBlocks then (.error .valueError, s)
  else
    match s.freeBlockQueue.popleftN numBlocks with
    | .error e => (.error e, s)
    | .ok (bs, q) =>
      (.ok bs, (bs.foldl (claimPopped P) { s with freeBlockQueue := q }).bump
        (fun t => { t with
          allocatedBlocks := t.allocatedBlocks + numBlocks
          freeBlocks := t.freeBlocks - numBlocks }))

def orphansOf (s : Pool) (ph : BlockHash) : List (BlockHash × Nat) :=
  s.cachedBlockHashToBlock.entries.flatMap (fun e =>
    (e.2.ids.filter (fun b =>
      (s.blocks b).parentHash = some ph ∧ (s.blocks b).refCount ≤ 0)).map (fun b => (e.1, b)))

def clearOrphans (s : Pool) (work : List BlockHash) :
    List (BlockHash × Nat) → Pool × List BlockHash × Nat
  | [] => (s, work, 0)
  | (h, b) :: rest =>
    if (s.blocks b).refCount > 0 then clearOrphans s work rest
    else
      let childHash := (s.blocks b).blockHash
      let s := ((s.popHash h (some b)).modify b CacheBlock.resetHash).notifyBlockContentInvalidated b
      let r := clearOrphans s (childHash.toList ++ work) rest
      (r.1, r.2.1, r.2.2 + 1)

def cascadeLoop : Nat → List BlockHash → Pool → Nat × Pool
  | 0, _, s => (0, s)
  | _ + 1, [], s => (0, s)
  | n + 1, ph :: work, s =>
    let r := clearOrphans s work (s.orphansOf ph)
    let c := cascadeLoop n r.2.1 r.1
    (r.2.2 + c.1, c.2)

def cascadeEvictOrphansLocked (s : Pool) (parentHash : BlockHash) : Nat × Pool :=
  cascadeLoop 256 [parentHash] s

def dropContent (s : Pool) (b : Nat) : Pool :=
  match (s.blocks b).blockHash with
  | none => s
  | some h =>
    (((s.popHash h (some b)).notifyBlockContentInvalidated b).cascadeEvictOrphansLocked h).2

def freeBlockLocked (s : Pool) (b : Nat) : Except PyError Bool × Pool :=
  if (s.blocks b).isNull then (.ok false, s)
  else
    let s := s.modify b (fun c => c.setRef (c.refCount - 1))
    if (s.blocks b).refCount > 0 then (.ok false, s)
    else
      let s := s.dropContent b
      if b ∈ s.allocatedBlocks then
        (.ok true, (s.delAllocated b).bump (fun t => { t with
          allocatedBlocks := t.allocatedBlocks - 1
          freeBlocks := t.freeBlocks + 1
          totalTokensCached := t.totalTokensCached - (s.blocks b).tokenCount }))
      else (.error .keyError, s)

def freeBlock (s : Pool) (b : Nat) : Except PyError Bool × Pool :=
  if b ∈ s.allocatedBlocks then
    match s.freeBlockLocked b with
    | (.ok true, s) => (.ok true, s.enqueue b)
    | r => r
  else (.ok false, s)

def freeEach (s : Pool) : List Nat → Except PyError (List Nat) × Pool
  | [] => (.ok [], s)
  | b :: rest =>
    match s.freeBlockLocked b with
    | (.error e, s) => (.error e, s)
    | (.ok freed, s) =>
      match freeEach s rest with
      | (.error e, s) => (.error e, s)
      | (.ok bs, s) => (.ok (if freed then b :: bs else bs), s)

def freeBlocksBatch (s : Pool) (bs : List Nat) : Except PyError Unit × Pool :=
  match s.freeEach bs with
  | (.error e, s) => (.error e, s)
  | (.ok toFree, s) => (.ok (), { s with freeBlockQueue := s.freeBlockQueue.appendN toFree })

def touchOne (P : Params κ) (s : Pool) (b : Nat) : Pool :=
  let raised := fun s : Pool =>
    (s.modify b (fun c => c.setRef (c.refCount + 1))).touchBlock P b
  if (s.blocks b).refCount = 0 ∧ ¬ (s.blocks b).isNull then
    match s.freeBlockQueue.remove b with
    | .error _ => s.bump (fun t => { t with touchGhostSkips := t.touchGhostSkips + 1 })
    | .ok q =>
      raised (({ s with freeBlockQueue := q }.bump (fun t => { t with
        freeBlocks := t.freeBlocks - 1
        allocatedBlocks := t.allocatedBlocks + 1 })).addAllocated b)
  else raised s

def touch (P : Params κ) (s : Pool) (bs : List Nat) : Pool := bs.foldl (touchOne P) s

/-- `ref_count += 1; touch(); if ref_count == 2: shared_blocks += 1`, inlined in four places. -/
def addRef (P : Params κ) (s : Pool) (b : Nat) : Pool :=
  let s := (s.modify b (fun c => c.setRef (c.refCount + 1))).touchBlock P b
  if (s.blocks b).refCount = 2 then
    s.bump (fun t => { t with sharedBlocks := t.sharedBlocks + 1 }) else s

def incrementRef (P : Params κ) (s : Pool) (b : Nat) : Bool × Pool :=
  if b ∈ s.allocatedBlocks then (true, s.addRef P b) else (false, s)

def releaseOne (s : Pool) (b : Nat) : Nat × Pool :=
  if b ∈ s.allocatedBlocks ∧ ¬ (s.blocks b).isNull ∧ (s.blocks b).refCount > 0 then
    let s := s.modify b (fun c => c.setRef (c.refCount - 1))
    (1, if (s.blocks b).refCount = 1 then
      s.bump (fun t => { t with sharedBlocks := max 0 (t.sharedBlocks - 1) }) else s)
  else (0, s)

def releaseForEviction (s : Pool) : List Nat → Nat × Pool
  | [] => (0, s)
  | b :: rest =>
    let r := s.releaseOne b
    let q := releaseForEviction r.2 rest
    (r.1 + q.1, q.2)

end Pool

end FusionMlx.BlockPool
