import FusionMlx.Cache.BlockPool

/-!
# Hash lookups, block tables and eviction

The remaining bodies of `PagedCacheManager`: caching and looking up full
blocks, block tables with copy-on-write, and the eviction paths. The SSD tier
is an oracle for `has_block`, absent when no SSD manager is set.
-/
namespace FusionMlx.BlockPool

open BlockHashing OrderedDict

inductive TableRef where
  | tracked (requestId : String)
  | detached (table : BlockTable)

namespace Pool

variable {κ : Type}

def getCachedBlock (P : Params κ) (s : Pool) (h : BlockHash) : Option Nat × Pool :=
  if P.enableCaching then
    match s.cachedBlockHashToBlock.getBlock h with
    | some b => (some b, s.bump (fun t => { t with hits := t.hits + 1 }))
    | none => (none, s.bump (fun t => { t with misses := t.misses + 1 }))
  else (none, s)

def cacheFullLoop (P : Params κ) (blocks : List Nat) (tokens : List Int)
    (extraKeys : Option (List κ)) :
    Nat → Nat → Option BlockHash → Pool → Except PyError Unit × Pool
  | 0, _, _, s => (.ok (), s)
  | n + 1, i, parentHash, s =>
    match blocks[i]? with
    | none => (.error .indexError, s)
    | some b =>
      match (s.blocks b).blockHash with
      | some h => cacheFullLoop P blocks tokens extraKeys n (i + 1) (some h) s
      | none =>
        let ts := blockTokens P.blockSize tokens i
        let h := P.hash parentHash ts extraKeys
        cacheFullLoop P blocks tokens extraKeys n (i + 1) (some h)
          ((s.modify b (fun c =>
            { c with blockHash := some h, parentHash := parentHash, tokenCount := ts.length })).insertHash
              h b)

def cacheFullBlocks (P : Params κ) (s : Pool) (blocks : List Nat) (tokens : List Int)
    (numCachedBlocks numFullBlocks : Nat) (extraKeys : Option (List κ)) :
    Except PyError Unit × Pool :=
  if ¬ P.enableCaching ∨ numCachedBlocks ≥ numFullBlocks then (.ok (), s)
  else
    let loop := fun p =>
      cacheFullLoop P blocks tokens extraKeys (numFullBlocks - numCachedBlocks) numCachedBlocks p s
    if numCachedBlocks = 0 then loop none
    else
      match blocks[numCachedBlocks - 1]? with
      | none => (.error .indexError, s)
      | some b => loop (s.blocks b).blockHash

/-- The lookup of one hash in `get_computed_blocks`, with the lazy restore. The
flag says that the block was restored. -/
def lookupOrRestore (P : Params κ) (ssd : Option (BlockHash → Bool)) (claim : Bool)
    (h : BlockHash) (parentHash : Option BlockHash) (s : Pool) :
    Except PyError (Option Nat × Bool) × Pool :=
  match s.cachedBlockHashToBlock.getBlock h with
  | some b => (.ok (some b, false), s)
  | none =>
    if claim ∧ ssd.any (fun hasBlock => hasBlock h) then
      match s.allocateBlockInternal P with
      | (.error e, s) => (.error e, s)
      | (.ok none, s) => (.ok (none, false), s)
      | (.ok (some b), s) =>
        (.ok (some b, true), (s.modify b (fun c =>
          { c with blockHash := some h, parentHash := parentHash, tokenCount := P.blockSize })).insertHash
            h b)
    else (.ok (none, false), s)

def computedLoop (P : Params κ) (ssd : Option (BlockHash → Bool)) (claim : Bool)
    (tokens : List Int) (args : KeyArgs κ) :
    Nat → Nat → Option BlockHash → List Nat → Pool → Except PyError (List Nat) × Pool
  | 0, _, _, _, s => (.ok [], s)
  | n + 1, i, parentHash, restoredIds, s =>
    match resolveBlockExtraKeys ((i + 1) * P.blockSize) args with
    | .error e => (.error e, s)
    | .ok salt =>
      let h := P.hash parentHash (blockTokens P.blockSize tokens i) salt
      match s.lookupOrRestore P ssd claim h parentHash with
      | (.error e, s) => (.error e, s)
      | (.ok (none, _), s) => (.ok [], s.bump (fun t => { t with misses := t.misses + 1 }))
      | (.ok (some b, restored), s) =>
        let restoredIds := if restored then b :: restoredIds else restoredIds
        let s := if claim ∧ b ∉ restoredIds then s.addRef P b else s
        match computedLoop P ssd claim tokens args n (i + 1) (some h) restoredIds
          (s.bump (fun t => { t with hits := t.hits + 1 })) with
        | (.error e, s) => (.error e, s)
        | (.ok bs, s) => (.ok (b :: bs), s)

def getComputedBlocks (P : Params κ) (s : Pool) (ssd : Option (BlockHash → Bool))
    (tokens : List Int) (args : KeyArgs κ) (claim : Bool) :
    Except PyError (List Nat × Nat) × Pool :=
  if ¬ P.enableCaching ∨ P.blockSize = 0 then (.ok ([], 0), s)
  else
    match computedLoop P ssd claim tokens args (tokens.length / P.blockSize) 0 none [] s with
    | (.error e, s) => (.error e, s)
    | (.ok bs, s) => (.ok (bs, bs.length * P.blockSize), s)

def findCachedBlock (P : Params κ) (s : Pool) (tokens : List Int)
    (parentHash : Option BlockHash) (extraKeys : Option (List κ)) : Option Nat × Pool :=
  if P.enableCaching then
    match s.cachedBlockHashToBlock.getBlock (P.hash parentHash tokens extraKeys) with
    | some b => (some b, (s.touchBlock P b).bump (fun t => { t with hits := t.hits + 1 }))
    | none => (none, s.bump (fun t => { t with misses := t.misses + 1 }))
  else (none, s)

def registerBlockHash (P : Params κ) (s : Pool) (b : Nat) (tokens : List Int)
    (parentHash : Option BlockHash) (extraKeys : Option (List κ)) : Pool :=
  if P.enableCaching then
    let h := P.hash parentHash tokens extraKeys
    (s.modify b (fun c => { c with blockHash := some h })).insertHash h b
  else s

def store (s : Pool) (key : BlockHash) (b : Nat) : Pool :=
  (s.modify b (fun c => { c with blockHash := some key })).insertHash key b

def createBlockTable (s : Pool) (requestId : String) : Pool := s.setTable { requestId }

def getOrCreateBlockTable (s : Pool) (requestId : String) : BlockTable × Pool :=
  match s.requestTables.get? requestId with
  | some t => (t, s)
  | none => ({ requestId }, s.createBlockTable requestId)

def detachRequestTable (s : Pool) (requestId : String) : Option BlockTable × Pool :=
  (s.requestTables.get? requestId, { s with requestTables := s.requestTables.erase requestId })

def readTable (s : Pool) : TableRef → Option BlockTable
  | .tracked r => s.requestTables.get? r
  | .detached t => some t

/-- Mutating a table shows in `request_tables` when it is the tracked object. -/
def writeTable (s : Pool) (t : BlockTable) : TableRef → Pool
  | .tracked _ => s.setTable t
  | .detached _ => s

def addBlockToTable (s : Pool) (r : TableRef) (b : Nat) (tokensInBlock : Nat) : Pool :=
  match s.readTable r with
  | none => s
  | some t =>
    ((s.modify b (fun c => { c with tokenCount := tokensInBlock })).bump
      (fun u => { u with totalTokensCached := u.totalTokensCached + tokensInBlock })).writeTable
        { t with blockIds := t.blockIds ++ [b], numTokens := t.numTokens + tokensInBlock } r

def forkBlockTable (P : Params κ) (s : Pool) (source : BlockTable) (newRequestId : String) : Pool :=
  (source.blockIds.foldl (fun s b => if b ∈ s.allocatedBlocks then s.addRef P b else s) s).setTable
    { source with requestId := newRequestId }

def queueIds (s : Pool) : List Nat :=
  (s.freeBlockQueue.links.walk .fakeTail (s.currentAllocatedCount + 1)
    (s.freeBlockQueue.links.next .fakeHead)).filterMap
      (fun | .block b => some b | _ => none)

def stripBlock (s : Pool) (b : Nat) : Pool :=
  let s := s.bump (fun t =>
    { t with totalTokensCached := t.totalTokensCached - (s.blocks b).tokenCount })
  let s := (s.modify b CacheBlock.resetHash).notifyBlockContentInvalidated b
  let s := s.modify b (fun c => { c with tokenCount := 0 })
  if b ∈ s.allocatedBlocks then
    (s.delAllocated b).bump (fun t => { t with allocatedBlocks := t.allocatedBlocks - 1 })
  else s

def evictLruOne (s : Pool) (b : Nat) : Pool :=
  let parentHash := (s.blocks b).blockHash
  let s := match parentHash with
    | some h => s.popHash h none
    | none => s
  let s := (s.stripBlock b).bump (fun t => { t with evictions := t.evictions + 1 })
  match parentHash with
  | some h => (s.cascadeEvictOrphansLocked h).2
  | none => s

def evictLruLoop (numBlocks : Int) : List Nat → Int → Pool → Int × Pool
  | [], evicted, s => (evicted, s)
  | b :: rest, evicted, s =>
    if evicted ≥ numBlocks then (evicted, s)
    else if (s.blocks b).refCount > 0 ∨ (s.blocks b).isNull then
      evictLruLoop numBlocks rest evicted s
    else evictLruLoop numBlocks rest (evicted + 1) (s.evictLruOne b)

def evictLruBlocksLocked (s : Pool) (numBlocks : Int) : Int × Pool :=
  evictLruLoop numBlocks s.queueIds 0 s

def evictionCandidates (s : Pool) : List Nat :=
  (s.allocatedBlocks.filter (fun b =>
    (s.blocks b).refCount ≤ 0 ∧ ¬ (s.blocks b).isNull ∧ (s.blocks b).blockHash ≠ none)).insertionSort
      (fun b c => (s.blocks b).lastAccess ≤ (s.blocks c).lastAccess)

def reclaimOne (s : Pool) (b : Nat) : Pool :=
  let s := match (s.blocks b).blockHash with
    | some h => s.popHash h (some b)
    | none => s
  (((s.stripBlock b).bump (fun t => { t with freeBlocks := t.freeBlocks + 1 })).enqueue b).bump
    (fun t => { t with evictions := t.evictions + 1 })

def evictCachedLoop (numBlocks : Int) : List Nat → Int → Pool → Int × Pool
  | [], evicted, s => (evicted, s)
  | b :: rest, evicted, s =>
    if evicted ≥ numBlocks then (evicted, s)
    else
      match (s.blocks b).blockHash with
      | some h =>
        let c := (s.reclaimOne b).cascadeEvictOrphansLocked h
        evictCachedLoop numBlocks rest (evicted + 1 + c.1) c.2
      | none => evictCachedLoop numBlocks rest (evicted + 1) (s.reclaimOne b)

def evictCachedBlocksLocked (s : Pool) (numBlocks : Int) : Int × Pool :=
  if numBlocks ≤ 0 then (0, s) else evictCachedLoop numBlocks s.evictionCandidates 0 s

def handleMemoryPressure (s : Pool) (requestedBlocks : Int) : Bool × Pool :=
  if s.freeBlockQueue.numFreeBlocks ≥ requestedBlocks then (true, s)
  else
    let s := (s.evictLruBlocksLocked (requestedBlocks - s.freeBlockQueue.numFreeBlocks)).2
    let s := if s.freeBlockQueue.numFreeBlocks < requestedBlocks then
      (s.evictCachedBlocksLocked (requestedBlocks - s.freeBlockQueue.numFreeBlocks)).2 else s
    (s.freeBlockQueue.numFreeBlocks ≥ requestedBlocks, s)

def dropEntry (s : Pool) (b : Nat) : Pool :=
  match (s.blocks b).blockHash with
  | some h => (s.popHash h (some b)).notifyBlockContentInvalidated b
  | none => s

def requeue (s : Pool) (b : Nat) : Pool :=
  let s := if b ∈ s.allocatedBlocks then
    (s.delAllocated b).bump (fun t => { t with allocatedBlocks := t.allocatedBlocks - 1 }) else s
  if s.freeBlockQueue.isInQueue b then s
  else (s.enqueue b).bump (fun t => { t with freeBlocks := t.freeBlocks + 1 })

def evictBlockPermanently (s : Pool) (b : Nat) : Bool × Pool :=
  if ¬ b < s.currentAllocatedCount ∨ (s.blocks b).refCount > 0 ∨ (s.blocks b).isNull then (false, s)
  else
    let s := (s.dropEntry b).modify b (fun c => { c.resetHash with tokenCount := 0 })
    (true, (s.requeue b).bump (fun t => { t with evictions := t.evictions + 1 }))

def makeRoom (P : Params κ) (s : Pool) : Pool :=
  if s.freeBlockQueue.numFreeBlocks = 0 then
    let s := (s.growBlocks P (min 256 (P.maxBlocks - s.currentAllocatedCount))).2
    if s.freeBlockQueue.numFreeBlocks = 0 then (s.evictCachedBlocksLocked 1).2 else s
  else s

/-- The inlined `_maybe_evict_cached_block`, which pops by `block_id`. -/
def popOwnHash (P : Params κ) (s : Pool) (c : Nat) : Pool :=
  match P.enableCaching, (s.blocks c).blockHash with
  | true, some h => s.popHash h (some c)
  | _, _ => s

def copyPopped (P : Params κ) (s : Pool) (c b : Nat) : Pool :=
  let s := (((s.popOwnHash P c).modify c (·.setRef 1)).touchBlock P c).addAllocated c
  let s := s.modify c (fun d => { d with tokenCount := (s.blocks b).tokenCount })
  let s := s.modify c CacheBlock.resetHash
  let s := s.modify b (fun d => d.setRef (d.refCount - 1))
  if (s.blocks b).refCount = 1 then
    s.bump (fun t => { t with sharedBlocks := t.sharedBlocks - 1 }) else s

def cowCopy (P : Params κ) (s : Pool) (b : Nat) : Except PyError Nat × Pool :=
  let s := s.makeRoom P
  if s.freeBlockQueue.numFreeBlocks = 0 then (.error .cacheEvictionError, s)
  else
    match s.freeBlockQueue.popleft with
    | .error e => (.error e, s)
    | .ok (c, q) =>
      (.ok c, (copyPopped P { s with freeBlockQueue := q } c b).bump
        (fun t => { t with cowCopies := t.cowCopies + 1 }))

/-- What the loop of `get_blocks_for_generation` leaves behind; on an exception
the table keeps the copies made so far. -/
structure Generation where
  outcome : Except PyError (List Nat × Bool)
  blockIds : List Nat
  pool : Pool

def generationLoop (P : Params κ) : List Nat → Pool → Generation
  | [], s => ⟨.ok ([], false), [], s⟩
  | b :: rest, s =>
    if b ∉ s.allocatedBlocks then
      let g := generationLoop P rest s
      ⟨g.outcome, b :: g.blockIds, g.pool⟩
    else if (s.blocks b).isShared then
      match s.cowCopy P b with
      | (.error e, s) => ⟨.error e, b :: rest, s⟩
      | (.ok c, s) =>
        let g := generationLoop P rest (s.touchBlock P b)
        ⟨g.outcome.map (fun o => (c :: o.1, true)), c :: g.blockIds, g.pool⟩
    else
      let g := generationLoop P rest (s.touchBlock P b)
      ⟨g.outcome.map (fun o => (b :: o.1, o.2)), b :: g.blockIds, g.pool⟩

def getBlocksForGeneration (P : Params κ) (s : Pool) (r : TableRef) :
    Except PyError (List Nat × Bool) × Pool :=
  match s.readTable r with
  | none => (.error .keyError, s)
  | some t =>
    let g := generationLoop P t.blockIds s
    (g.outcome, g.pool.writeTable { t with blockIds := g.blockIds } r)

def getStats (s : Pool) : Pool :=
  s.bump (fun t => { t with
    sharedBlocks := (s.allocatedBlocks.filter (fun b => (s.blocks b).refCount > 1)).length
    freeBlocks := s.freeBlockQueue.numFreeBlocks })

def resetStats (s : Pool) : Pool :=
  s.bump (fun t => { t with hits := 0, misses := 0, cowCopies := 0, evictions := 0 })

def resetPrefixCache (P : Params κ) (s : Pool) : Bool × Pool :=
  if (P.maxBlocks : Int) - s.freeBlockQueue.numFreeBlocks > 1 then (false, s)
  else
    (true, { s with
      cachedBlockHashToBlock := Dict.empty
      blocks := fun b => if b < s.currentAllocatedCount then (s.blocks b).resetHash else s.blocks b
      stats := { s.stats with evictions := 0, hits := 0, misses := 0 } })

def clear (P : Params κ) (s : Pool) : Except PyError Nat × Pool :=
  let staleBlockIds := s.allocatedBlocks.filter (fun b => ¬ (s.blocks b).isNull)
  match init { P with clock := fun n => P.clock (s.ticks + n) } with
  | .error e => (.error e, s)
  | .ok fresh =>
    (.ok (s.allocatedBlocks.length - 1),
      { fresh with
        pendingContentInvalidated := s.pendingContentInvalidated ++ staleBlockIds
        ticks := s.ticks + fresh.ticks })

def markBlockCold (s : Pool) (b : Nat) : Bool × Pool :=
  if ¬ b < s.currentAllocatedCount ∨ (s.blocks b).refCount > 0 ∨ (s.blocks b).isNull then (false, s)
  else (true, s.bump (fun t => { t with evictions := t.evictions + 1 }))

def restoreBlock (P : Params κ) (s : Pool) (b : Nat) : Bool × Pool :=
  if b < s.currentAllocatedCount then (true, s.touchBlock P b) else (false, s)

end Pool

end FusionMlx.BlockPool
