import FusionMlx.Cache.PagedCache

/-!
# The public operations of the paged cache manager

`Manager` adds to the pool the hold counts of the three reentrant locks, the
registered callbacks and the trace of callback invocations. A public operation
runs its body between acquiring and releasing its locks and, where the source
does so, flushes the queued invalidations afterwards. `Op` names the
operations and `exec` runs one.
-/
namespace FusionMlx.PagedCacheManager

open BlockHashing BlockPool

structure LockHolds where
  blockTable : Nat := 0
  hashMap : Nat := 0
  freeQueue : Nat := 0
  deriving DecidableEq

namespace LockHolds

def acquire (h l : LockHolds) : LockHolds :=
  ⟨h.blockTable + l.blockTable, h.hashMap + l.hashMap, h.freeQueue + l.freeQueue⟩

def release (h l : LockHolds) : LockHolds :=
  ⟨h.blockTable - l.blockTable, h.hashMap - l.hashMap, h.freeQueue - l.freeQueue⟩

def none : LockHolds := {}
def tableOnly : LockHolds := { blockTable := 1 }
def mapOnly : LockHolds := { hashMap := 1 }
def all : LockHolds := ⟨1, 1, 1⟩

@[simp] theorem release_acquire (h l : LockHolds) : (h.acquire l).release l = h := by
  simp [acquire, release]

end LockHolds

structure Delivery where
  callback : Nat
  blockId : Nat
  holds : LockHolds
  deriving DecidableEq

structure Manager where
  pool : Pool
  holds : LockHolds
  callbacks : Nat
  trace : List Delivery

def deliveries (callbacks : Nat) (holds : LockHolds) (pending : List Nat) : List Delivery :=
  pending.flatMap (fun b => (List.range callbacks).map (fun c => ⟨c, b, holds⟩))

namespace Manager

variable {κ : Type}

def init (P : Params κ) : Except PyError Manager :=
  (Pool.init P).map (fun s => ⟨s, .none, 0, []⟩)

def registerBlockFreedCallback (m : Manager) : Manager := { m with callbacks := m.callbacks + 1 }

def flushContentInvalidated (m : Manager) : Manager :=
  if m.callbacks = 0 ∨ m.pool.pendingContentInvalidated = [] then m
  else
    { m with
      pool := { m.pool with pendingContentInvalidated := [] }
      trace := m.trace ++ deliveries m.callbacks m.holds m.pool.pendingContentInvalidated }

def withLocks {α : Type} (l : LockHolds) (body : Manager → α × Manager) (m : Manager) :
    α × Manager :=
  let r := body { m with holds := m.holds.acquire l }
  (r.1, { r.2 with holds := r.2.holds.release l })

def onPool {α : Type} (body : Pool → α × Pool) (m : Manager) : α × Manager :=
  ((body m.pool).1, { m with pool := (body m.pool).2 })

def thenFlush {α : Type} (r : Except PyError α × Manager) : Except PyError α × Manager :=
  match r.1 with
  | .ok _ => (r.1, r.2.flushContentInvalidated)
  | .error _ => r

def allocateBlock (P : Params κ) (m : Manager) : Except PyError (Option Nat) × Manager :=
  thenFlush (withLocks .all (onPool (Pool.allocateBlockInternal P)) m)

/-- The flush stands behind a `return` and never runs. -/
def getNewBlocks (P : Params κ) (m : Manager) (numBlocks : Nat) :
    Except PyError (List Nat) × Manager :=
  withLocks .all (onPool (fun s => s.getNewBlocks P numBlocks)) m

def allocateBlocksForTokens (P : Params κ) (m : Manager) (numTokens : Nat) :
    Except PyError (List Nat) × Manager :=
  m.getNewBlocks P ((numTokens + P.blockSize - 1) / P.blockSize)

/-- An unknown block returns before the flush. -/
def freeBlock (m : Manager) (b : Nat) : Except PyError Bool × Manager :=
  if b ∈ m.pool.allocatedBlocks then thenFlush (withLocks .all (onPool (fun s => s.freeBlock b)) m)
  else (.ok false, m)

def freeBlocksBatch (m : Manager) (bs : List Nat) : Except PyError Unit × Manager :=
  thenFlush (withLocks .all (onPool (fun s => s.freeBlocksBatch bs)) m)

def touch (P : Params κ) (m : Manager) (bs : List Nat) : Manager :=
  (withLocks ⟨1, 0, 1⟩ (onPool (fun s => ((), s.touch P bs))) m).2

def incrementRef (P : Params κ) (m : Manager) (b : Nat) : Bool × Manager :=
  withLocks .tableOnly (onPool (fun s => s.incrementRef P b)) m

def releaseForEviction (m : Manager) (bs : List Nat) : Nat × Manager :=
  withLocks .tableOnly (onPool (fun s => s.releaseForEviction bs)) m

def getCachedBlock (P : Params κ) (m : Manager) (h : BlockHash) : Option Nat × Manager :=
  withLocks .mapOnly (onPool (fun s => s.getCachedBlock P h)) m

def cacheFullBlocks (P : Params κ) (m : Manager) (blocks : List Nat) (tokens : List Int)
    (numCachedBlocks numFullBlocks : Nat) (extraKeys : Option (List κ)) :
    Except PyError Unit × Manager :=
  withLocks .mapOnly
    (onPool (fun s => s.cacheFullBlocks P blocks tokens numCachedBlocks numFullBlocks extraKeys)) m

def getComputedBlocks (P : Params κ) (m : Manager) (ssd : Option (BlockHash → Bool))
    (tokens : List Int) (args : KeyArgs κ) (claim : Bool) :
    Except PyError (List Nat × Nat) × Manager :=
  if ¬ P.enableCaching ∨ P.blockSize = 0 then (.ok ([], 0), m)
  else
    thenFlush (withLocks .all (onPool (fun s => s.getComputedBlocks P ssd tokens args claim)) m)

/-- `find_shared_prefix`: a lookup that claims nothing. -/
def findSharedPrefix (P : Params κ) (m : Manager) (ssd : Option (BlockHash → Bool))
    (tokens : List Int) (args : KeyArgs κ) : Except PyError (List Nat × List Int) × Manager :=
  let r := m.getComputedBlocks P ssd tokens args false
  (r.1.map (fun c => (c.1, tokens.drop c.2)), r.2)

def findCachedBlock (P : Params κ) (m : Manager) (tokens : List Int)
    (parentHash : Option BlockHash) (extraKeys : Option (List κ)) : Option Nat × Manager :=
  withLocks .mapOnly (onPool (fun s => s.findCachedBlock P tokens parentHash extraKeys)) m

def registerBlockHash (P : Params κ) (m : Manager) (b : Nat) (tokens : List Int)
    (parentHash : Option BlockHash) (extraKeys : Option (List κ)) : Manager :=
  (withLocks .mapOnly
    (onPool (fun s => ((), s.registerBlockHash P b tokens parentHash extraKeys))) m).2

def store (m : Manager) (key : BlockHash) (b : Nat) : Manager :=
  (withLocks .mapOnly (onPool (fun s => ((), s.store key b))) m).2

def createBlockTable (m : Manager) (requestId : String) : Manager :=
  (withLocks .tableOnly (onPool (fun s => ((), s.createBlockTable requestId))) m).2

def getOrCreateBlockTable (m : Manager) (requestId : String) : BlockTable × Manager :=
  withLocks .tableOnly (onPool (fun s => s.getOrCreateBlockTable requestId)) m

/-- `free_block` is the public one: it flushes while the three locks are held. -/
def deleteBlockTable (m : Manager) (requestId : String) : Manager :=
  (withLocks .all (fun m =>
    let m' := (onPool (fun s => s.detachRequestTable requestId) m)
    ((), match m'.1 with
      | some t => t.blockIds.foldl (fun m b => (m.freeBlock b).2) m'.2
      | none => m'.2)) m).2

def detachRequestTable (m : Manager) (requestId : String) : Option BlockTable × Manager :=
  withLocks .tableOnly (onPool (fun s => s.detachRequestTable requestId)) m

def addBlockToTable (m : Manager) (r : TableRef) (b : Nat) (tokensInBlock : Nat) : Manager :=
  (withLocks .tableOnly (onPool (fun s => ((), s.addBlockToTable r b tokensInBlock))) m).2

def forkBlockTable (P : Params κ) (m : Manager) (source : BlockTable) (newRequestId : String) :
    Manager :=
  (withLocks ⟨1, 1, 0⟩ (onPool (fun s => ((), s.forkBlockTable P source newRequestId))) m).2

def getBlocksForGeneration (P : Params κ) (m : Manager) (r : TableRef) :
    Except PyError (List Nat × Bool) × Manager :=
  thenFlush (withLocks .all (onPool (fun s => s.getBlocksForGeneration P r)) m)

def evictLruBlocks (m : Manager) (numBlocks : Int) : Int × Manager :=
  let r := withLocks .all (onPool (fun s => s.evictLruBlocksLocked numBlocks)) m
  (r.1, r.2.flushContentInvalidated)

def handleMemoryPressure (m : Manager) (requestedBlocks : Int) : Bool × Manager :=
  let r := withLocks .all (onPool (fun s => s.handleMemoryPressure requestedBlocks)) m
  (r.1, r.2.flushContentInvalidated)

def evictBlockPermanently (m : Manager) (b : Nat) : Bool × Manager :=
  withLocks .all (onPool (fun s => s.evictBlockPermanently b)) m

def evict (m : Manager) : BlockHash ⊕ Nat → Bool × Manager
  | .inl h =>
    match m.pool.cachedBlockHashToBlock.getBlock h with
    | some b => m.evictBlockPermanently b
    | none => (false, m)
  | .inr b => m.evictBlockPermanently b

def resetPrefixCache (P : Params κ) (m : Manager) : Bool × Manager :=
  withLocks ⟨0, 1, 1⟩ (onPool (fun s => s.resetPrefixCache P)) m

def clear (P : Params κ) (m : Manager) : Except PyError Nat × Manager :=
  withLocks .all (onPool (fun s => s.clear P)) m

def getStats (m : Manager) : Manager :=
  (withLocks ⟨1, 0, 1⟩ (onPool (fun s => ((), s.getStats))) m).2

def resetStats (m : Manager) : Manager := { m with pool := m.pool.resetStats }

def markBlockCold (m : Manager) (b : Nat) : Bool × Manager :=
  withLocks .tableOnly (onPool (fun s => s.markBlockCold b)) m

def restoreBlock (P : Params κ) (m : Manager) (b : Nat) : Bool × Manager :=
  withLocks .tableOnly (onPool (fun s => s.restoreBlock P b)) m

end Manager

inductive Op (κ : Type) where
  | registerBlockFreedCallback
  | allocateBlock
  | getNewBlocks (numBlocks : Nat)
  | allocateBlocksForTokens (numTokens : Nat)
  | freeBlock (b : Nat)
  | freeBlocksBatch (bs : List Nat)
  | touch (bs : List Nat)
  | incrementRef (b : Nat)
  | releaseForEviction (bs : List Nat)
  | getCachedBlock (h : BlockHash)
  | cacheFullBlocks (blocks : List Nat) (tokens : List Int) (numCachedBlocks numFullBlocks : Nat)
      (extraKeys : Option (List κ))
  | getComputedBlocks (ssd : Option (BlockHash → Bool)) (tokens : List Int) (args : KeyArgs κ)
      (claim : Bool)
  | findSharedPrefix (ssd : Option (BlockHash → Bool)) (tokens : List Int) (args : KeyArgs κ)
  | findCachedBlock (tokens : List Int) (parentHash : Option BlockHash)
      (extraKeys : Option (List κ))
  | registerBlockHash (b : Nat) (tokens : List Int) (parentHash : Option BlockHash)
      (extraKeys : Option (List κ))
  | store (key : BlockHash) (b : Nat)
  | createBlockTable (requestId : String)
  | getOrCreateBlockTable (requestId : String)
  | deleteBlockTable (requestId : String)
  | detachRequestTable (requestId : String)
  | addBlockToTable (r : TableRef) (b : Nat) (tokensInBlock : Nat)
  | forkBlockTable (source : BlockTable) (newRequestId : String)
  | getBlocksForGeneration (r : TableRef)
  | evictLruBlocks (numBlocks : Int)
  | handleMemoryPressure (requestedBlocks : Int)
  | evictBlockPermanently (b : Nat)
  | evict (key : BlockHash ⊕ Nat)
  | resetPrefixCache
  | clear
  | getStats
  | resetStats
  | markBlockCold (b : Nat)
  | restoreBlock (b : Nat)

variable {κ : Type}

def exec (P : Params κ) (m : Manager) : Op κ → Manager
  | .registerBlockFreedCallback => m.registerBlockFreedCallback
  | .allocateBlock => (m.allocateBlock P).2
  | .getNewBlocks n => (m.getNewBlocks P n).2
  | .allocateBlocksForTokens n => (m.allocateBlocksForTokens P n).2
  | .freeBlock b => (m.freeBlock b).2
  | .freeBlocksBatch bs => (m.freeBlocksBatch bs).2
  | .touch bs => m.touch P bs
  | .incrementRef b => (m.incrementRef P b).2
  | .releaseForEviction bs => (m.releaseForEviction bs).2
  | .getCachedBlock h => (m.getCachedBlock P h).2
  | .cacheFullBlocks bs ts nc nf k => (m.cacheFullBlocks P bs ts nc nf k).2
  | .getComputedBlocks ssd ts args claim => (m.getComputedBlocks P ssd ts args claim).2
  | .findSharedPrefix ssd ts args => (m.findSharedPrefix P ssd ts args).2
  | .findCachedBlock ts p k => (m.findCachedBlock P ts p k).2
  | .registerBlockHash b ts p k => m.registerBlockHash P b ts p k
  | .store key b => m.store key b
  | .createBlockTable r => m.createBlockTable r
  | .getOrCreateBlockTable r => (m.getOrCreateBlockTable r).2
  | .deleteBlockTable r => m.deleteBlockTable r
  | .detachRequestTable r => (m.detachRequestTable r).2
  | .addBlockToTable r b n => m.addBlockToTable r b n
  | .forkBlockTable t r => m.forkBlockTable P t r
  | .getBlocksForGeneration r => (m.getBlocksForGeneration P r).2
  | .evictLruBlocks n => (m.evictLruBlocks n).2
  | .handleMemoryPressure n => (m.handleMemoryPressure n).2
  | .evictBlockPermanently b => (m.evictBlockPermanently b).2
  | .evict key => (m.evict key).2
  | .resetPrefixCache => (m.resetPrefixCache P).2
  | .clear => (m.clear P).2
  | .getStats => m.getStats
  | .resetStats => m.resetStats
  | .markBlockCold b => (m.markBlockCold b).2
  | .restoreBlock b => (m.restoreBlock P b).2

/-- What the callers of an operation see to: block objects that exist, caching
only held blocks, registering only held blocks that are not listed, and freeing
distinct held blocks as a batch. -/
def Op.WellFormed (m : Manager) : Op κ → Prop
  | .touch bs => ∀ b ∈ bs, b < m.pool.currentAllocatedCount
  | .freeBlocksBatch bs => bs.Nodup ∧ ∀ b ∈ bs, b ∈ m.pool.allocatedBlocks
  | .cacheFullBlocks bs _ _ _ _ => ∀ b ∈ bs, b ∈ m.pool.allocatedBlocks
  | .registerBlockHash b _ _ _ =>
    b ∈ m.pool.allocatedBlocks ∧ ∀ h, ¬ m.pool.cachedBlockHashToBlock.Registered h b
  | .store _ b =>
    b ∈ m.pool.allocatedBlocks ∧ ∀ h, ¬ m.pool.cachedBlockHashToBlock.Registered h b
  | _ => True

end FusionMlx.PagedCacheManager
