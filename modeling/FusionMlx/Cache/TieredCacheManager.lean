import FusionMlx.Cache.PagedCacheManager

/-!
# The tiered cache

`TieredCacheManager` over the paged manager as its hot tier. The cold tier is
`has_block` of the SSD manager, absent when no cold tier is set. A pass of the
demotion asks the cold tier about the blocks that can be evicted, and then has
the hot tier evict as many of its least recently used ones.
-/
namespace FusionMlx.BlockPool.Pool

def getEvictableBlocks (s : Pool) (count : Nat) : List Nat :=
  let idle := fun b => ! (s.blocks b).isNull && (s.blocks b).refCount == 0
  let candidates := (s.queueIds.filter idle).take count
  let remaining := (s.allocatedBlocks.filter (fun b => idle b && b ∉ candidates)).insertionSort
    (fun b c => (s.blocks b).lastAccess ≤ (s.blocks c).lastAccess)
  candidates ++ remaining.take (count - candidates.length)

end FusionMlx.BlockPool.Pool

namespace FusionMlx.TieredCacheManager

open BlockHashing BlockPool PagedCacheManager

variable {κ : Type}

/-- The constructor's arguments: `utilization < demotion_threshold` of the hot
statistics, a comparison of floats, and the cooldown. -/
structure Settings where
  underThreshold : PagedCacheStats → Bool
  demotionCooldown : Int

structure TieredManager where
  hot : Manager
  cold : Option (BlockHash → Bool)
  demotionInProgress : Bool := false
  lastDemotionTime : Int := 0
  demotions : Nat := 0

namespace TieredManager

variable (t : TieredManager)

def demoteBlock (blockHash : Option BlockHash) : Bool :=
  match t.cold, blockHash with
  | some hasBlock, some h => hasBlock h
  | _, _ => false

def batch (maxBlocks : Nat) : Nat :=
  if maxBlocks = 0 then 999999 else min 999999 (max 1024 (maxBlocks / 8))

def demoted (maxBlocks : Nat) : List Nat :=
  (t.hot.pool.getEvictableBlocks (batch maxBlocks)).filter (fun b =>
    (t.hot.pool.blocks b).blockHash.isSome && ! (0 < (t.hot.pool.blocks b).refCount) &&
      t.demoteBlock (t.hot.pool.blocks b).blockHash)

def doDemotion (P : Params κ) : Nat × TieredManager :=
  let demoted := (t.demoted P.maxBlocks).length
  let t := { t with demotions := t.demotions + demoted }
  (demoted, if 0 < demoted then { t with hot := (t.hot.evictLruBlocks demoted).2 } else t)

/-- `maybe_demote`; the clock shows `now` at its start and `done` after the pass. -/
def maybeDemote (P : Params κ) (S : Settings) (now done : Int) : Nat × TieredManager :=
  if t.cold.isNone then (0, t)
  else if t.demotionInProgress then (0, t)
  else if now - t.lastDemotionTime < S.demotionCooldown then (0, t)
  else
    let t := { t with hot := t.hot.getStats }
    if S.underThreshold t.hot.pool.stats then (0, t)
    else
      let r := { t with demotionInProgress := true }.doDemotion P
      (r.1, { r.2 with lastDemotionTime := done, demotionInProgress := false })

end TieredManager

end FusionMlx.TieredCacheManager
