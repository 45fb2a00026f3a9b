import FusionMlx.Cache.ManagerRuns

/-!
# The block pool over every run

Two laws of the pool in every reachable state: its blocks are partitioned into
queued and allocated ones, and its hash map names only allocated blocks that
carry the hash they are found under.
-/
namespace FusionMlx.PoolInvariant

open BlockHashing BlockHashMap BlockPool ResourceLedger PoolRefinement
open LookupRefinement PagedCacheManager ManagerRuns

variable {κ : Type} {P : Params κ} {m : Manager} {a : Ledger Nat BlockHash}

/-- Each created block is linked once in the queue or present among the
allocated blocks, never both; the null block is allocated for good, and what is
queued is unreferenced. -/
structure Partitioned (P : Params κ) (s : Pool) (free : List Nat) : Prop where
  linked : s.freeBlockQueue.Holds free
  created : ∀ b, b < s.currentAllocatedCount ↔ b ∈ free ∨ b ∈ s.allocatedBlocks
  freeNodup : free.Nodup
  allocatedNodup : s.allocatedBlocks.Nodup
  apart : ∀ b ∈ free, b ∉ s.allocatedBlocks
  inQueue : ∀ b, s.freeBlockQueue.isInQueue b = true ↔ b ∈ free
  unlinked : ∀ b ∈ s.allocatedBlocks,
    s.freeBlockQueue.links.prev (.block b) = none ∧ s.freeBlockQueue.links.next (.block b) = none
  nullBlock : ∀ b, (s.blocks b).isNull = true ↔ b = 0
  nullAllocated : 0 ∈ s.allocatedBlocks
  counted : s.freeBlockQueue.numFreeBlocks = free.length
  bounded : s.currentAllocatedCount ≤ P.maxBlocks
  unreferenced : ∀ b ∈ free, (s.blocks b).refCount ≤ 0

theorem partitioned_of_stands (h : Stands P m a) : Partitioned P m.pool a.free := by
  obtain ⟨hr, hs, hl⟩ := h
  have hapart : ∀ b ∈ a.free, b ∉ m.pool.allocatedBlocks := fun b hb hm =>
    hs.freeHeld b hb ((hr.held b).mpr hm)
  refine { linked := hr.queue, created := ?_, freeNodup := hs.freeNodup,
           allocatedNodup := hr.nodup, apart := hapart, inQueue := hr.queue.isInQueue_iff,
           unlinked := ?_, nullBlock := hr.null, nullAllocated := (hr.held 0).mp hs.rootHeld,
           counted := hr.queue.count, bounded := hr.bound, unreferenced := ?_ }
  · intro b
    rw [← hr.made, hs.placed, hl, hr.held]
    simp
  · intro b hb
    have hnot : b ∉ a.free := fun hm => hapart b hm hb
    exact hr.queue.threads.outside (.block b) (by simp [hnot])
  · intro b hb
    rw [hr.refs]
    exact hs.idle b (Or.inl hb)

theorem allocateBlock_result (P : Params κ) (m : Manager) :
    (m.allocateBlock P).1 = (m.pool.allocateBlockInternal P).1 := by
  simp only [Manager.allocateBlock, locked_eq, Manager.thenFlush]
  split <;> rfl

theorem getComputedBlocks_result (P : Params κ) (m : Manager) (ssd : Option (BlockHash → Bool))
    (tokens : List Int) (args : KeyArgs κ) (claim : Bool) :
    (m.getComputedBlocks P ssd tokens args claim).1 =
        (m.pool.getComputedBlocks P ssd tokens args claim).1 ∧
      Ends m (m.pool.getComputedBlocks P ssd tokens args claim).2
        (m.getComputedBlocks P ssd tokens args claim).2 := by
  by_cases hc : ¬ P.enableCaching = true ∨ P.blockSize = 0
  · have h₁ : m.getComputedBlocks P ssd tokens args claim = (.ok ([], 0), m) := by
      simp only [Manager.getComputedBlocks]
      rw [if_pos hc]
    have h₂ : m.pool.getComputedBlocks P ssd tokens args claim = (.ok ([], 0), m.pool) := by
      simp only [Pool.getComputedBlocks]
      rw [if_pos hc]
    rw [h₁, h₂]
    exact ⟨rfl, .plain⟩
  · have h₁ : m.getComputedBlocks P ssd tokens args claim = Manager.thenFlush (Manager.withLocks
        .all (Manager.onPool (fun s => s.getComputedBlocks P ssd tokens args claim)) m) := by
      simp only [Manager.getComputedBlocks]
      rw [if_neg hc]
    rw [h₁]
    refine ⟨?_, ends_thenFlush .all (fun s => s.getComputedBlocks P ssd tokens args claim) m⟩
    rw [locked_eq, Manager.thenFlush]
    split <;> rfl

/-- In every reachable state the blocks are partitioned between the queue and
the allocated ones, and an allocation hands out none that is allocated. -/
theorem pool_partition (h : Reachable P (fun _ _ => True) m) :
    (∃ free, Partitioned P m.pool free) ∧
      (∀ b, (m.allocateBlock P).1 = .ok (some b) → b ∉ m.pool.allocatedBlocks) ∧
      ∀ n bs, (m.getNewBlocks P n).1 = .ok bs →
        bs.length = n ∧ bs.Nodup ∧ ∀ b ∈ bs, b ∉ m.pool.allocatedBlocks := by
  obtain ⟨a, hst⟩ := reachable_sound h
  refine ⟨⟨a.free, partitioned_of_stands hst⟩, ?_, ?_⟩
  · intro b hb
    rw [allocateBlock_result] at hb
    obtain ⟨a', -, -, hcase⟩ :=
      allocateBlockInternal_refines hst.refines hst.sound (R := Rules.any)
    rcases hcase with ⟨hnone, -⟩ | ⟨c, hc, hh⟩
    · rw [hnone] at hb
      cases hb
    · rw [hc, Except.ok.injEq, Option.some.injEq] at hb
      subst hb
      rw [← hst.refines.held]
      exact hh.fresh c (by simp)
  · intro n bs hbs
    simp only [Manager.getNewBlocks, locked_eq] at hbs
    obtain ⟨a', -, -, -, -, hres⟩ :=
      getNewBlocks_refines hst.refines hst.sound (R := Rules.any) n
    obtain ⟨hlen, hh⟩ := hres bs hbs
    refine ⟨hlen, hh.nodup, fun b hb => ?_⟩
    rw [← hst.refines.held]
    exact hh.fresh b hb

theorem pool_partition_tiny :
    (∃ free, Partitioned (tiny 2) (tinyRun 2 [.getNewBlocks 2, .cacheFullBlocks [1, 2] [7, 8] 0 2
      none, .freeBlock 2]).pool free) ∧
      ((tinyRun 2 [.getNewBlocks 2, .cacheFullBlocks [1, 2] [7, 8] 0 2
        none, .freeBlock 2]).allocateBlock (tiny 2)).1 = .ok (some 2) := by
  have hpart := (pool_partition (P := tiny 2) (reachable_tinyRun (C := fun _ _ => True) 2
    [.getNewBlocks 2, .cacheFullBlocks [1, 2] [7, 8] 0 2 none, .freeBlock 2]
    ⟨⟨trivial, trivial⟩, ⟨show ∀ b ∈ [1, 2], b ∈ _ by decide +kernel, trivial⟩,
      ⟨trivial, trivial⟩, trivial⟩)).1
  exact ⟨hpart, by decide +kernel⟩

/-- A block is found under `k` in the pool: it is allocated, listed and carries `k`. -/
structure FoundUnder (s : Pool) (k : BlockHash) (b : Nat) : Prop where
  allocated : b ∈ s.allocatedBlocks
  registered : s.cachedBlockHashToBlock.Registered k b
  hash : (s.blocks b).blockHash = some k

theorem foundUnder_of_listed {s : Pool} (hr : Refines P s a) (hs : a.Sound 0) {k : BlockHash}
    {b : Nat} (he : (k, b) ∈ a.entries) : FoundUnder s k b := by
  obtain ⟨hheld, hkey⟩ := hs.listed k b he
  exact ⟨(hr.held b).mp hheld, (hr.entries k b).mp he, (hr.key b).trans hkey⟩

/-- In every reachable state the hash map names only allocated blocks that are
not queued and carry the hash, and no lookup returns any other block. -/
theorem hash_map_sound (h : Reachable P (fun _ _ => True) m) :
    (∃ free, m.pool.freeBlockQueue.Holds free ∧
      ∀ k b, m.pool.cachedBlockHashToBlock.Registered k b → FoundUnder m.pool k b ∧ b ∉ free) ∧
    (∀ k b, (m.getCachedBlock P k).1 = some b → FoundUnder (m.getCachedBlock P k).2.pool k b) ∧
    (∀ tokens parent salt b, (m.findCachedBlock P tokens parent salt).1 = some b →
      FoundUnder (m.findCachedBlock P tokens parent salt).2.pool
        (P.hash parent tokens salt) b) ∧
    (∀ ssd tokens args claim bs n, (m.getComputedBlocks P ssd tokens args claim).1 = .ok (bs, n) →
      n = bs.length * P.blockSize ∧ n ≤ tokens.length ∧ ∀ i b, bs[i]? = some b →
        FoundUnder (m.getComputedBlocks P ssd tokens args claim).2.pool
          (chainAt P tokens (resolvedSalt P args) i) b) := by
  obtain ⟨a, hst⟩ := reachable_sound h
  obtain ⟨hr, hs, -⟩ := hst
  refine ⟨⟨a.free, hr.queue, ?_⟩, ?_, ?_, ?_⟩
  · intro k b hreg
    have he := (hr.entries k b).mpr hreg
    exact ⟨foundUnder_of_listed hr hs he, fun hf => hs.freeHeld b hf (hs.listed k b he).1⟩
  · intro k b hb
    obtain ⟨hr', hres⟩ := getCachedBlock_refines hr k
    simp only [Manager.getCachedBlock, locked_eq] at hb ⊢
    exact foundUnder_of_listed hr' hs (hres b hb)
  · intro tokens parent salt b hb
    obtain ⟨hr', hres⟩ := findCachedBlock_refines hr tokens parent salt
    simp only [Manager.findCachedBlock, locked_eq] at hb ⊢
    exact foundUnder_of_listed hr' hs (hres b hb)
  · intro ssd tokens args claim bs n hbs
    obtain ⟨hfst, hends⟩ := getComputedBlocks_result P m ssd tokens args claim
    obtain ⟨a', hr', hm, -, hres⟩ :=
      getComputedBlocks_refines hr hs (R := Rules.any) ssd tokens args claim
    obtain ⟨hn, hle, hall⟩ := hres bs n (hfst.symm.trans hbs)
    refine ⟨hn, hle, fun i b hi => ?_⟩
    have hfound := foundUnder_of_listed hr' (hm.sound hs) (hall i b hi)
    generalize (m.getComputedBlocks P ssd tokens args claim).2 = m' at hends ⊢
    cases hends with
    | plain => exact hfound
    | flushed =>
      simp only [Manager.flushContentInvalidated]
      split
      · exact hfound
      · exact ⟨hfound.allocated, hfound.registered, hfound.hash⟩

theorem hash_map_sound_tiny :
    FoundUnder (tinyRun 2 [.getNewBlocks 2, .cacheFullBlocks [1, 2] [7, 8] 0 2 none]).pool
      ((tiny 2).hash none [7] none) 1 := by
  have hsound := hash_map_sound (P := tiny 2) (reachable_tinyRun (C := fun _ _ => True) 2
    [.getNewBlocks 2, .cacheFullBlocks [1, 2] [7, 8] 0 2 none]
    ⟨⟨trivial, trivial⟩, ⟨show ∀ b ∈ [1, 2], b ∈ _ by decide +kernel, trivial⟩, trivial⟩)
  obtain ⟨free, -, hall⟩ := hsound.1
  exact (hall _ 1 (BlockHashToBlockMap.registered_of_getBlock (by decide +kernel))).1

end FusionMlx.PoolInvariant
