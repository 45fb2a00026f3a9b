import FusionMlx.Cache.PoolInvariant

/-!
# Reclaiming idle blocks

Only blocks that still have a hash are reclaimed under memory pressure, and the
cascade resets the hashes of unreferenced children of an evicted block. As long
as no call orphans such a child or releases a block without a hash, every idle
block keeps its hash and memory pressure can have it.
-/
namespace FusionMlx.EvictableBlocks

open BlockHashing BlockPool ResourceLedger PoolRefinement
open FreeRefinement EvictRefinement ReclaimOrder CopyRefinement PagedCacheManager ManagerRuns

variable {κ : Type} {P : Params κ} {m : Manager} {a a' : Ledger Nat BlockHash}

def hasOrphans (s : Pool) (b : Nat) : Bool :=
  (s.blocks b).blockHash.any (fun k => !(s.orphansOf k).isEmpty)

/-- Taking `n` references away frees `b` and orphans an idle block. -/
def FreesParent (s : Pool) (b n : Nat) : Prop :=
  b ∈ s.allocatedBlocks ∧ b ≠ 0 ∧ (s.blocks b).refCount ≤ n ∧ hasOrphans s b = true

/-- `release_for_eviction` takes the last reference of a block without a hash. -/
def ReleasesBare (s : Pool) (bs : List Nat) (b : Nat) : Prop :=
  b ∈ s.allocatedBlocks ∧ b ≠ 0 ∧ 0 < (s.blocks b).refCount ∧
    (s.blocks b).refCount ≤ bs.count b ∧ (s.blocks b).blockHash = none

/-- The call can leave an idle block without a hash, or counts a cleared orphan
as a freed block. -/
def Strands (P : Params κ) (m : Manager) : Op κ → Prop
  | .freeBlock b => FreesParent m.pool b 1
  | .freeBlocksBatch bs => ∃ b ∈ bs, FreesParent m.pool b 1
  | .deleteBlockTable r => ∃ t, m.pool.requestTables.get? r = some t ∧
      ∃ b ∈ t.blockIds, FreesParent m.pool b (t.blockIds.count b)
  | .releaseForEviction bs => ∃ b ∈ bs, ReleasesBare m.pool bs b
  | .getBlocksForGeneration r => ∃ t, m.pool.readTable r = some t ∧
      ¬ Copyable P m.pool t.blockIds
  | .evictLruBlocks n => ∃ b ∈ m.pool.queueIds.take n.toNat, hasOrphans m.pool b = true
  | .handleMemoryPressure n =>
    (∃ b ∈ m.pool.queueIds.take (n - m.pool.freeBlockQueue.numFreeBlocks).toNat,
      hasOrphans m.pool b = true) ∨
    ¬ OrderlyIds m.pool (m.pool.evictionCandidates.take
      (n - m.pool.freeBlockQueue.numFreeBlocks).toNat)
  | _ => False

def keptRules : Rules BlockHash := ⟨(· ≠ none), fun _ => True, False, True, trivial⟩

theorem steady_kept : Steady keptRules (Ledger.Kept (ν := Nat) 0) where
  moves := fun _ _ hs hm hk => hm.kept (fun _ => id) id hs hk
  flush := fun _ hk => hk
  fresh := fun _ _ _ hb hne => absurd hb hne
  reset := fun _ _ hroot _ b hb hne => absurd (hroot b hb) hne

theorem noOrphans_of_not_hasOrphans {s : Pool} (h : Refines P s a) {b : Nat}
    (hno : ¬ hasOrphans s b = true) {k : BlockHash} (hk : a.key b = some k) : a.NoOrphans k := by
  have hkey : (s.blocks b).blockHash = some k := (h.key b).trans hk
  refine noOrphans_of_eq_nil h ?_
  simpa [hasOrphans, hkey] using hno

theorem mayFree_kept (h : Stands P m a) {b n : Nat} (hb : b ∈ a.held) (hne : b ≠ 0)
    (hle : a.refs b ≤ n) (hno : ¬ FreesParent m.pool b n) : MayFree keptRules a b := by
  refine ⟨trivial, fun _ => trivial, fun k hk => Or.inr ?_⟩
  refine noOrphans_of_not_hasOrphans h.refines (fun hor => hno ?_) hk
  exact ⟨(h.refines.held b).mp hb, hne, h.refines.refs b ▸ hle, hor⟩

theorem allowed_lru (h : Stands P m a) {n : Nat}
    (hno : ¬ ∃ b ∈ m.pool.queueIds.take n, hasOrphans m.pool b = true) :
    ∀ b ∈ a.free.take n, ∀ k, a.key b = some k → a.NoOrphans k := by
  rw [queueIds_eq h.refines h.sound] at hno
  intro b hb k hk
  exact noOrphans_of_not_hasOrphans h.refines (fun hor => hno ⟨b, hb, hor⟩) hk

theorem pressure_lru (h : Stands P m a) {n : Int}
    (hno : ¬ Strands P m (.handleMemoryPressure n)) :
    ∀ b ∈ a.free.take (n - a.free.length).toNat, ∀ k, a.key b = some k → a.NoOrphans k := by
  rw [← h.refines.numFree]
  exact allowed_lru h (fun hex => hno (Or.inl hex))

/-- The second stage finds the candidates of the first, in an orderly state. -/
theorem pressure_orderly (h : Stands P m a) {n : Int}
    (hno : ¬ Strands P m (.handleMemoryPressure n)) {a₁ : Ledger Nat BlockHash}
    (hf : Ledger.Faded a a₁) :
    (m.pool.evictLruBlocksLocked (n - a.free.length)).2.evictionCandidates =
        m.pool.evictionCandidates ∧
      a₁.Orderly (m.pool.evictionCandidates.take (n - a.free.length).toNat) := by
  have hord : OrderlyIds m.pool (m.pool.evictionCandidates.take
      (n - m.pool.freeBlockQueue.numFreeBlocks).toNat) := by
    by_contra ho
    exact hno (Or.inr ho)
  rw [h.refines.numFree, orderlyIds_iff h.refines] at hord
  exact ⟨(evictLruBlocksLocked_unthinned h.refines h.sound _ (pressure_lru h hno)).candidates_eq,
    orderly_faded hf hord⟩

theorem allowed_kept (h : Stands P m a) {op : Op κ} (hwf : op.WellFormed m)
    (hno : ¬ Strands P m op) : Allowed keptRules P m a op := by
  cases op with
  | freeBlock b => exact fun hb hne hle => mayFree_kept h hb hne hle hno
  | freeBlocksBatch bs =>
    intro b hb hne hle
    exact mayFree_kept h ((h.refines.held b).mpr (hwf.2 b hb)) hne hle (fun hp => hno ⟨b, hb, hp⟩)
  | deleteBlockTable r =>
    intro t ht b hb hheld hne hle
    exact mayFree_kept h hheld hne hle (fun hp => hno ⟨t, ht, b, hb, hp⟩)
  | releaseForEviction bs =>
    intro b hb hheld hne hpos hle hk
    rw [← h.refines.refs] at hpos hle
    exact hno ⟨b, hb, (h.refines.held b).mp hheld, hne, hpos, hle, (h.refines.key b).trans hk⟩
  | getBlocksForGeneration r =>
    refine ⟨trivial, Or.inr (fun t ht => ?_)⟩
    by_contra hc
    exact hno ⟨t, ht, hc⟩
  | evictLruBlocks n => exact ⟨trivial, fun b hb k hk => Or.inr (allowed_lru h hno b hb k hk)⟩
  | handleMemoryPressure n =>
    refine ⟨trivial, fun b hb k hk => Or.inr (pressure_lru h hno b hb k hk), fun a₁ _ hf => ?_⟩
    obtain ⟨hcands, hord⟩ := pressure_orderly h hno hf
    exact Or.inr (hcands ▸ hord)
  | evictBlockPermanently b => exact trivial
  | evict key => exact trivial
  | _ => exact trivial

theorem reachable_kept (h : Reachable P (fun m op => ¬ Strands P m op) m) :
    ∃ a, Stands P m a ∧ a.Kept 0 :=
  reachable_stands steady_kept (fun _ _ _ hst _ hwf hno => allowed_kept hst hwf hno) h

theorem orderlyIds_of_not_hasOrphans {s : Pool} {bs : List Nat}
    (h : ∀ b ∈ bs, ¬ hasOrphans s b = true) : OrderlyIds s bs := by
  rintro l b r rfl k hk e he
  have hnil : s.orphansOf k = [] := by simpa [hasOrphans, hk] using h b (by simp)
  rw [hnil] at he
  cases he

def releasedIds (s : Pool) : List Nat :=
  s.allocatedBlocks.filter (fun b => (s.blocks b).refCount ≤ 0 ∧ ¬ (s.blocks b).isNull)

theorem candidates_length (h : Stands P m a) (hk : a.Kept 0) :
    m.pool.evictionCandidates.length = (releasedIds m.pool).length := by
  rw [evictionCandidates_eq, List.length_insertionSort, idleIds, releasedIds]
  congr 1
  refine List.filter_congr (fun b hb => ?_)
  rw [decide_eq_decide, h.refines.refs, h.refines.null, h.refines.key]
  refine ⟨fun hc => ⟨hc.1, hc.2.1⟩, fun hc => ⟨hc.1, hc.2, ?_⟩⟩
  exact hk b ((h.refines.held b).mpr hb) hc.2 hc.1

/-- As long as no call strands an idle block, memory pressure frees as many
blocks as are free or idle, if it strands none itself. -/
theorem memory_pressure_reclaims (h : Reachable P (fun m op => ¬ Strands P m op) m) (n : Int)
    (hno : ¬ Strands P m (.handleMemoryPressure n))
    (hn : n ≤ m.pool.freeBlockQueue.numFreeBlocks + (releasedIds m.pool).length) :
    (m.handleMemoryPressure n).1 = true ∧
      n ≤ (m.handleMemoryPressure n).2.pool.freeBlockQueue.numFreeBlocks := by
  obtain ⟨a, hst, hk⟩ := reachable_kept h
  have hbody : (m.pool.handleMemoryPressure n).1 = true ∧
      n ≤ (m.pool.handleMemoryPressure n).2.freeBlockQueue.numFreeBlocks := by
    by_cases hge : m.pool.freeBlockQueue.numFreeBlocks ≥ n
    · simp only [Pool.handleMemoryPressure, if_pos hge]
      exact ⟨trivial, hge⟩
    · obtain ⟨a', hr', -, -, hans, hfree⟩ := handleMemoryPressure_refines (R := keptRules)
        hst.refines hst.sound trivial n
        (fun b hb k hk => Or.inr (pressure_lru hst hno b hb k hk))
        (fun a₁ _ hf => by
          obtain ⟨hcands, hord⟩ := pressure_orderly hst hno hf
          exact Or.inr (hcands ▸ hord))
      rw [hr'.numFree, hans, and_self]
      have hnum := hst.refines.numFree
      rcases hfree with hle | ⟨a₁, -, hf, htake⟩
      · omega
      · obtain ⟨hcands, hord⟩ := pressure_orderly hst hno hf
        rw [hcands] at htake
        rw [htake hord, List.length_append, List.length_take, candidates_length hst hk]
        omega
  have hflush : ∀ m' : Manager, m'.flushContentInvalidated.pool.freeBlockQueue =
      m'.pool.freeBlockQueue := by
    intro m'
    simp only [Manager.flushContentInvalidated]
    split <;> rfl
  simp only [Manager.handleMemoryPressure, locked_eq, hflush]
  exact hbody

def releaseApart : List (Op Int) :=
  [.getNewBlocks 2, .cacheFullBlocks [1] [7] 0 1 none, .cacheFullBlocks [2] [9] 0 1 none,
    .releaseForEviction [1, 2]]

theorem memory_pressure_reclaims_apart :
    ((tinyRun 2 releaseApart).handleMemoryPressure 2).1 = true := by
  have hrun := reachable_tinyRun (C := fun m op => ¬ Strands (tiny 2) m op) 2 releaseApart
    ⟨⟨trivial, id⟩, ⟨show ∀ b ∈ [1], b ∈ _ by decide +kernel, id⟩,
      ⟨show ∀ b ∈ [2], b ∈ _ by decide +kernel, id⟩,
      ⟨trivial, show ¬ ∃ b ∈ [1, 2], b ∈ _ ∧ b ≠ 0 ∧ 0 < _ ∧ _ ≤ (_ : Int) ∧ _ = none by
        decide +kernel⟩, trivial⟩
  refine (memory_pressure_reclaims hrun 2 ?_ (by decide +kernel)).1
  have hqueue : (tinyRun 2 releaseApart).pool.queueIds = [] := by decide +kernel
  have hcands : (tinyRun 2 releaseApart).pool.evictionCandidates = [1, 2] := by decide +kernel
  have hnone : ∀ b ∈ [1, 2], ¬ hasOrphans (tinyRun 2 releaseApart).pool b = true := by
    decide +kernel
  rintro (⟨b, hb, -⟩ | ho)
  · rw [hqueue, List.take_nil] at hb
    cases hb
  · refine ho (orderlyIds_of_not_hasOrphans (fun b hb => hnone b ?_))
    exact hcands ▸ List.mem_of_mem_take hb

def releaseChain : List (Op Int) :=
  [.getNewBlocks 2, .cacheFullBlocks [1, 2] [7, 8] 0 2 none, .releaseForEviction [1, 2]]

/-- Evicting the parent clears the hash of its idle child and counts that as a
second freed block; the child is then out of reach. -/
theorem memory_pressure_strands_child :
    Reachable (tiny 2) (fun _ _ => True) (tinyRun 2 releaseChain) ∧
    (releasedIds (tinyRun 2 releaseChain).pool).length = 2 ∧
    ((tinyRun 2 releaseChain).handleMemoryPressure 2).1 = false ∧
    ((tinyRun 2 releaseChain).handleMemoryPressure 2).2.pool.freeBlockQueue.numFreeBlocks = 1 ∧
    (((tinyRun 2 releaseChain).handleMemoryPressure 2).2.handleMemoryPressure 2).1 = false := by
  refine ⟨reachable_tinyRun 2 releaseChain ?_, by decide +kernel, by decide +kernel,
    by decide +kernel, by decide +kernel⟩
  exact ⟨⟨trivial, trivial⟩, ⟨show ∀ b ∈ [1, 2], b ∈ _ by decide +kernel, trivial⟩,
    ⟨trivial, trivial⟩, trivial⟩

end FusionMlx.EvictableBlocks
