import FusionMlx.Cache.EvictRefinement

/-!
# What evicting leaves to the owners of blocks

`Evicts s s' new`: no reference count and no block table changed; a block that
lost its place or its digest was unreferenced and, if it had a digest, is
among the ones queued for notification. Freeing is a decrement followed by
such a step.
-/
namespace FusionMlx.OwnedBlocks

open BlockHashing BlockPool FreeRefinement

variable {s s' s'' t : Pool} {new new' : List Nat}

structure Evicts (s s' : Pool) (new : List Nat) : Prop where
  tables : s'.requestTables = s.requestTables
  refs : ∀ b, (s'.blocks b).refCount = (s.blocks b).refCount
  null : ∀ b, (s'.blocks b).isNull = (s.blocks b).isNull
  sub : ∀ b ∈ s'.allocatedBlocks, b ∈ s.allocatedBlocks
  pending : s'.pendingContentInvalidated = s.pendingContentInvalidated ++ new
  told : ∀ b ∈ new, (s.blocks b).refCount ≤ 0
  kept : ∀ b ∈ s.allocatedBlocks,
    (b ∈ s'.allocatedBlocks ∧ (s'.blocks b).blockHash = (s.blocks b).blockHash) ∨
      ((s.blocks b).refCount ≤ 0 ∧ (b ∈ new ∨ (s.blocks b).blockHash = none))

variable {b : Nat}

namespace Evicts

theorem refl (s : Pool) : Evicts s s [] :=
  ⟨rfl, fun _ => rfl, fun _ => rfl, fun _ h => h, (List.append_nil _).symm, by simp,
    fun _ h => Or.inl ⟨h, rfl⟩⟩

theorem trans (h : Evicts s s' new) (h' : Evicts s' s'' new') : Evicts s s'' (new ++ new') := by
  refine ⟨h'.tables.trans h.tables, fun b => (h'.refs b).trans (h.refs b),
    fun b => (h'.null b).trans (h.null b), fun b hb => h.sub b (h'.sub b hb), ?_, ?_, ?_⟩
  · rw [h'.pending, h.pending, List.append_assoc]
  · intro b hb
    rcases List.mem_append.mp hb with hb | hb
    · exact h.told b hb
    · exact h.refs b ▸ h'.told b hb
  · intro b hb
    rcases h.kept b hb with ⟨hb', hk⟩ | ⟨hr, hn⟩
    · rcases h'.kept b hb' with ⟨hb'', hk'⟩ | ⟨hr, hn⟩
      · exact Or.inl ⟨hb'', hk'.trans hk⟩
      · refine Or.inr ⟨h.refs b ▸ hr, ?_⟩
        rw [hk] at hn
        exact hn.imp_left (List.mem_append_right _)
    · exact Or.inr ⟨hr, hn.imp_left (List.mem_append_left _)⟩

/-- An edit of what neither the blocks nor their owners show. -/
theorem frame (hb : s'.blocks = s.blocks) (ha : s'.allocatedBlocks = s.allocatedBlocks)
    (ht : s'.requestTables = s.requestTables)
    (hp : s'.pendingContentInvalidated = s.pendingContentInvalidated) : Evicts s s' [] := by
  refine ⟨ht, fun b => by rw [hb], fun b => by rw [hb], fun b h => ha ▸ h, ?_, by simp, ?_⟩
  · rw [hp, List.append_nil]
  · intro b h
    exact Or.inl ⟨ha.symm ▸ h, by rw [hb]⟩

theorem bump (s : Pool) (f : PagedCacheStats → PagedCacheStats) : Evicts s (s.bump f) [] :=
  frame rfl rfl rfl rfl

theorem popHash (s : Pool) (h : BlockHash) (b : Option Nat) : Evicts s (s.popHash h b) [] :=
  frame rfl rfl rfl rfl

theorem enqueue (s : Pool) (b : Nat) : Evicts s (s.enqueue b) [] := frame rfl rfl rfl rfl

theorem notify (hr : (s.blocks b).refCount ≤ 0) :
    Evicts s (s.notifyBlockContentInvalidated b) [b] :=
  ⟨rfl, fun _ => rfl, fun _ => rfl, fun _ h => h, rfl, by simpa using hr,
    fun _ h => Or.inl ⟨h, rfl⟩⟩

/-- An edit of one unreferenced block and its place, once it is queued or without a digest. -/
theorem edit (f : CacheBlock → CacheBlock) (s' : Pool)
    (hb : s'.blocks = Function.update s.blocks b (f (s.blocks b)))
    (ha : ∀ c, c ≠ b → (c ∈ s'.allocatedBlocks ↔ c ∈ s.allocatedBlocks))
    (hsub : b ∈ s'.allocatedBlocks → b ∈ s.allocatedBlocks)
    (ht : s'.requestTables = s.requestTables)
    (hp : s'.pendingContentInvalidated = s.pendingContentInvalidated ++ new)
    (hr : (s.blocks b).refCount ≤ 0) (hnew : ∀ c ∈ new, c = b)
    (hf : (f (s.blocks b)).refCount = (s.blocks b).refCount)
    (hn : (f (s.blocks b)).isNull = (s.blocks b).isNull)
    (htold : b ∈ new ∨ (s.blocks b).blockHash = none) : Evicts s s' new := by
  refine ⟨ht, fun c => ?_, fun c => ?_, fun c hc => ?_, hp, fun c hc => ?_, fun c hc => ?_⟩
  · by_cases h : c = b <;> simp [hb, h, hf]
  · by_cases h : c = b <;> simp [hb, h, hn]
  · by_cases h : c = b
    · exact h ▸ hsub (h ▸ hc)
    · exact (ha c h).mp hc
  · exact hnew c hc ▸ hr
  · by_cases h : c = b
    · exact Or.inr ⟨h ▸ hr, h ▸ htold⟩
    · exact Or.inl ⟨(ha c h).mpr hc, by simp [hb, h]⟩

end Evicts

abbrev EvictsSome (s s' : Pool) : Prop := ∃ new, Evicts s s' new

theorem EvictsSome.trans (h : EvictsSome s s') (h' : EvictsSome s' s'') : EvictsSome s s'' := by
  obtain ⟨new, h⟩ := h
  obtain ⟨new', h'⟩ := h'
  exact ⟨_, h.trans h'⟩

theorem clearOrphans_evicts (s : Pool) (work : List BlockHash) (L : List (BlockHash × Nat)) :
    EvictsSome s (Pool.clearOrphans s work L).1 := by
  induction L generalizing s work with
  | nil => exact ⟨_, .refl s⟩
  | cons o L ih =>
    obtain ⟨h, b⟩ := o
    simp only [Pool.clearOrphans]
    split
    · exact ih s work
    · next hr =>
      have hclear : Evicts (s.popHash h (some b)) (((s.popHash h (some b)).modify b
          CacheBlock.resetHash).notifyBlockContentInvalidated b) [b] :=
        Evicts.edit CacheBlock.resetHash _ rfl (fun _ _ => Iff.rfl) id rfl rfl (Int.not_lt.mp hr)
          (by simp) rfl rfl (Or.inl (by simp))
      exact EvictsSome.trans ⟨_, (Evicts.popHash s h (some b)).trans hclear⟩ (ih _ _)

theorem cascadeLoop_evicts (n : Nat) (work : List BlockHash) (s : Pool) :
    EvictsSome s (Pool.cascadeLoop n work s).2 := by
  induction n generalizing work s with
  | zero => exact ⟨_, .refl s⟩
  | succ n ih =>
    cases work with
    | nil => exact ⟨_, .refl s⟩
    | cons ph work =>
      simp only [Pool.cascadeLoop]
      exact (clearOrphans_evicts s work _).trans (ih _ _)

theorem cascade_evicts (s : Pool) (h : BlockHash) :
    EvictsSome s (s.cascadeEvictOrphansLocked h).2 := cascadeLoop_evicts 256 [h] s

/-- Giving up an unreferenced block's entry and its place. -/
theorem dropContent_evicts (hr : (s.blocks b).refCount ≤ 0) :
    EvictsSome s ((s.dropContent b).delAllocated b) := by
  have hdel : ∀ {u : Pool} {new : List Nat}, Evicts s u new →
      (b ∈ new ∨ (s.blocks b).blockHash = none) → Evicts s (u.delAllocated b) new := by
    intro u new h htold
    refine ⟨h.tables, h.refs, h.null, fun c hc => h.sub c (List.mem_filter.mp hc).1, h.pending,
      h.told, fun c hc => ?_⟩
    by_cases hcb : c = b
    · exact Or.inr ⟨hcb ▸ hr, hcb ▸ htold⟩
    · refine (h.kept c hc).imp_left (fun hk => ⟨?_, hk.2⟩)
      exact List.mem_filter.mpr ⟨hk.1, by simpa using hcb⟩
  simp only [Pool.dropContent]
  cases hk : (s.blocks b).blockHash with
  | none => exact ⟨[], hdel (.refl s) (Or.inr hk)⟩
  | some h =>
    have hpop : Evicts s ((s.popHash h (some b)).notifyBlockContentInvalidated b) [b] :=
      (Evicts.popHash s h (some b)).trans (Evicts.notify hr)
    obtain ⟨new, hc⟩ := cascade_evicts ((s.popHash h (some b)).notifyBlockContentInvalidated b) h
    exact ⟨_, hdel (hpop.trans hc) (Or.inl (by simp))⟩

theorem dropContent_allocated (s : Pool) (b : Nat) :
    (s.dropContent b).allocatedBlocks = s.allocatedBlocks := by
  simp only [Pool.dropContent]
  split
  · rfl
  · rw [cascade_allocated]
    rfl

def decrement (s : Pool) (b : Nat) : Pool := s.modify b (fun c => c.setRef (c.refCount - 1))

/-- `free_block` of an allocated block takes one reference, and what was only held by it. The null
block stays as it is. -/
theorem freeBlock_evicts (hb : b ∈ s.allocatedBlocks) :
    (s.freeBlock b).2 = s ∧ (s.blocks b).isNull = true ∨
      EvictsSome (decrement s b) (s.freeBlock b).2 := by
  simp only [Pool.freeBlock, if_pos hb, Pool.freeBlockLocked]
  by_cases hn : (s.blocks b).isNull = true
  · rw [if_pos hn]
    exact Or.inl ⟨rfl, hn⟩
  · rw [if_neg hn]
    refine Or.inr ?_
    have hin : b ∈ ((decrement s b).dropContent b).allocatedBlocks := by
      rw [dropContent_allocated]
      exact hb
    have hdrop := fun hr => dropContent_evicts (s := decrement s b) (b := b) hr
    simp only [decrement] at hin hdrop ⊢
    by_cases hr : ((s.modify b (fun c => c.setRef (c.refCount - 1))).blocks b).refCount > 0
    · rw [if_pos hr]
      exact ⟨_, .refl _⟩
    · rw [if_neg hr, if_pos hin]
      exact ((hdrop (Int.not_lt.mp hr)).trans ⟨_, Evicts.bump _ _⟩).trans ⟨_, Evicts.enqueue _ b⟩

theorem stripBlock_evicts (hr : (s.blocks b).refCount ≤ 0) :
    EvictsSome s (s.stripBlock b) := by
  have hedit : ∀ u : Pool, u.blocks = Function.update s.blocks b
        { (s.blocks b).resetHash with tokenCount := 0 } →
      (∀ c, c ≠ b → (c ∈ u.allocatedBlocks ↔ c ∈ s.allocatedBlocks)) →
      (b ∈ u.allocatedBlocks → b ∈ s.allocatedBlocks) → u.requestTables = s.requestTables →
      u.pendingContentInvalidated = s.pendingContentInvalidated ++ [b] → Evicts s u [b] :=
    fun u hb ha hsub ht hp => Evicts.edit (fun d => { d.resetHash with tokenCount := 0 }) u hb ha
      hsub ht hp hr (by simp) rfl rfl (Or.inl (by simp))
  refine ⟨[b], ?_⟩
  simp only [Pool.stripBlock]
  split
  · next hin =>
    refine hedit _ ?_ (fun c hc => ?_) (fun _ => hin) rfl rfl
    · funext c
      by_cases hc : c = b <;> simp [Pool.delAllocated, Pool.bump, Pool.modify,
        Pool.notifyBlockContentInvalidated, hc]
    · simp [Pool.delAllocated, Pool.bump, Pool.modify, Pool.notifyBlockContentInvalidated, hc]
  · refine hedit _ ?_ (fun _ _ => Iff.rfl) id rfl rfl
    funext c
    by_cases hc : c = b <;> simp [Pool.bump, Pool.modify, Pool.notifyBlockContentInvalidated, hc]

theorem evictLruOne_evicts (hr : (s.blocks b).refCount ≤ 0) :
    EvictsSome s (s.evictLruOne b) := by
  simp only [Pool.evictLruOne]
  cases (s.blocks b).blockHash with
  | none => exact (stripBlock_evicts hr).trans ⟨_, Evicts.bump _ _⟩
  | some h =>
    have hpop : EvictsSome s (s.popHash h none) := ⟨_, Evicts.popHash s h none⟩
    have hstrip := stripBlock_evicts (s := s.popHash h none) (b := b) hr
    exact ((hpop.trans hstrip).trans ⟨_, Evicts.bump _ _⟩).trans (cascade_evicts _ h)

theorem evictLruLoop_evicts (num : Int) (bs : List Nat) (e : Int) (s : Pool) :
    EvictsSome s (Pool.evictLruLoop num bs e s).2 := by
  induction bs generalizing e s with
  | nil => exact ⟨_, .refl s⟩
  | cons b bs ih =>
    simp only [Pool.evictLruLoop]
    split
    · exact ⟨_, .refl s⟩
    · split
      · exact ih e s
      · next hc =>
        push Not at hc
        exact (evictLruOne_evicts hc.1).trans (ih _ _)

theorem reclaimOne_evicts (hr : (s.blocks b).refCount ≤ 0) :
    EvictsSome s (s.reclaimOne b) := by
  have htail : ∀ {u : Pool}, EvictsSome s u → (u.blocks b).refCount ≤ 0 →
      EvictsSome s ((((u.stripBlock b).bump (fun t => { t with freeBlocks := t.freeBlocks + 1 })).enqueue
        b).bump (fun t => { t with evictions := t.evictions + 1 })) := by
    intro u hu hru
    exact (((hu.trans (stripBlock_evicts hru)).trans ⟨_, Evicts.bump _ _⟩).trans
      ⟨_, Evicts.enqueue _ b⟩).trans ⟨_, Evicts.bump _ _⟩
  simp only [Pool.reclaimOne]
  cases (s.blocks b).blockHash with
  | none => exact htail ⟨_, .refl s⟩ hr
  | some h => exact htail ⟨_, Evicts.popHash s h (some b)⟩ hr

theorem evictCachedLoop_evicts (num : Int) (bs : List Nat) (e : Int) (s : Pool)
    (hr : ∀ b ∈ bs, (s.blocks b).refCount ≤ 0) :
    EvictsSome s (Pool.evictCachedLoop num bs e s).2 := by
  induction bs generalizing e s with
  | nil => exact ⟨_, .refl s⟩
  | cons b bs ih =>
    have hrest : ∀ {u : Pool}, EvictsSome s u → ∀ c ∈ bs, (u.blocks c).refCount ≤ 0 := by
      rintro u ⟨new, hu⟩ c hc
      rw [hu.refs]
      exact hr c (by simp [hc])
    have hone := reclaimOne_evicts (hr b (by simp))
    simp only [Pool.evictCachedLoop]
    split
    · exact ⟨_, .refl s⟩
    · cases (s.blocks b).blockHash with
      | none => exact hone.trans (ih _ _ (hrest hone))
      | some h =>
        have hboth := hone.trans (cascade_evicts (s.reclaimOne b) h)
        exact hboth.trans (ih _ _ (hrest hboth))

theorem evictionCandidates_idle (s : Pool) : ∀ b ∈ s.evictionCandidates, (s.blocks b).refCount ≤ 0 := by
  intro b hb
  rw [Pool.evictionCandidates, List.mem_insertionSort, List.mem_filter, decide_eq_true_eq] at hb
  exact hb.2.1

theorem evictCachedBlocksLocked_evicts (s : Pool) (num : Int) :
    EvictsSome s (s.evictCachedBlocksLocked num).2 := by
  simp only [Pool.evictCachedBlocksLocked]
  split
  · exact ⟨_, .refl s⟩
  · exact evictCachedLoop_evicts num _ 0 s (evictionCandidates_idle s)

theorem handleMemoryPressure_evicts (s : Pool) (n : Int) :
    EvictsSome s (s.handleMemoryPressure n).2 := by
  simp only [Pool.handleMemoryPressure]
  split
  · exact ⟨_, .refl s⟩
  · have hlru := evictLruLoop_evicts (n - s.freeBlockQueue.numFreeBlocks) s.queueIds 0 s
    dsimp only
    split
    · exact hlru.trans (evictCachedBlocksLocked_evicts _ _)
    · exact hlru

end FusionMlx.OwnedBlocks
