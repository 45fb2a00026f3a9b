import FusionMlx.Cache.OwnedBlocks
import FusionMlx.Cache.PoolAccounting

/-!
# Which blocks a free or an eviction takes

Besides the blocks it frees, a step tells only of blocks that name a parent:
the cascade behind a freed block goes to blocks chained to it.
-/
namespace FusionMlx.TakenBlocks

open BlockHashing BlockPool ResourceLedger PoolRefinement EvictRefinement OwnedBlocks
open PoolAccounting (reclaimable reclaimable_of_evicted)

variable {κ : Type} {P : Params κ} {s s' t : Pool} {a : Ledger Nat BlockHash} {F G : Nat → Prop}
variable {b : Nat} {bs : List Nat}

/-- From `s` to `s'` only blocks of `F` and blocks that name a parent were queued for notification,
and no block got a parent. -/
structure TakesOnly (F : Nat → Prop) (s s' : Pool) : Prop where
  told : ∃ new, s'.pendingContentInvalidated = s.pendingContentInvalidated ++ new ∧
    ∀ x ∈ new, F x ∨ (s.blocks x).parentHash ≠ none
  parents : ∀ x, (s'.blocks x).parentHash ≠ none → (s.blocks x).parentHash ≠ none

namespace TakesOnly

theorem refl (s : Pool) : TakesOnly F s s :=
  ⟨⟨[], (List.append_nil _).symm, by simp⟩, fun _ hx => hx⟩

/-- An edit that queues nothing and gives no block a parent. -/
theorem edit (h : TakesOnly F s s')
    (hb : ∀ x, (t.blocks x).parentHash ≠ none → (s'.blocks x).parentHash ≠ none)
    (hp : t.pendingContentInvalidated = s'.pendingContentInvalidated) : TakesOnly F s t := by
  obtain ⟨⟨new, hpend, hnew⟩, hparents⟩ := h
  exact ⟨⟨new, hp.trans hpend, hnew⟩, fun x hx => hparents x (hb x hx)⟩

theorem popHash (h : TakesOnly F s s') (k : BlockHash) (b : Option Nat) :
    TakesOnly F s (s'.popHash k b) := h.edit (fun _ hx => hx) rfl

/-- Queueing a block of `F` or one that names a parent. -/
theorem notify (h : TakesOnly F s s') (hb : F b ∨ (s.blocks b).parentHash ≠ none) :
    TakesOnly F s (s'.notifyBlockContentInvalidated b) := by
  obtain ⟨⟨new, hp, hnew⟩, hparents⟩ := h
  refine ⟨⟨new ++ [b], ?_, fun x hx => ?_⟩, hparents⟩
  · show s'.pendingContentInvalidated ++ [b] = _
    rw [hp, List.append_assoc]
  · cases List.mem_append.mp hx with
    | inl hx => exact hnew x hx
    | inr hx => exact List.mem_singleton.mp hx ▸ hb

theorem modify (h : TakesOnly F s s') (f : CacheBlock → CacheBlock)
    (hf : (f (s'.blocks b)).parentHash ≠ none → (s'.blocks b).parentHash ≠ none) :
    TakesOnly F s (s'.modify b f) := by
  refine h.edit (fun x hx => ?_) rfl
  by_cases hxb : x = b
  · subst hxb
    simp only [Pool.modify, Function.update_self] at hx
    exact hf hx
  · simpa only [Pool.modify, Function.update_of_ne hxb] using hx

theorem clearOrphans (h : TakesOnly F s s') (work : List BlockHash) {L : List (BlockHash × Nat)}
    (hL : ∀ e ∈ L, (s.blocks e.2).parentHash ≠ none) :
    TakesOnly F s (Pool.clearOrphans s' work L).1 := by
  induction L generalizing s' work with
  | nil => exact h
  | cons e L ih =>
    obtain ⟨k, b⟩ := e
    simp only [Pool.clearOrphans]
    have hrest : ∀ e ∈ L, (s.blocks e.2).parentHash ≠ none :=
      fun e he => hL e (List.mem_cons_of_mem _ he)
    split
    · exact ih h work hrest
    · refine ih ?_ _ hrest
      refine ((h.popHash k (some b)).modify CacheBlock.resetHash fun hx => ?_).notify
        (.inr (hL (k, b) List.mem_cons_self))
      exact absurd rfl hx

theorem cascadeLoop (h : TakesOnly F s s') (n : Nat) (work : List BlockHash) :
    TakesOnly F s (Pool.cascadeLoop n work s').2 := by
  induction n generalizing s' work with
  | zero => exact h
  | succ n ih =>
    cases work with
    | nil => exact h
    | cons ph work =>
      simp only [Pool.cascadeLoop]
      refine ih (h.clearOrphans work fun e he => h.parents e.2 ?_) _
      have hp := ((FreeRefinement.mem_orphansOf s' ph e.1 e.2).mp he).2.1
      rw [hp]
      exact Option.some_ne_none ph

theorem cascade (h : TakesOnly F s s') (k : BlockHash) :
    TakesOnly F s (s'.cascadeEvictOrphansLocked k).2 := h.cascadeLoop 256 [k]

theorem dropContent (h : TakesOnly F s s') (hb : F b) : TakesOnly F s (s'.dropContent b) := by
  simp only [Pool.dropContent]
  split
  · exact h
  · next k _ => exact ((h.popHash k (some b)).notify (.inl hb)).cascade k

theorem bump (h : TakesOnly F s s') (f : PagedCacheStats → PagedCacheStats) :
    TakesOnly F s (s'.bump f) := h.edit (fun _ hx => hx) rfl

theorem enqueue (h : TakesOnly F s s') (b : Nat) : TakesOnly F s (s'.enqueue b) :=
  h.edit (fun _ hx => hx) rfl

theorem stripBlock (h : TakesOnly F s s') (hb : F b) : TakesOnly F s (s'.stripBlock b) := by
  have hreset : TakesOnly F s ((((s'.bump fun t => { t with
      totalTokensCached := t.totalTokensCached - (s'.blocks b).tokenCount }).modify b
        CacheBlock.resetHash).notifyBlockContentInvalidated b).modify b
          fun c => { c with tokenCount := 0 }) :=
    (((h.bump _).modify CacheBlock.resetHash fun hx => absurd rfl hx).notify (.inl hb)).modify _
      fun hx => hx
  simp only [Pool.stripBlock]
  split
  · exact hreset.edit (fun _ hx => hx) rfl
  · exact hreset

theorem evictLruOne (h : TakesOnly F s s') (hb : F b) : TakesOnly F s (s'.evictLruOne b) := by
  simp only [Pool.evictLruOne]
  cases (s'.blocks b).blockHash with
  | none => exact (h.stripBlock hb).bump _
  | some k => exact (((h.popHash k none).stripBlock hb).bump _).cascade k

theorem evictLruLoop (h : TakesOnly F s s') (num e : Int) (hb : ∀ b ∈ bs, F b) :
    TakesOnly F s (Pool.evictLruLoop num bs e s').2 := by
  induction bs generalizing e s' with
  | nil => exact h
  | cons b bs ih =>
    have hrest : ∀ b ∈ bs, F b := fun x hx => hb x (List.mem_cons_of_mem _ hx)
    simp only [Pool.evictLruLoop]
    split
    · exact h
    · split
      · exact ih h e hrest
      · exact ih (h.evictLruOne (hb b List.mem_cons_self)) _ hrest

theorem reclaimOne (h : TakesOnly F s s') (hb : F b) : TakesOnly F s (s'.reclaimOne b) := by
  simp only [Pool.reclaimOne]
  cases (s'.blocks b).blockHash with
  | none => exact (((h.stripBlock hb).bump _).enqueue b).bump _
  | some k => exact ((((h.popHash k (some b)).stripBlock hb).bump _).enqueue b).bump _

/-- The loop reclaims no more blocks than it has to: those the cascade takes count as well. -/
theorem evictCachedLoop (h : TakesOnly F s s') (num e : Int)
    (hb : ∀ b ∈ bs.take (num - e).toNat, F b) :
    TakesOnly F s (Pool.evictCachedLoop num bs e s').2 := by
  induction bs generalizing e s' with
  | nil => exact h
  | cons b bs ih =>
    simp only [Pool.evictCachedLoop]
    split
    · exact h
    · next hlt =>
      obtain ⟨n, hn⟩ : ∃ n, (num - e).toNat = n + 1 := ⟨(num - e).toNat - 1, by omega⟩
      rw [hn, List.take_succ_cons] at hb
      have hone := h.reclaimOne (hb b List.mem_cons_self)
      have hrest : ∀ e' : Int, e + 1 ≤ e' → ∀ x ∈ bs.take (num - e').toNat, F x := by
        intro e' he x hx
        refine hb x (List.mem_cons_of_mem _ ?_)
        exact List.take_subset_take_left bs (by omega) hx
      cases (s'.blocks b).blockHash with
      | none => exact ih hone _ (hrest _ le_rfl)
      | some k => exact ih (hone.cascade k) _ (hrest _ (by omega))

end TakesOnly

/-- `free_block` frees its own block. -/
theorem freeBlock_takes (s : Pool) (b : Nat) : TakesOnly (· = b) s (s.freeBlock b).2 := by
  have hdec : TakesOnly (· = b) s (s.modify b (fun c => c.setRef (c.refCount - 1))) :=
    (TakesOnly.refl s).modify _ fun hx => hx
  have hdrop := hdec.dropContent rfl
  simp only [Pool.freeBlock, Pool.freeBlockLocked]
  by_cases hb : b ∈ s.allocatedBlocks
  · rw [if_pos hb]
    by_cases hn : (s.blocks b).isNull = true
    · rw [if_pos hn]
      exact .refl s
    · rw [if_neg hn]
      by_cases hr : ((s.modify b (fun c => c.setRef (c.refCount - 1))).blocks b).refCount > 0
      · rw [if_pos hr]
        exact hdec
      · have hin : b ∈ ((s.modify b (fun c => c.setRef (c.refCount - 1))).dropContent
            b).allocatedBlocks := by
          rw [dropContent_allocated]
          exact hb
        rw [if_neg hr, if_pos hin]
        exact hdrop.edit (fun _ hx => hx) rfl
  · rw [if_neg hb]
    exact .refl s

/-- Memory pressure takes free blocks and the idle ones it reclaims. -/
theorem handleMemoryPressure_takes (h : Refines P s a) (hs : a.Sound 0) (n : Int) :
    TakesOnly (fun b => b ∉ s.allocatedBlocks ∨ b ∈ reclaimable s n) s
      (s.handleMemoryPressure n).2 := by
  unfold Pool.handleMemoryPressure
  split
  · exact .refl s
  · have hlru : TakesOnly (fun b => b ∉ s.allocatedBlocks ∨ b ∈ reclaimable s n) s
        (s.evictLruBlocksLocked (n - s.freeBlockQueue.numFreeBlocks)).2 := by
      refine (TakesOnly.refl s).evictLruLoop _ 0 fun b hb => .inl fun hm => ?_
      rw [queueIds_eq h hs] at hb
      exact hs.freeHeld b hb ((h.held b).mpr hm)
    obtain ⟨a₁, h₁, -, hf⟩ := evictLruBlocksLocked_refines h hs (R := Rules.any) trivial
      (n - s.freeBlockQueue.numFreeBlocks) (fun _ _ _ _ => .inl trivial)
    have hnum : (s.evictLruBlocksLocked (n - s.freeBlockQueue.numFreeBlocks)).2.freeBlockQueue.numFreeBlocks =
        s.freeBlockQueue.numFreeBlocks := by
      rw [h₁.numFree, h.numFree, hf.free]
    have hreclaim := fun b => reclaimable_of_evicted (b := b) h hs (n := n)
    generalize (s.evictLruBlocksLocked (n - s.freeBlockQueue.numFreeBlocks)).2 = t
      at hlru hnum hreclaim
    dsimp only
    split
    · unfold Pool.evictCachedBlocksLocked
      rw [hnum]
      split
      · exact hlru
      · refine hlru.evictCachedLoop _ 0 fun b hb => .inr (hreclaim b ?_)
        rwa [Int.sub_zero] at hb
    · exact hlru

end FusionMlx.TakenBlocks
