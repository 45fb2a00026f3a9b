import FusionMlx.Cache.PoolAccounting
import FusionMlx.Cache.PoolInvariant

/-!
# The counters over every run

The calls that take nothing out of the total, and with those that do the
counters in every reachable state.
-/
namespace FusionMlx.CounterRuns

open BlockHashing BlockHashMap FreeBlockQueue BlockPool ResourceLedger PoolRefinement
open FreeRefinement LookupRefinement CopyRefinement PagedCacheManager ManagerRuns
open PoolAccounting PoolInvariant Runs

variable {κ : Type} {P : Params κ}
variable {s s' t : Pool} {a a' : Ledger Nat BlockHash}

variable {W : Nat → Prop}

/-- The counters stay right, the total of tokens is untouched, and no token count outside `W` is
raised. -/
structure Kept (W : Nat → Prop) (s s' : Pool) : Prop where
  balanced : Balanced s 0 → Balanced s' 0
  total : s'.stats.totalTokensCached = s.stats.totalTokensCached
  tokens : ∀ b, ¬ W b → (s'.blocks b).tokenCount ≤ (s.blocks b).tokenCount

namespace Kept

theorem refl (s : Pool) : Kept W s s := ⟨id, rfl, fun _ _ => le_rfl⟩

theorem trans (h : Kept W s s') (h' : Kept W s' t) : Kept W s t :=
  ⟨fun hb => h'.balanced (h.balanced hb), h'.total.trans h.total,
    fun b hb => (h'.tokens b hb).trans (h.tokens b hb)⟩

theorem of_quiet (h : Quiet s s') : Kept W s s' :=
  ⟨fun hb => h.balanced hb, h.total, fun b _ => (h.tokens b).le⟩

/-- Writing the token count of a block in `W`. -/
theorem modify {b : Nat} (hb : W b) (f : CacheBlock → CacheBlock) : Kept W s (s.modify b f) := by
  refine ⟨fun h => ⟨h.allocated, h.free⟩, rfl, fun c hc => ?_⟩
  have hcb : c ≠ b := fun hcb => hc (hcb ▸ hb)
  simp [Pool.modify, hcb]

end Kept

theorem growBlocks_kept (s : Pool) (n : Nat) : Kept W s (s.growBlocks P n).2 := by
  unfold Pool.growBlocks
  dsimp only
  split
  · exact .refl s
  · refine ⟨fun hb => ⟨hb.allocated, by simp⟩, rfl, fun b _ => ?_⟩
    dsimp only
    split
    · exact Nat.zero_le _
    · exact le_rfl

theorem maybeEvictCachedBlock_quiet (s : Pool) (b : Nat) : Quiet s (s.maybeEvictCachedBlock b) := by
  unfold Pool.maybeEvictCachedBlock
  cases (s.blocks b).blockHash with
  | none => exact .refl s
  | some k =>
    simp only [BlockHashToBlockMap.pop_none_snd]
    exact .popHash s k none

variable {b : Nat}

theorem addAllocated_new (hb : b ∉ s.allocatedBlocks) :
    (s.addAllocated b).allocatedBlocks = s.allocatedBlocks ++ [b] := by
  unfold Pool.addAllocated
  exact if_neg hb

/-- A block moved from the queue to the allocated ones, and counted. -/
theorem kept_addAllocated (hb : b ∉ s.allocatedBlocks)
    (hall : t.allocatedBlocks = s.allocatedBlocks)
    (hcount : t.stats.allocatedBlocks = s.stats.allocatedBlocks + 1)
    (hfree : t.stats.freeBlocks = s.stats.freeBlocks - 1)
    (hqueue : t.freeBlockQueue.numFreeBlocks = s.freeBlockQueue.numFreeBlocks - 1)
    (htotal : t.stats.totalTokensCached = s.stats.totalTokensCached)
    (htok : ∀ c, (t.blocks c).tokenCount = (s.blocks c).tokenCount) : Kept W s (t.addAllocated b) := by
  refine ⟨?_, htotal, fun c _ => (htok c).le⟩
  · intro hbal
    constructor
    · have hlen : (t.addAllocated b).allocatedBlocks.length = s.allocatedBlocks.length + 1 := by
        rw [addAllocated_new (hall ▸ hb), hall, List.length_append, List.length_singleton]
      have := hbal.allocated
      rw [hlen]
      exact hcount.trans (by omega)
    · have := hbal.free
      exact hfree.trans (by simp only [Pool.addAllocated]; omega)

/-- Claiming a block only adds it to the allocated ones. -/
theorem claimPopped_books (P : Params κ) (hb : b ∉ s.allocatedBlocks) :
    ∃ t, Quiet s t ∧ Pool.claimPopped P s b = t.addAllocated b ∧
      (Pool.claimPopped P s b).allocatedBlocks = s.allocatedBlocks ++ [b] := by
  have hevict : Quiet s (if P.enableCaching then s.maybeEvictCachedBlock b else s) := by
    split
    · exact maybeEvictCachedBlock_quiet s b
    · exact .refl s
  have hset : ∀ t : Pool, Quiet t (t.modify b (fun c => c.setRef 1)) := fun t => .modify t b rfl
  have hbooks := (hevict.trans (hset _)).trans (.touchBlock P _ b)
  refine ⟨_, hbooks, rfl, ?_⟩
  have hnot := hb
  rw [← hbooks.allocated] at hnot
  exact (addAllocated_new hnot).trans (congrArg (· ++ [b]) hbooks.allocated)

/-- Claiming distinct new blocks one after the other. -/
theorem claimAll_books (P : Params κ) {bs : List Nat} (hbs : bs.Nodup)
    (hb : ∀ b ∈ bs, b ∉ s.allocatedBlocks) :
    (bs.foldl (Pool.claimPopped P) s).allocatedBlocks = s.allocatedBlocks ++ bs ∧
      (bs.foldl (Pool.claimPopped P) s).freeBlockQueue = s.freeBlockQueue ∧
      (bs.foldl (Pool.claimPopped P) s).stats.allocatedBlocks = s.stats.allocatedBlocks ∧
      (bs.foldl (Pool.claimPopped P) s).stats.freeBlocks = s.stats.freeBlocks ∧
      (bs.foldl (Pool.claimPopped P) s).stats.totalTokensCached = s.stats.totalTokensCached ∧
      ∀ c, ((bs.foldl (Pool.claimPopped P) s).blocks c).tokenCount = (s.blocks c).tokenCount := by
  induction bs generalizing s with
  | nil => simp
  | cons b bs ih =>
    obtain ⟨hnot, hbs'⟩ := List.nodup_cons.mp hbs
    obtain ⟨t, ht, heq, hall⟩ := claimPopped_books P (hb b (by simp))
    have hb' : ∀ c ∈ bs, c ∉ (Pool.claimPopped P s b).allocatedBlocks := by
      intro c hc hm
      rw [hall, List.mem_append, List.mem_singleton] at hm
      rcases hm with hm | rfl
      · exact hb c (by simp [hc]) hm
      · exact hnot hc
    obtain ⟨h₁, h₂, h₃, h₄, h₅, h₆⟩ := ih hbs' hb'
    rw [List.foldl_cons]
    refine ⟨?_, ?_, ?_, ?_, ?_, fun c => ?_⟩
    · rw [h₁, hall, List.append_assoc, List.singleton_append]
    · rw [h₂, heq]
      exact ht.queue
    · rw [h₃, heq]
      exact ht.allocatedCount
    · rw [h₄, heq]
      exact ht.freeCount
    · rw [h₅, heq]
      exact ht.total
    · rw [h₆, heq]
      exact ht.tokens c

/-- Taking blocks off the queue, claiming them and counting them. -/
theorem kept_claimAll (P : Params κ) {bs : List Nat} {q : FreeKVCacheBlockQueue} (hbs : bs.Nodup)
    (hb : ∀ b ∈ bs, b ∉ s.allocatedBlocks)
    (hq : q.numFreeBlocks = s.freeBlockQueue.numFreeBlocks - bs.length) :
    Kept W s ((bs.foldl (Pool.claimPopped P) { s with freeBlockQueue := q }).bump (fun u => { u with
      allocatedBlocks := u.allocatedBlocks + bs.length
      freeBlocks := u.freeBlocks - bs.length })) := by
  obtain ⟨h₁, h₂, h₃, h₄, h₅, h₆⟩ := claimAll_books P (s := { s with freeBlockQueue := q }) hbs hb
  refine ⟨?_, h₅, fun c _ => (h₆ c).le⟩
  · intro hbal
    constructor
    · have := hbal.allocated
      simp only [Pool.bump, h₁, h₃, List.length_append]
      omega
    · have := hbal.free
      simp only [Pool.bump, h₂, h₄, hq]
      omega

theorem allocatePopped_kept (h : Refines P s a) (hs : a.Sound 0) :
    Kept W s (s.allocatePopped P).2 := by
  unfold Pool.allocatePopped
  cases hf : a.free with
  | nil =>
    have hpop := (hf ▸ h.queue).popleft_nil
    rw [hpop]
    exact .refl s
  | cons b rest =>
    obtain ⟨q, hpop, hq⟩ := h.popleft hf
    rw [hpop]
    have hfree : b ∈ a.free := by
      rw [hf]
      exact List.mem_cons_self
    have hnum := h.numFree
    have hnum' : q.numFreeBlocks = rest.length := hq.numFree
    rw [hf, List.length_cons] at hnum
    refine kept_claimAll P (List.nodup_singleton b) ?_ ?_
    · intro c hc
      rw [List.mem_singleton] at hc
      rw [hc]
      exact fun hm => hs.freeHeld b hfree ((h.held b).mpr hm)
    · rw [List.length_singleton]
      omega

theorem allocateBlockInternal_kept (h : Refines P s a) (hs : a.Sound 0) :
    Kept W s (s.allocateBlockInternal P).2 := by
  unfold Pool.allocateBlockInternal
  split
  · obtain ⟨new, hg, hn, hnew, -⟩ := growBlocks_refines h hs
      (min 256 (P.maxBlocks - s.currentAllocatedCount))
    have hgrow : Kept W s (s.growBlocks P (min 256 (P.maxBlocks - s.currentAllocatedCount))).2 :=
      growBlocks_kept s _
    dsimp only
    split
    · exact hgrow
    · exact hgrow.trans (allocatePopped_kept hg (hs.extend hn hnew))
  · exact allocatePopped_kept h hs

theorem getNewBlocks_kept (h : Refines P s a) (hs : a.Sound 0) (n : Nat) :
    Kept W s (s.getNewBlocks P n).2 := by
  obtain ⟨new, hg, hsound, hkept⟩ : ∃ a₁, Refines P (if (n : Int) > s.freeBlockQueue.numFreeBlocks
      then (s.growBlocks P ((n - s.freeBlockQueue.numFreeBlocks).toNat + 128)).2 else s) a₁ ∧
      a₁.Sound 0 ∧ Kept W s (if (n : Int) > s.freeBlockQueue.numFreeBlocks
      then (s.growBlocks P ((n - s.freeBlockQueue.numFreeBlocks).toNat + 128)).2 else s) := by
    split
    · obtain ⟨new, hg, hn, hnew, -⟩ := growBlocks_refines h hs
        ((n - s.freeBlockQueue.numFreeBlocks).toNat + 128)
      exact ⟨_, hg, hs.extend hn hnew, growBlocks_kept s _⟩
    · exact ⟨a, h, hs, .refl s⟩
  unfold Pool.getNewBlocks
  dsimp only
  generalize (if (n : Int) > s.freeBlockQueue.numFreeBlocks then
    (s.growBlocks P ((n - s.freeBlockQueue.numFreeBlocks).toNat + 128)).2 else s) = t at hg hkept ⊢
  by_cases hlt : (n : Int) > t.freeBlockQueue.numFreeBlocks
  · rw [if_pos hlt]
    exact hkept
  · rw [if_neg hlt]
    have hnum := hg.numFree
    obtain ⟨bs, rest, hf, hbs⟩ : ∃ bs rest, new.free = bs ++ rest ∧ bs.length = n :=
      ⟨_, _, (List.take_append_drop n _).symm, by simp; omega⟩
    have hq := hg.queue
    rw [hf] at hq
    obtain ⟨q, hpop, hq'⟩ := hq.popleftN_append
    rw [hbs] at hpop
    rw [hpop]
    have hmem : ∀ b ∈ bs, b ∈ new.free := by
      intro b hb
      rw [hf]
      exact List.mem_append_left _ hb
    have hnd : bs.Nodup := by
      have := hsound.freeNodup
      rw [hf] at this
      exact (List.nodup_append.mp this).1
    have hcount := hq'.count
    rw [hf, List.length_append] at hnum
    have hclaim := @kept_claimAll _ t W P bs q hnd
      (fun b hb hm => hsound.freeHeld b (hmem b hb) ((hg.held b).mpr hm)) (by omega)
    rw [hbs] at hclaim
    exact hkept.trans hclaim

theorem touchOne_kept (h : Refines P s a) (hs : a.Sound 0) (b : Nat) :
    Kept W s (Pool.touchOne P s b) := by
  have hraise : ∀ u : Pool, Kept W u
      ((u.modify b (fun c => c.setRef (c.refCount + 1))).touchBlock P b) := fun u =>
    .of_quiet (.trans (.modify u b rfl) (.touchBlock P _ b))
  unfold Pool.touchOne
  dsimp only
  by_cases hc : (s.blocks b).refCount = 0 ∧ ¬ (s.blocks b).isNull = true
  · rw [if_pos hc]
    by_cases hb : b ∈ a.free
    · obtain ⟨l, r, hf⟩ := List.append_of_mem hb
      have hq := h.queue
      rw [hf] at hq
      obtain ⟨q, hrem, hq'⟩ := hq.remove_mem
      have hnot : b ∉ s.allocatedBlocks := fun hm => hs.freeHeld b hb ((h.held b).mpr hm)
      have hnum := hq.count
      have hnum' := hq'.count
      simp only [List.length_append, List.length_cons] at hnum hnum'
      have hmove : Kept W s (({ s with freeBlockQueue := q }.bump (fun v => { v with
          freeBlocks := v.freeBlocks - 1
          allocatedBlocks := v.allocatedBlocks + 1 })).addAllocated b) :=
        kept_addAllocated hnot rfl rfl rfl
          (show q.numFreeBlocks = s.freeBlockQueue.numFreeBlocks - 1 by omega) rfl fun _ => rfl
      rw [hrem]
      exact hmove.trans (hraise _)
    · rw [h.queue.remove_notMem hb]
      exact .of_quiet (.bump s fun _ => ⟨rfl, rfl, rfl⟩)
  · rw [if_neg hc]
    exact hraise s

theorem touch_kept (h : Refines P s a) (hs : a.Sound 0) (hloose : a.loose = ∅) {bs : List Nat}
    (hb : ∀ b ∈ bs, b ∈ a.made) : Kept W s (s.touch P bs) := by
  induction bs generalizing s a with
  | nil => exact .refl s
  | cons b bs ih =>
    have hplace := (hs.placed b).mp (hb b (by simp))
    rw [hloose] at hplace
    obtain ⟨a₁, h₁, hm₁, hl₁, hmade⟩ :=
      touchOne_refines h hs (R := Rules.any) (by simpa using hplace)
    exact (touchOne_kept h hs b).trans (ih h₁ (hm₁.sound hs) (hl₁.trans hloose)
      (fun c hc => hmade ▸ hb c (by simp [hc])))

theorem addRef_quiet (P : Params κ) (s : Pool) (b : Nat) : Quiet s (s.addRef P b) := by
  have hraise : Quiet s ((s.modify b (fun c => c.setRef (c.refCount + 1))).touchBlock P b) :=
    .trans (.modify s b rfl) (.touchBlock P _ b)
  unfold Pool.addRef
  dsimp only
  split
  · exact hraise.trans (.bump _ fun _ => ⟨rfl, rfl, rfl⟩)
  · exact hraise

theorem incrementRef_quiet (P : Params κ) (s : Pool) (b : Nat) : Quiet s (s.incrementRef P b).2 := by
  unfold Pool.incrementRef
  split
  · exact addRef_quiet P s b
  · exact .refl s

theorem releaseForEviction_quiet (s : Pool) (bs : List Nat) : Quiet s (s.releaseForEviction bs).2 := by
  induction bs generalizing s with
  | nil => exact .refl s
  | cons b bs ih =>
    have hone : Quiet s (s.releaseOne b).2 := by
      unfold Pool.releaseOne
      split
      · dsimp only
        split
        · exact .trans (.modify s b rfl) (.bump _ fun _ => ⟨rfl, rfl, rfl⟩)
        · exact .modify s b rfl
      · exact .refl s
    exact hone.trans (ih _)

/-- The loop writes the counts of the blocks that have no hash. -/
theorem cacheFullLoop_kept (P : Params κ) (blocks : List Nat) (tokens : List Int)
    (salt : Option (List κ)) (n i : Nat) (parent : Option BlockHash) (s : Pool)
    (hW : ∀ j b, i ≤ j → j < i + n → blocks[j]? = some b → (s.blocks b).blockHash = none → W b) :
    Kept W s (Pool.cacheFullLoop P blocks tokens salt n i parent s).2 := by
  induction n generalizing i parent s with
  | zero => exact .refl s
  | succ n ih =>
    unfold Pool.cacheFullLoop
    cases hb : blocks[i]? with
    | none => exact .refl s
    | some b =>
      dsimp only
      cases hk : (s.blocks b).blockHash with
      | some k => exact ih _ _ s fun j c hj hlt => hW j c (by omega) (by omega)
      | none =>
        refine .trans (.trans (.modify (hW i b le_rfl (by omega) hb hk) _)
          (.of_quiet (.insertHash _ _ b))) (ih _ _ _ fun j c hj hlt hc hnone => ?_)
        refine hW j c (by omega) (by omega) hc ?_
        by_cases hcb : c = b
        · rw [hcb, hk]
        · simpa [Pool.insertHash, Pool.modify, hcb] using hnone

theorem cacheFullBlocks_kept (P : Params κ) (s : Pool) (blocks : List Nat)
    (tokens : List Int) (nc nf : Nat) (salt : Option (List κ))
    (hW : P.enableCaching = true → ∀ b ∈ (blocks.take nf).drop nc, (s.blocks b).blockHash = none → W b) :
    Kept W s (s.cacheFullBlocks P blocks tokens nc nf salt).2 := by
  unfold Pool.cacheFullBlocks
  split
  · exact .refl s
  · next hgo =>
    have hcaching : P.enableCaching = true := by
      cases hP : P.enableCaching with
      | true => rfl
      | false => exact absurd (Or.inl (by simp [hP])) hgo
    have hloop : ∀ p, Kept W s (Pool.cacheFullLoop P blocks tokens salt (nf - nc) nc p s).2 := by
      refine fun p => cacheFullLoop_kept P blocks tokens salt _ _ _ s fun j b hj hlt hb hnone => ?_
      refine hW hcaching b (List.mem_iff_getElem?.mpr ⟨j - nc, ?_⟩) hnone
      rw [List.getElem?_drop, List.getElem?_take_of_lt (by omega), Nat.add_sub_cancel' hj, hb]
    dsimp only
    split
    · exact hloop _
    · cases blocks[nc - 1]? with
      | none => exact .refl s
      | some b => exact hloop _

theorem lookupOrRestore_kept (h : Refines P s a) (hs : a.Sound 0)
    (ssd : Option (BlockHash → Bool)) (claim : Bool) (k : BlockHash) (parent : Option BlockHash)
    (hW : claim = true → ssd.isSome → ∀ b ∉ s.allocatedBlocks, W b) :
    Kept W s (s.lookupOrRestore P ssd claim k parent).2 := by
  unfold Pool.lookupOrRestore
  cases s.cachedBlockHashToBlock.getBlock k with
  | some b => exact .refl s
  | none =>
    dsimp only
    split
    · next hrestore =>
      have halloc : Kept W s _ := allocateBlockInternal_kept (P := P) h hs
      obtain ⟨a', -, -, hcase⟩ := allocateBlockInternal_refines (P := P) h hs (R := Rules.any)
      have hsome : ssd.isSome := by
        cases ssd with
        | none => simp at hrestore
        | some _ => rfl
      cases hr : s.allocateBlockInternal P with
      | mk r t =>
        rw [hr] at halloc hcase
        match r with
        | .error e => exact halloc
        | .ok none => exact halloc
        | .ok (some b) =>
          have hnew : b ∉ s.allocatedBlocks := by
            obtain ⟨hnone, -⟩ | ⟨b', hb', hhanded⟩ := hcase
            · cases hnone
            · cases hb'
              exact fun hm => hhanded.fresh b (by simp) ((h.held b).mpr hm)
          exact halloc.trans (.trans (.modify (hW hrestore.1 hsome b hnew) _)
            (.of_quiet (.insertHash _ k b)))
    · exact .refl s

theorem computedLoop_kept (ssd : Option (BlockHash → Bool)) (claim : Bool) (tokens : List Int)
    (args : KeyArgs κ) (n i : Nat) (parent : Option BlockHash) (restored : List Nat)
    (h : Refines P s a) (hs : a.Sound 0)
    (hW : claim = true → ssd.isSome → ∀ b ∉ s.allocatedBlocks, W b) :
    Kept W s (Pool.computedLoop P ssd claim tokens args n i parent restored s).2 := by
  have hbump : ∀ (u : Pool) (f : PagedCacheStats → PagedCacheStats), (∀ v,
      (f v).allocatedBlocks = v.allocatedBlocks ∧ (f v).freeBlocks = v.freeBlocks ∧
        (f v).totalTokensCached = v.totalTokensCached) → Kept W u (u.bump f) :=
    fun u f hf => .of_quiet (.bump u hf)
  induction n generalizing i parent restored s a with
  | zero => exact .refl s
  | succ n ih =>
    unfold Pool.computedLoop
    cases resolveBlockExtraKeys ((i + 1) * P.blockSize) args with
    | error e => exact .refl s
    | ok salt =>
      dsimp only
      have hkept := lookupOrRestore_kept h hs ssd claim
        (P.hash parent (blockTokens P.blockSize tokens i) salt) parent hW
      obtain ⟨a₁, h₁, hm₁, hg₁, hres₁⟩ := lookupOrRestore_refines h hs (R := Rules.any) ssd claim
        (P.hash parent (blockTokens P.blockSize tokens i) salt) parent
      have hs₁ := hm₁.sound hs
      cases hlk : s.lookupOrRestore P ssd claim
          (P.hash parent (blockTokens P.blockSize tokens i) salt) parent with
      | mk r t =>
        rw [hlk] at hkept h₁ hres₁
        rcases r with e | ⟨_ | b, f⟩
        · exact hkept
        · exact hkept.trans
            (hbump t (fun v => { v with misses := v.misses + 1 }) fun _ => ⟨rfl, rfl, rfl⟩)
        · have hheld : b ∈ a₁.held := (hs₁.listed _ b (hres₁ b f rfl).1).1
          obtain ⟨u, hu, hku⟩ : ∃ u, (if claim = true ∧ b ∉ (if f = true then b :: restored
              else restored) then t.addRef P b else t) = u ∧ Kept W t u ∧
              ∃ a₂, Refines P u a₂ ∧ a₂.Sound 0 ∧ a₁.held ⊆ a₂.held := by
            by_cases hc : claim = true ∧ b ∉ (if f = true then b :: restored else restored)
            · rw [if_pos hc]
              obtain ⟨h₂, hm₂⟩ := addRef_refines h₁ hs₁ (R := Rules.any) hheld
              exact ⟨_, rfl, .of_quiet (addRef_quiet P t b), _, h₂, hm₂.sound hs₁, subset_rfl⟩
            · rw [if_neg hc]
              exact ⟨_, rfl, .refl t, a₁, h₁, hs₁, subset_rfl⟩
          obtain ⟨hku, a₂, h₂, hs₂, hheld₂⟩ := hku
          have hW₂ : claim = true → ssd.isSome → ∀ c ∉ u.allocatedBlocks, W c :=
            fun hclaim hssd c hc => hW hclaim hssd c fun hm =>
              hc ((h₂.held c).mp (hheld₂ (hg₁.held ((h.held c).mpr hm))))
          dsimp only
          rw [hu]
          have hrest := ih (i + 1) (some (P.hash parent (blockTokens P.blockSize tokens i) salt))
            (if f = true then b :: restored else restored)
            (h₂.bump (fun v => { v with hits := v.hits + 1 })) hs₂ hW₂
          have hall := (hkept.trans hku).trans
            ((hbump u (fun v => { v with hits := v.hits + 1 }) fun _ => ⟨rfl, rfl, rfl⟩).trans hrest)
          generalize Pool.computedLoop P ssd claim tokens args n (i + 1)
            (some (P.hash parent (blockTokens P.blockSize tokens i) salt))
            (if f = true then b :: restored else restored)
            (u.bump (fun v => { v with hits := v.hits + 1 })) = w at hall ⊢
          obtain ⟨res, w⟩ := w
          cases res with
          | error e => exact hall
          | ok bs => exact hall

theorem getComputedBlocks_kept (h : Refines P s a) (hs : a.Sound 0)
    (ssd : Option (BlockHash → Bool)) (tokens : List Int) (args : KeyArgs κ) (claim : Bool)
    (hW : claim = true → ssd.isSome → ∀ b ∉ s.allocatedBlocks, W b) :
    Kept W s (s.getComputedBlocks P ssd tokens args claim).2 := by
  unfold Pool.getComputedBlocks
  split
  · exact .refl s
  · have hloop := computedLoop_kept ssd claim tokens args (tokens.length / P.blockSize) 0 none [] h hs hW
    generalize Pool.computedLoop P ssd claim tokens args (tokens.length / P.blockSize) 0 none [] s = w
      at hloop ⊢
    obtain ⟨res, w⟩ := w
    cases res with
    | error e => exact hloop
    | ok bs => exact hloop

theorem forkBlockTable_quiet (P : Params κ) (s : Pool) (u : BlockTable) (r : String) :
    Quiet s (s.forkBlockTable P u r) := by
  have hfold : ∀ (ids : List Nat) (s : Pool), Quiet s (ids.foldl (fun s b =>
      if b ∈ s.allocatedBlocks then s.addRef P b else s) s) := by
    intro ids
    induction ids with
    | nil => exact fun s => .refl s
    | cons b ids ih =>
      intro s
      rw [List.foldl_cons]
      by_cases hb : b ∈ s.allocatedBlocks
      · rw [if_pos hb]
        exact (addRef_quiet P s b).trans (ih _)
      · rw [if_neg hb]
        exact ih s
  exact (hfold u.blockIds s).trans (.setTable _ _)

theorem writeTable_quiet (s : Pool) (u : BlockTable) (r : TableRef) :
    Quiet s (s.writeTable u r) := by
  cases r with
  | tracked _ => exact .setTable s u
  | detached _ => exact .refl s

/-- No private copy can be made: nothing is queued, the pool is at its cap and no block is
evictable. -/
def Exhausted (P : Params κ) (s : Pool) : Prop :=
  s.freeBlockQueue.numFreeBlocks = 0 ∧ P.maxBlocks ≤ s.currentAllocatedCount ∧
    s.evictionCandidates = []

theorem makeRoom_exhausted (h : Exhausted P s) : s.makeRoom P = s := by
  obtain ⟨hnum, hcap, hcand⟩ := h
  have hgrow : s.growBlocks P (min 256 (P.maxBlocks - s.currentAllocatedCount)) = (0, s) := by
    have hzero : min (min 256 (P.maxBlocks - s.currentAllocatedCount))
        (P.maxBlocks - s.currentAllocatedCount) = 0 := by omega
    unfold Pool.growBlocks
    dsimp only
    rw [if_pos hzero]
  unfold Pool.makeRoom
  rw [if_pos hnum, hgrow]
  dsimp only
  rw [if_pos hnum]
  simp [Pool.evictCachedBlocksLocked, hcand, Pool.evictCachedLoop]

/-- Where no block of the table is shared, or none can be copied, nothing moves. -/
theorem generationLoop_quiet (h : Refines P s a) {ids : List Nat}
    (hcopy : (∀ b ∈ ids, b ∈ s.allocatedBlocks → (s.blocks b).refCount ≤ 1) ∨ Exhausted P s) :
    Quiet s (Pool.generationLoop P ids s).pool := by
  induction ids generalizing s with
  | nil => exact .refl s
  | cons b ids ih =>
    have htouch : (∀ c ∈ ids, c ∈ (s.touchBlock P b).allocatedBlocks →
        ((s.touchBlock P b).blocks c).refCount ≤ 1) ∨ Exhausted P (s.touchBlock P b) := by
      rcases hcopy with hone | ⟨hnum, hcap, hcand⟩
      · refine Or.inl fun c hc hm => ?_
        rw [(h.touchBlock b).refs, ← h.refs]
        exact hone c (by simp [hc]) hm
      · exact Or.inr ⟨hnum, hcap, noCandidates_touch h hcand⟩
    have hrest := (Quiet.touchBlock P s b).trans (ih (h.touchBlock b) htouch)
    unfold Pool.generationLoop
    by_cases hb : b ∈ s.allocatedBlocks
    · rw [if_neg (not_not_intro hb)]
      by_cases hshared : (s.blocks b).isShared = true
      · rw [if_pos hshared]
        have hfull : Exhausted P s := by
          refine hcopy.resolve_left fun hone => ?_
          have hle := hone b (by simp) hb
          simp only [CacheBlock.isShared, decide_eq_true_eq] at hshared
          omega
        have hfail : s.cowCopy P b = (.error .cacheEvictionError, s) := by
          unfold Pool.cowCopy
          dsimp only
          rw [makeRoom_exhausted hfull, if_pos hfull.1]
        rw [hfail]
        exact .refl s
      · rw [if_neg hshared]
        exact hrest
    · rw [if_pos hb]
      refine ih h (hcopy.imp_left fun hone c hc hm => hone c (by simp [hc]) hm)

theorem getBlocksForGeneration_quiet (h : Refines P s a) (r : TableRef)
    (hcopy : (∀ u, s.readTable r = some u →
      ∀ b ∈ u.blockIds, b ∈ s.allocatedBlocks → (s.blocks b).refCount ≤ 1) ∨ Exhausted P s) :
    Quiet s (s.getBlocksForGeneration P r).2 := by
  unfold Pool.getBlocksForGeneration
  cases hr : s.readTable r with
  | none => exact .refl s
  | some u =>
    exact (generationLoop_quiet h (hcopy.imp_left fun hone => hone u hr)).trans
      (writeTable_quiet _ _ r)

theorem requeue_kept {xs : List Nat} (hq : s.freeBlockQueue.Holds xs)
    (hnd : s.allocatedBlocks.Nodup)
    (hb : (b ∈ xs ∧ b ∉ s.allocatedBlocks) ∨ (b ∉ xs ∧ b ∈ s.allocatedBlocks)) :
    Kept W s (s.requeue b) := by
  unfold Pool.requeue
  rcases hb with ⟨hx, hb⟩ | ⟨hx, hb⟩
  · have hin : s.freeBlockQueue.isInQueue b = true := (hq.isInQueue_iff b).mpr hx
    rw [if_neg hb]
    dsimp only
    rw [if_pos hin]
    exact .refl s
  · have hout : ¬ s.freeBlockQueue.isInQueue b = true := fun hm => hx ((hq.isInQueue_iff b).mp hm)
    have hlen := length_delAllocated hnd hb
    rw [if_pos hb]
    dsimp only
    split
    · next hm => exact absurd hm hout
    · refine ⟨fun hbal => ⟨?_, ?_⟩, rfl, fun _ _ => le_rfl⟩
      · have := hbal.allocated
        simp only [Pool.enqueue, Pool.bump]
        simp only [Pool.delAllocated] at hlen ⊢
        omega
      · have := hbal.free
        have hnum := numFree_append hq b
        simp only [Pool.enqueue, Pool.bump, Pool.delAllocated]
        omega

theorem evictBlockPermanently_kept (h : Refines P s a) (hs : a.Sound 0) (hloose : a.loose = ∅)
    (b : Nat) : Kept W s (s.evictBlockPermanently b).2 := by
  unfold Pool.evictBlockPermanently
  split
  · exact .refl s
  · next hc =>
    have hdrop : Quiet s (s.dropEntry b) := by
      unfold Pool.dropEntry
      cases (s.blocks b).blockHash with
      | none => exact .refl s
      | some k => exact .trans (.popHash s k (some b)) (.notify _ b)
    have hreset := hdrop.toSameBooks.trans (.modify _ b (fun c => { c.resetHash with tokenCount := 0 }))
    have hzero : Kept W s ((s.dropEntry b).modify b (fun c => { c.resetHash with tokenCount := 0 })) := by
      refine ⟨fun hb => hreset.balanced hb, hreset.total, fun c _ => ?_⟩
      by_cases hcb : c = b
      · simp [Pool.modify, hcb]
      · simp [Pool.modify, hcb, hdrop.tokens c]
    have hmade : b ∈ a.made := by
      rw [h.made]
      by_contra hlt
      exact hc (Or.inl hlt)
    have hplace := (hs.placed b).mp hmade
    rw [hloose] at hplace
    have hcase : (b ∈ a.free ∧ b ∉ s.allocatedBlocks) ∨ (b ∉ a.free ∧ b ∈ s.allocatedBlocks) := by
      rcases hplace with hf | hheld | hl
      · exact Or.inl ⟨hf, fun hm => hs.freeHeld b hf ((h.held b).mpr hm)⟩
      · exact Or.inr ⟨fun hm => hs.freeHeld b hm hheld, (h.held b).mp hheld⟩
      · cases hl
    refine (hzero.trans (requeue_kept (hreset.queue ▸ h.queue)
      (hreset.allocated ▸ h.nodup) (by rwa [hreset.allocated]))).trans ?_
    have hcount := Quiet.bump (((s.dropEntry b).modify b (fun c =>
      { c.resetHash with tokenCount := 0 })).requeue b)
      (f := fun u => { u with evictions := u.evictions + 1 }) fun _ => ⟨rfl, rfl, rfl⟩
    exact .of_quiet hcount

/-- The blocks whose token counts the call subtracts: those that it frees or reclaims, and those that
it evicts from the queue. The forced eviction and `clear` do not subtract. -/
def subtracted (m : Manager) : Op κ → List Nat
  | .freeBlock b => [b].filter (lastReference m.pool 1)
  | .freeBlocksBatch bs => bs.filter (lastReference m.pool 1)
  | .deleteBlockTable r => match m.pool.requestTables.get? r with
    | some t => t.blockIds.filter (fun b => lastReference m.pool (t.blockIds.count b) b)
    | none => []
  | .evictLruBlocks n => m.pool.queueIds.take n.toNat
  | .handleMemoryPressure n =>
    m.pool.queueIds.take (n - m.pool.freeBlockQueue.numFreeBlocks).toNat ++ reclaimable m.pool n
  | _ => []

/-- The call writes the block's token count without adding it to the total: it caches a block that
has no hash, or a lazy restore may take the block. -/
def rewrites (P : Params κ) (m : Manager) (op : Op κ) (b : Nat) : Bool :=
  match op with
  | .cacheFullBlocks bs _ nc nf _ =>
    P.enableCaching ∧ b ∈ (bs.take nf).drop nc ∧ (m.pool.blocks b).blockHash = none
  | .getComputedBlocks ssd _ _ claim => claim ∧ ssd.isSome ∧ b ∉ m.pool.allocatedBlocks
  | _ => false

def CopiesNothing (P : Params κ) (m : Manager) : Op κ → Prop
  | .getBlocksForGeneration r => (∀ u, m.pool.readTable r = some u →
      ∀ b ∈ u.blockIds, b ∈ m.pool.allocatedBlocks → (m.pool.blocks b).refCount ≤ 1) ∨
    Exhausted P m.pool
  | _ => True

def adds (m : Manager) : Op κ → Option Nat
  | .addBlockToTable r b _ => if (m.pool.readTable r).isSome then some b else none
  | _ => none

variable {m m' : Manager}

inductive Effect (P : Params κ) (m : Manager) (op : Op κ) : Prop
  | kept (total : (exec P m op).pool.stats.totalTokensCached = m.pool.stats.totalTokensCached)
      (tokens : ∀ b, rewrites P m op b = false →
        ((exec P m op).pool.blocks b).tokenCount ≤ (m.pool.blocks b).tokenCount)
  | drawn (out : List Nat) (drawn : Drawn m.pool (exec P m op).pool out)
      (subtracts : ∀ b ∈ out, b ∈ subtracted m op)
  | fresh (total : (exec P m op).pool.stats.totalTokensCached = 0)
      (tokens : ∀ b, ((exec P m op).pool.blocks b).tokenCount = 0)

theorem quiet_ends (h : Ends m s m') : Quiet s m'.pool := by
  cases h with
  | plain => exact .refl s
  | flushed =>
    unfold Manager.flushContentInvalidated
    split
    · exact .refl s
    · exact ⟨⟨rfl, rfl, rfl, rfl, rfl⟩, fun _ => rfl⟩

theorem ends_blocks (h : Ends m s m') : m'.pool.blocks = s.blocks := by
  cases h with
  | plain => rfl
  | flushed =>
    unfold Manager.flushContentInvalidated
    split <;> rfl

variable {op : Op κ}

def Conserves (P : Params κ) (m : Manager) (op : Op κ) : Prop :=
  (Balanced m.pool 0 → Balanced (exec P m op).pool 0) ∧ (adds m op = none → Effect P m op)

/-- A call whose body keeps the counters and the total. -/
theorem conserves_kept (he : Ends m s (exec P m op))
    (hk : Kept (fun b => rewrites P m op b = true) m.pool s) : Conserves P m op := by
  have hq := quiet_ends he
  refine ⟨fun hb => hq.balanced (hk.balanced hb), fun _ => .kept (hq.total.trans hk.total) fun b hb => ?_⟩
  rw [hq.tokens]
  exact hk.tokens b (by simp [hb])

/-- A call whose body draws from the total. -/
theorem conserves_drawn {out : List Nat} (he : Ends m s (exec P m op))
    (hd : Drawn m.pool s out) (hb : Balanced m.pool 0 → Balanced s 0)
    (hsub : ∀ b ∈ out, b ∈ subtracted m op) : Conserves P m op := by
  have hq := quiet_ends he
  exact ⟨fun h => hq.balanced (hb h), fun _ => .drawn out (hd.quiet_right hq) hsub⟩

/-- `free_block` takes at most the one reference. -/
theorem freeBlock_refs (s : Pool) (b c : Nat) :
    (s.blocks c).refCount ≤ ((s.freeBlock b).2.blocks c).refCount + (if c = b then 1 else 0) ∧
      ((s.freeBlock b).2.blocks c).isNull = (s.blocks c).isNull := by
  have hle : (s.blocks c).refCount ≤ (s.blocks c).refCount + if c = b then 1 else 0 := by
    split <;> omega
  by_cases hb : b ∈ s.allocatedBlocks
  · rcases OwnedBlocks.freeBlock_evicts hb with ⟨hsame, -⟩ | ⟨_, hev⟩
    · rw [hsame]
      exact ⟨hle, rfl⟩
    · rw [hev.refs, hev.null]
      by_cases hc : c = b
      · simp [OwnedBlocks.decrement, Pool.modify, CacheBlock.setRef, hc]
      · simp [OwnedBlocks.decrement, Pool.modify, hc]
  · rw [Pool.freeBlock, if_neg hb]
    exact ⟨hle, rfl⟩

/-- The loop of `delete_block_table`. -/
theorem freeLoop_books {l : List Nat} (h : Stands P m a) :
    ∃ out, Drawn m.pool (l.foldl (fun m b => (m.freeBlock b).2) m).pool out ∧
      (∀ b ∈ out, b ∈ l ∧ lastReference m.pool (l.count b) b = true) ∧
      (Balanced m.pool 0 → Balanced (l.foldl (fun m b => (m.freeBlock b).2) m).pool 0) := by
  induction l generalizing m a with
  | nil => exact ⟨[], (Quiet.refl m.pool).drawn, by simp, id⟩
  | cons b l ih =>
    rw [List.foldl_cons]
    by_cases hb : b ∈ m.pool.allocatedBlocks
    · obtain ⟨a₂, hends, hr₂, hm₂, hl₂, -⟩ := freeBlock_step (R := Rules.any) (l := l) h hb
        (fun c _ _ _ _ => mayFree_any a c)
      obtain ⟨out, hd, hmem, hbal⟩ := freeBlock_books h.refines.queue h.refines.nodup b
      obtain ⟨pending, hst⟩ := hends.stands hr₂ (hm₂.sound h.sound) (hl₂.trans h.settled)
      have hq := quiet_ends hends
      have hrefs : ∀ c, (m.pool.blocks c).refCount ≤ ((m.freeBlock b).2.pool.blocks c).refCount +
          (if c = b then 1 else 0) ∧
          ((m.freeBlock b).2.pool.blocks c).isNull = (m.pool.blocks c).isNull := by
        intro c
        rw [ends_blocks hends]
        exact freeBlock_refs m.pool b c
      generalize (m.freeBlock b).2 = m' at hq hst hrefs ⊢
      have hd' := hd.quiet_right hq
      obtain ⟨out', hd₂, hmem₂, hbal₂⟩ := ih hst
      refine ⟨out ++ out', hd'.trans hd₂ (hd'.apart fun c hc => lastReference_held (hmem₂ c hc).2), ?_, ?_⟩
      · intro c hc
        rcases List.mem_append.mp hc with hc | hc
        · obtain ⟨rfl, hone⟩ := hmem c hc
          refine ⟨List.mem_cons_self, ?_⟩
          simp only [lastReference, decide_eq_true_eq, List.count_cons_self] at hone ⊢
          exact ⟨hone.1, hone.2.1, hone.2.2.trans (by omega)⟩
        · obtain ⟨hin, hlast⟩ := hmem₂ c hc
          refine ⟨List.mem_cons_of_mem b hin, ?_⟩
          have hrefsc := hrefs c
          simp only [lastReference, decide_eq_true_eq, hrefsc.2] at hlast ⊢
          refine ⟨hd'.sublist.subset hlast.1, hlast.2.1, ?_⟩
          by_cases hcb : c = b
          · subst hcb
            rw [List.count_cons_self]
            have := hrefsc.1
            rw [if_pos rfl] at this
            omega
          · rw [List.count_cons_of_ne (Ne.symm hcb)]
            have := hrefsc.1
            rw [if_neg hcb] at this
            omega
      · exact fun hb => hbal₂ (hq.balanced (hbal hb))
    · rw [freeBlock_unknown hb]
      obtain ⟨out, hd, hmem, hbal⟩ := ih h
      refine ⟨out, hd, fun c hc => ?_, hbal⟩
      obtain ⟨hin, hlast⟩ := hmem c hc
      have hcb : c ≠ b := fun hcb => hb (hcb ▸ lastReference_held hlast)
      exact ⟨List.mem_cons_of_mem b hin, by rwa [List.count_cons_of_ne (Ne.symm hcb)]⟩

theorem deleteBlockTable_conserves (h : Stands P m a) (r : String) :
    Conserves P m (.deleteBlockTable r) := by
  have hst : Stands P { m with
      holds := m.holds.acquire .all, pool := (m.pool.detachRequestTable r).2 } a :=
    ⟨h.refines.same (detachRequestTable_same _ r), h.sound, h.settled⟩
  have hquiet : Quiet m.pool (m.pool.detachRequestTable r).2 :=
    ⟨⟨rfl, rfl, rfl, rfl, rfl⟩, fun _ => rfl⟩
  obtain ⟨out, hd, hmem, hbal⟩ : ∃ out,
      Drawn m.pool (exec P m (.deleteBlockTable r)).pool out ∧
      (∀ b ∈ out, b ∈ subtracted m (.deleteBlockTable r : Op κ)) ∧
      (Balanced m.pool 0 → Balanced (exec P m (.deleteBlockTable r)).pool 0) := by
    simp only [exec, Manager.deleteBlockTable, Manager.withLocks, Manager.onPool,
      Pool.detachRequestTable, subtracted]
    cases m.pool.requestTables.get? r with
    | none => exact ⟨[], hquiet.drawn, by simp, hquiet.balanced⟩
    | some t =>
      obtain ⟨out, hd, hmem, hbal⟩ := freeLoop_books (l := t.blockIds) hst
      exact ⟨out, .quiet_left hquiet hd, fun b hb => List.mem_filter.mpr (hmem b hb),
        fun hb => hbal (hquiet.balanced hb)⟩
  exact ⟨hbal, fun _ => .drawn out hd hmem⟩

theorem init_books (h : Pool.init P = .ok s) :
    Balanced s 0 ∧ s.stats.totalTokensCached = 0 ∧ ∀ b, (s.blocks b).tokenCount = 0 := by
  obtain ⟨s', hs', hr⟩ := init_refines P (init_pos h)
  rw [h, Except.ok.injEq] at hs'
  subst hs'
  have hpos := init_pos h
  have hnum := hr.numFree
  simp only [freshLedger, List.length_range'] at hnum
  unfold Pool.init at h
  dsimp only at h
  cases hpop : (FreeKVCacheBlockQueue.init (min P.initialBlocks P.maxBlocks)).popleft with
  | error e =>
    rw [hpop] at h
    cases h
  | ok r =>
    rw [hpop, Except.ok.injEq] at h
    subst h
    refine ⟨⟨rfl, ?_⟩, rfl, fun b => rfl⟩
    dsimp only at hnum ⊢
    omega

theorem clear_conserves (hpos : 0 < min P.initialBlocks P.maxBlocks) (m : Manager) :
    Conserves P m .clear := by
  obtain ⟨t, ht, hr⟩ := init_refines { P with clock := fun n => P.clock (m.pool.ticks + n) } hpos
  have hbooks := init_books ht
  have hpool : (exec P m .clear).pool.stats = t.stats ∧
      (exec P m .clear).pool.allocatedBlocks = t.allocatedBlocks ∧
      (exec P m .clear).pool.freeBlockQueue = t.freeBlockQueue ∧
      (exec P m .clear).pool.blocks = t.blocks := by
    simp only [exec, Manager.clear, locked_eq, Pool.clear, ht, and_self]
  obtain ⟨hstats, hall, hqueue, hblocks⟩ := hpool
  constructor
  · intro _
    constructor
    · rw [hstats, hall]
      exact hbooks.1.allocated
    · rw [hstats, hqueue]
      exact hbooks.1.free
  · refine fun _ => .fresh ?_ ?_
    · rw [hstats]
      exact hbooks.2.1
    · rw [hblocks]
      exact hbooks.2.2

/-- Adding a block to a table adds its tokens to the total. -/
theorem addBlockToTable_books {r : TableRef} {u : BlockTable} (hr : s.readTable r = some u)
    (b n : Nat) :
    (Balanced s 0 → Balanced (s.addBlockToTable r b n) 0) ∧
      (s.addBlockToTable r b n).stats.totalTokensCached =
        s.stats.totalTokensCached + ((s.addBlockToTable r b n).blocks b).tokenCount ∧
      ∀ c, c ≠ b → ((s.addBlockToTable r b n).blocks c).tokenCount = (s.blocks c).tokenCount := by
  have hwrite : ∀ (t : Pool) (u : BlockTable), Quiet t (t.writeTable u r) := by
    intro t u
    cases r <;> exact ⟨⟨rfl, rfl, rfl, rfl, rfl⟩, fun _ => rfl⟩
  set t := (s.modify b (fun c => { c with tokenCount := n })).bump (fun u =>
    { u with totalTokensCached := u.totalTokensCached + n }) with ht
  have hbody : s.addBlockToTable r b n =
      t.writeTable { u with blockIds := u.blockIds ++ [b], numTokens := u.numTokens + n } r := by
    simp only [Pool.addBlockToTable, hr, ht]
  have hq := hwrite t { u with blockIds := u.blockIds ++ [b], numTokens := u.numTokens + n }
  rw [hbody]
  refine ⟨fun hb => hq.balanced ⟨hb.allocated, hb.free⟩, ?_, ?_⟩
  · rw [hq.total, hq.tokens]
    simp [ht, Pool.modify, Pool.bump]
  · intro c hc
    rw [hq.tokens]
    simp [ht, Pool.modify, Pool.bump, hc]

theorem adds_total (h : adds m op = some b) :
    (exec P m op).pool.stats.totalTokensCached =
        m.pool.stats.totalTokensCached + ((exec P m op).pool.blocks b).tokenCount ∧
      ∀ c, c ≠ b → ((exec P m op).pool.blocks c).tokenCount = (m.pool.blocks c).tokenCount := by
  cases op with
  | addBlockToTable r b' n =>
    simp only [adds] at h
    cases hr : m.pool.readTable r with
    | none => simp [hr] at h
    | some u =>
      simp only [hr, Option.isSome_some, if_true, Option.some.injEq] at h
      subst h
      have hpool : (exec P m (.addBlockToTable r b' n)).pool = m.pool.addBlockToTable r b' n := by
        simp only [exec, Manager.addBlockToTable, locked_eq]
      rw [hpool]
      exact (addBlockToTable_books hr b' n).2
  | _ => cases h

theorem addBlockToTable_conserves (m : Manager) (r : TableRef) (b n : Nat) :
    Conserves P m (.addBlockToTable r b n) := by
  have hpool : (exec P m (.addBlockToTable r b n)).pool = m.pool.addBlockToTable r b n := by
    simp only [exec, Manager.addBlockToTable, locked_eq]
  cases hr : m.pool.readTable r with
  | none =>
    have hsame : (exec P m (.addBlockToTable r b n)).pool = m.pool := by
      rw [hpool]
      simp only [Pool.addBlockToTable, hr]
    exact ⟨fun hb => hsame ▸ hb, fun _ => .kept (by rw [hsame]) fun c _ => by rw [hsame]⟩
  | some u =>
    constructor
    · rw [hpool]
      exact (addBlockToTable_books hr b n).1
    · intro hnone
      simp [adds, hr] at hnone

theorem freeBlock_conserves (h : Stands P m a) (b : Nat) : Conserves P m (.freeBlock b) := by
  by_cases hb : b ∈ m.pool.allocatedBlocks
  · have hends : Ends m (m.pool.freeBlock b).2 (exec P m (.freeBlock b)) := by
      simp only [exec, Manager.freeBlock, hb, if_true]
      exact ends_thenFlush .all (fun s => s.freeBlock b) m
    obtain ⟨out, hd, hmem, hbal⟩ := freeBlock_books h.refines.queue h.refines.nodup b
    refine conserves_drawn hends hd hbal fun c hc => ?_
    obtain ⟨rfl, hone⟩ := hmem c hc
    exact List.mem_filter.mpr ⟨List.mem_singleton_self c, hone⟩
  · have hid : exec P m (.freeBlock b) = m := freeBlock_unknown hb
    exact conserves_kept (s := m.pool) (by rw [hid]; exact .plain) (.refl _)

theorem evict_conserves (h : Stands P m a) (key : BlockHash ⊕ Nat) : Conserves P m (.evict key) := by
  obtain ⟨hr, hs, hl⟩ := h
  have hone : ∀ b, exec P m (.evict key) = (m.evictBlockPermanently b).2 → Conserves P m (.evict key) := by
    intro b hb
    have hends : Ends m (m.pool.evictBlockPermanently b).2 (exec P m (.evict key)) := by
      rw [hb]
      exact ends_locked .all (fun s => s.evictBlockPermanently b) m
    exact conserves_kept hends (evictBlockPermanently_kept hr hs hl b)
  cases key with
  | inr b => exact hone b rfl
  | inl k =>
    cases hg : m.pool.cachedBlockHashToBlock.getBlock k with
    | some b => exact hone b (by simp only [exec, Manager.evict, hg])
    | none =>
      have hid : exec P m (.evict (.inl k)) = m := by simp only [exec, Manager.evict, hg]
      exact conserves_kept (s := m.pool) (by rw [hid]; exact .plain) (.refl _)

theorem cacheFullBlocks_conserves (m : Manager) (bs : List Nat) (ts : List Int) (nc nf : Nat)
    (k : Option (List κ)) : Conserves P m (.cacheFullBlocks bs ts nc nf k) := by
  refine conserves_kept (ends_locked .mapOnly (fun s => s.cacheFullBlocks P bs ts nc nf k) m)
    (cacheFullBlocks_kept P _ bs ts nc nf k fun hcaching b hb hnone => ?_)
  simp only [rewrites, decide_eq_true_eq]
  exact ⟨hcaching, hb, hnone⟩

/-- A call whose body reads or files blocks. -/
theorem conserves_quiet (he : Ends m s (exec P m op)) (hq : Quiet m.pool s) : Conserves P m op :=
  conserves_kept he (.of_quiet hq)

theorem getCachedBlock_quiet (P : Params κ) (s : Pool) (k : BlockHash) :
    Quiet s (s.getCachedBlock P k).2 := by
  unfold Pool.getCachedBlock
  split
  · cases s.cachedBlockHashToBlock.getBlock k with
    | some b => exact ⟨⟨rfl, rfl, rfl, rfl, rfl⟩, fun _ => rfl⟩
    | none => exact ⟨⟨rfl, rfl, rfl, rfl, rfl⟩, fun _ => rfl⟩
  · exact .refl s

theorem findCachedBlock_quiet (P : Params κ) (s : Pool) (ts : List Int) (p : Option BlockHash)
    (k : Option (List κ)) : Quiet s (s.findCachedBlock P ts p k).2 := by
  unfold Pool.findCachedBlock
  split
  · cases s.cachedBlockHashToBlock.getBlock (P.hash p ts k) with
    | some b => exact (Quiet.touchBlock P s b).trans ⟨⟨rfl, rfl, rfl, rfl, rfl⟩, fun _ => rfl⟩
    | none => exact ⟨⟨rfl, rfl, rfl, rfl, rfl⟩, fun _ => rfl⟩
  · exact .refl s

theorem registerBlockHash_quiet (P : Params κ) (s : Pool) (b : Nat) (ts : List Int)
    (p : Option BlockHash) (k : Option (List κ)) : Quiet s (s.registerBlockHash P b ts p k) := by
  unfold Pool.registerBlockHash
  split
  · exact .trans (.modify s b rfl) (.insertHash _ _ b)
  · exact .refl s

theorem resetPrefixCache_quiet (P : Params κ) (s : Pool) : Quiet s (s.resetPrefixCache P).2 := by
  unfold Pool.resetPrefixCache
  split
  · exact .refl s
  · refine ⟨⟨rfl, rfl, rfl, rfl, rfl⟩, fun b => ?_⟩
    dsimp only
    split <;> rfl

theorem getOrCreateBlockTable_quiet (s : Pool) (r : String) :
    Quiet s (s.getOrCreateBlockTable r).2 := by
  unfold Pool.getOrCreateBlockTable
  split
  · exact .refl s
  · exact .setTable s _

theorem markBlockCold_quiet (s : Pool) (b : Nat) : Quiet s (s.markBlockCold b).2 := by
  unfold Pool.markBlockCold
  split
  · exact .refl s
  · exact ⟨⟨rfl, rfl, rfl, rfl, rfl⟩, fun _ => rfl⟩

theorem restoreBlock_quiet (P : Params κ) (s : Pool) (b : Nat) : Quiet s (s.restoreBlock P b).2 := by
  unfold Pool.restoreBlock
  split
  · exact .touchBlock P s b
  · exact .refl s

/-- Every well-formed call that copies nothing keeps the counters right. -/
theorem exec_conserves (hpos : 0 < min P.initialBlocks P.maxBlocks) (h : Stands P m a) (op : Op κ)
    (hwf : op.WellFormed m) (hcopy : CopiesNothing P m op) : Conserves P m op := by
  have hstands := h
  obtain ⟨hr, hs, hl⟩ := h
  cases op with
  | registerBlockFreedCallback => exact ⟨id, fun _ => .kept rfl fun _ _ => le_rfl⟩
  | allocateBlock =>
    exact conserves_kept (ends_thenFlush .all (Pool.allocateBlockInternal P) m)
      (allocateBlockInternal_kept hr hs)
  | getNewBlocks n =>
    exact conserves_kept (ends_locked .all (fun s => s.getNewBlocks P n) m) (getNewBlocks_kept hr hs n)
  | allocateBlocksForTokens n =>
    exact conserves_kept (ends_locked .all (fun s => s.getNewBlocks P _) m) (getNewBlocks_kept hr hs _)
  | touch bs =>
    exact conserves_kept (ends_locked ⟨1, 0, 1⟩ (fun s => ((), s.touch P bs)) m)
      (touch_kept hr hs hl fun b hb => (hr.made b).mpr (hwf b hb))
  | incrementRef b =>
    exact conserves_quiet (ends_locked .tableOnly (fun s => s.incrementRef P b) m)
      (incrementRef_quiet P _ b)
  | releaseForEviction bs =>
    exact conserves_quiet (ends_locked .tableOnly (fun s => s.releaseForEviction bs) m)
      (releaseForEviction_quiet _ bs)
  -- giving up references and reclaiming
  | freeBlock b => exact freeBlock_conserves hstands b
  | freeBlocksBatch bs =>
    obtain ⟨out, hd, hmem, hbal⟩ := freeBlocksBatch_books hr.queue hr.nodup hwf.1 hwf.2
    exact conserves_drawn (ends_thenFlush .all (fun s => s.freeBlocksBatch bs) m) hd hbal
      fun c hc => List.mem_filter.mpr (hmem c hc)
  | deleteBlockTable r => exact deleteBlockTable_conserves hstands r
  | evictLruBlocks n =>
    obtain ⟨out, hout, hd, -, hbal⟩ := evictLruBlocksLocked_books hr hs n
    exact conserves_drawn (ends_flush .all (fun s => s.evictLruBlocksLocked n) m) hd (hbal 0) hout
  | handleMemoryPressure n =>
    obtain ⟨out, hd, hout, hbal⟩ := handleMemoryPressure_books hr hs n
    exact conserves_drawn (ends_flush .all (fun s => s.handleMemoryPressure n) m) hd hbal
      fun b hb => List.mem_append.mpr (hout b hb)
  | evictBlockPermanently b =>
    exact conserves_kept (ends_locked .all (fun s => s.evictBlockPermanently b) m)
      (evictBlockPermanently_kept hr hs hl b)
  | evict key => exact evict_conserves hstands key
  | clear => exact clear_conserves hpos m
  | resetPrefixCache =>
    exact conserves_quiet (ends_locked ⟨0, 1, 1⟩ (fun s => s.resetPrefixCache P) m)
      (resetPrefixCache_quiet P _)
  -- the hash map
  | getCachedBlock k =>
    exact conserves_quiet (ends_locked .mapOnly (fun s => s.getCachedBlock P k) m)
      (getCachedBlock_quiet P _ k)
  | cacheFullBlocks bs ts nc nf k => exact cacheFullBlocks_conserves m bs ts nc nf k
  | getComputedBlocks ssd ts args claim =>
    refine conserves_kept (getComputedBlocks_result P m ssd ts args claim).2
      (getComputedBlocks_kept hr hs ssd ts args claim fun hclaim hssd b hb => ?_)
    simp [rewrites, hclaim, hssd, hb]
  | findSharedPrefix ssd ts args =>
    exact conserves_kept (getComputedBlocks_result P m ssd ts args false).2
      (getComputedBlocks_kept hr hs ssd ts args false nofun)
  | findCachedBlock ts p k =>
    exact conserves_quiet (ends_locked .mapOnly (fun s => s.findCachedBlock P ts p k) m)
      (findCachedBlock_quiet P _ ts p k)
  | registerBlockHash b ts p k =>
    exact conserves_quiet (ends_locked .mapOnly (fun s => ((), s.registerBlockHash P b ts p k)) m)
      (registerBlockHash_quiet P _ b ts p k)
  | store key b =>
    exact conserves_quiet (ends_locked .mapOnly (fun s => ((), s.store key b)) m)
      (.trans (.modify _ b rfl) (.insertHash _ key b))
  -- the tables
  | createBlockTable r =>
    exact conserves_quiet (ends_locked .tableOnly (fun s => ((), s.createBlockTable r)) m) (.setTable _ _)
  | getOrCreateBlockTable r =>
    exact conserves_quiet (ends_locked .tableOnly (fun s => s.getOrCreateBlockTable r) m)
      (getOrCreateBlockTable_quiet _ r)
  | detachRequestTable r =>
    exact conserves_quiet (ends_locked .tableOnly (fun s => s.detachRequestTable r) m)
      ⟨⟨rfl, rfl, rfl, rfl, rfl⟩, fun _ => rfl⟩
  | addBlockToTable r b n => exact addBlockToTable_conserves m r b n
  | forkBlockTable t r =>
    exact conserves_quiet (ends_locked ⟨1, 1, 0⟩ (fun s => ((), s.forkBlockTable P t r)) m)
      (forkBlockTable_quiet P _ t r)
  | getBlocksForGeneration r =>
    exact conserves_quiet (ends_thenFlush .all (fun s => s.getBlocksForGeneration P r) m)
      (getBlocksForGeneration_quiet hr r hcopy)
  | getStats =>
    have hbooks : Kept (fun b => rewrites P m (.getStats : Op κ) b = true) m.pool m.pool.getStats :=
      ⟨fun hb => ⟨hb.allocated, by simp [Pool.getStats, Pool.bump]⟩, rfl, fun _ _ => le_rfl⟩
    exact conserves_kept (ends_locked ⟨1, 0, 1⟩ (fun s => ((), s.getStats)) m) hbooks
  | resetStats => exact conserves_quiet .plain (.bump _ fun _ => ⟨rfl, rfl, rfl⟩)
  | markBlockCold b =>
    exact conserves_quiet (ends_locked .tableOnly (fun s => s.markBlockCold b) m)
      (markBlockCold_quiet _ b)
  | restoreBlock b =>
    exact conserves_quiet (ends_locked .tableOnly (fun s => s.restoreBlock P b) m)
      (restoreBlock_quiet P _ b)

/-- The manager with the blocks whose token count stands in the total: `add_block_to_table` wrote
it, and since then no call has subtracted it or written another. -/
structure Book where
  manager : Manager
  counted : Finset Nat

def recount (P : Params κ) (m : Manager) (op : Op κ) (counted : Finset Nat) : Finset Nat :=
  (counted.filter fun b => b ∉ subtracted m op ∧ rewrites P m op b = false) ∪ (adds m op).toFinset

def next (P : Params κ) (k : Book) (op : Op κ) : Book :=
  ⟨exec P k.manager op, recount P k.manager op k.counted⟩

def Conforms (P : Params κ) (k : Book) (op : Op κ) : Prop :=
  CopiesNothing P k.manager op ∧ ∀ b ∈ subtracted k.manager op,
    b ∈ k.counted ∨ (k.manager.pool.blocks b).tokenCount = 0

def standing (s : Pool) (counted : Finset Nat) : Int :=
  ∑ b ∈ counted, ((s.blocks b).tokenCount : Int)

theorem standing_mono {c c' : Finset Nat} (hc : c' ⊆ c)
    (htok : ∀ b ∈ c', (s'.blocks b).tokenCount ≤ (s.blocks b).tokenCount) :
    standing s' c' ≤ standing s c := by
  calc standing s' c' ≤ standing s c' := Finset.sum_le_sum fun b hb => by exact_mod_cast htok b hb
    _ ≤ standing s c := Finset.sum_le_sum_of_subset_of_nonneg hc fun b _ _ => Int.natCast_nonneg _

/-- A block that stays counted was not drawn, and its count was not raised. -/
theorem recounted {counted : Finset Nat} {b : Nat} (hadd : adds m op = none)
    (hb : b ∈ recount P m op counted) :
    b ∈ counted ∧ b ∉ subtracted m op ∧ rewrites P m op b = false := by
  rw [recount, hadd, Option.toFinset_none, Finset.union_empty, Finset.mem_filter] at hb
  exact hb

theorem recount_total {counted : Finset Nat} (heff : adds m op = none → Effect P m op)
    (hsub : ∀ b ∈ subtracted m op, b ∈ counted ∨ (m.pool.blocks b).tokenCount = 0)
    (h : standing m.pool counted ≤ m.pool.stats.totalTokensCached) :
    standing (exec P m op).pool (recount P m op counted) ≤
      (exec P m op).pool.stats.totalTokensCached := by
  cases hadd : adds m op with
  | some b =>
    obtain ⟨htotal, hother⟩ := adds_total (P := P) hadd
    set kept := counted.filter fun b => b ∉ subtracted m op ∧ rewrites P m op b = false with hkept
    have hinsert : recount P m op counted = insert b (kept.erase b) := by
      rw [recount, hadd, ← hkept]
      ext c
      by_cases hc : c = b <;> simp [hc]
    have hrest : standing (exec P m op).pool (kept.erase b) ≤ standing m.pool counted :=
      standing_mono ((Finset.erase_subset b kept).trans (Finset.filter_subset _ _))
        fun c hc => (hother c (Finset.ne_of_mem_erase hc)).le
    rw [htotal, hinsert, standing, Finset.sum_insert (Finset.notMem_erase b kept)]
    rw [standing] at hrest
    omega
  | none =>
    have hcounted : recount P m op counted ⊆ counted := fun b hb => (recounted hadd hb).1
    cases heff hadd with
    | kept htotal htokens =>
      rw [htotal]
      exact (standing_mono hcounted fun b hb => htokens b (recounted hadd hb).2.2).trans h
    | fresh htotal hzero =>
      rw [htotal]
      exact le_of_eq (Finset.sum_eq_zero fun b _ => by rw [hzero b]; rfl)
    | drawn out hd hout =>
      have hapart : ∀ b ∈ recount P m op counted, b ∉ out :=
        fun b hb hm => (recounted hadd hb).2.1 (hout b hm)
      have hrest : standing (exec P m op).pool (recount P m op counted) ≤
          standing m.pool (counted \ out.toFinset) := by
        refine standing_mono (fun b hb => ?_) fun b hb => (hd.tokens b (hapart b hb)).le
        exact Finset.mem_sdiff.mpr ⟨hcounted hb, by simpa using hapart b hb⟩
      have hdrawn : tokensOf m.pool out = standing m.pool (counted ∩ out.toFinset) := by
        have hsum : tokensOf m.pool out = standing m.pool out.toFinset :=
          (List.sum_toFinset _ hd.nodup).symm
        rw [hsum]
        refine (Finset.sum_subset Finset.inter_subset_right ?_).symm
        intro b hb hnot
        have hzero := (hsub b (hout b (List.mem_toFinset.mp hb))).resolve_left
          fun hc => hnot (Finset.mem_inter.mpr ⟨hc, hb⟩)
        rw [hzero]
        rfl
      have hsplit : standing m.pool (counted ∩ out.toFinset) +
          standing m.pool (counted \ out.toFinset) = standing m.pool counted :=
        Finset.sum_inter_add_sum_sdiff counted out.toFinset _
      rw [hd.total, hdrawn]
      omega

/-- The books of a run that starts with a new manager. -/
abbrev Books (P : Params κ) : Book → Prop :=
  Reached (fun k => Manager.init P = .ok k.manager ∧ k.counted = ∅)
    (fun k op => op.WellFormed k.manager ∧ Conforms P k op) (next P)

structure Sound (P : Params κ) (k : Book) : Prop where
  stands : ∃ a, Stands P k.manager a
  balanced : Balanced k.manager.pool 0
  standing : standing k.manager.pool k.counted ≤ k.manager.pool.stats.totalTokensCached

theorem books_sound {k : Book} (h : Books P k) :
    0 < min P.initialBlocks P.maxBlocks ∧ Sound P k := by
  refine h.invariant (I := fun k => 0 < min P.initialBlocks P.maxBlocks ∧ Sound P k) ?_ ?_
  · intro k hk
    obtain ⟨hinit, hnone⟩ := hk
    obtain ⟨hstands, hpos⟩ := stands_init hinit
    have hpool : Pool.init P = .ok k.manager.pool := by
      cases hs : Pool.init P with
      | error e =>
        simp only [Manager.init, hs, Except.map] at hinit
        cases hinit
      | ok s =>
        simp only [Manager.init, hs, Except.map, Except.ok.injEq] at hinit
        rw [← hinit]
    obtain ⟨hbal, htotal, -⟩ := init_books hpool
    refine ⟨hpos, ⟨_, hstands⟩, hbal, ?_⟩
    rw [htotal, hnone]
    exact le_of_eq Finset.sum_empty
  · intro k op _ hk hop
    obtain ⟨hpos, ⟨a, hst⟩, hbal, htotal⟩ := hk
    obtain ⟨hwf, hcopy, hsub⟩ := hop
    obtain ⟨hbal', heff⟩ := exec_conserves hpos hst op hwf hcopy
    obtain ⟨a', hst', -⟩ := exec_keeps (steady_true Rules.any) hpos hst trivial op hwf
      (allowed_any P k.manager a op)
    exact ⟨hpos, ⟨a', hst'⟩, hbal' hbal, recount_total heff hsub htotal⟩

/-- In every run that copies no block and subtracts only counts that stand in the total, the
counters are right and the total is not negative. -/
theorem counters_right {k : Book} (h : Books P k) :
    k.manager.pool.stats.allocatedBlocks = k.manager.pool.allocatedBlocks.length ∧
      k.manager.pool.stats.freeBlocks = k.manager.pool.freeBlockQueue.numFreeBlocks ∧
      0 ≤ k.manager.pool.stats.totalTokensCached := by
  obtain ⟨-, hs⟩ := books_sound h
  refine ⟨hs.balanced.allocated, by simpa using hs.balanced.free, ?_⟩
  exact (Finset.sum_nonneg fun b _ => Int.natCast_nonneg _).trans hs.standing

/-- A block that is put into a table and freed again, and a cached one that is reclaimed. -/
theorem counters_right_freed :
    let k := runList (next (tiny 2)) ⟨tinyStart 2, ∅⟩ [.allocateBlock, .createBlockTable "r",
      .cacheFullBlocks [1] [7] 0 1 none, .addBlockToTable (.tracked "r") 1 5, .allocateBlock,
      .addBlockToTable (.tracked "r") 2 3, .freeBlock 2, .allocateBlock, .releaseForEviction [1],
      .handleMemoryPressure 1]
    k.manager.pool.allocatedBlocks = [0, 2] ∧ k.manager.pool.stats.allocatedBlocks = 2 ∧
      0 ≤ k.manager.pool.stats.totalTokensCached := by
  intro k
  have hstart : Books (tiny 2) ⟨tinyStart 2, ∅⟩ :=
    .start ⟨init_started (tiny 2) (by simp [tiny]), rfl⟩
  have hall : k.manager.pool.allocatedBlocks = [0, 2] := by
    decide +kernel
  have hright := counters_right (hstart.runList (l := [.allocateBlock, .createBlockTable "r",
    .cacheFullBlocks [1] [7] 0 1 none, .addBlockToTable (.tracked "r") 1 5, .allocateBlock,
    .addBlockToTable (.tracked "r") 2 3, .freeBlock 2, .allocateBlock, .releaseForEviction [1],
    .handleMemoryPressure 1])
    ⟨⟨trivial, trivial, by decide +kernel⟩, ⟨trivial, trivial, by decide +kernel⟩,
      ⟨(by decide +kernel : ∀ b ∈ [1], b ∈ _), trivial, by decide +kernel⟩, ⟨trivial, trivial, by decide +kernel⟩,
      ⟨trivial, trivial, by decide +kernel⟩, ⟨trivial, trivial, by decide +kernel⟩,
      ⟨trivial, trivial, by decide +kernel⟩, ⟨trivial, trivial, by decide +kernel⟩,
      ⟨trivial, trivial, by decide +kernel⟩, ⟨trivial, trivial, by decide +kernel⟩, trivial⟩)
  refine ⟨hall, hright.1.trans ?_, hright.2.2⟩
  rw [hall]
  rfl

/-- A private copy is not counted as allocated. -/
theorem copy_not_counted :
    ¬ ∀ (n : Nat) (m : Manager), Reachable (tiny n) (fun _ _ => True) m →
      m.pool.stats.allocatedBlocks = m.pool.allocatedBlocks.length ∧
        m.pool.stats.freeBlocks = m.pool.freeBlockQueue.numFreeBlocks ∧
        0 ≤ m.pool.stats.totalTokensCached := by
  intro h
  have hcopy := h 2 _ (reachable_tinyRun 2 [.allocateBlock, .createBlockTable "r",
    .addBlockToTable (.tracked "r") 1 1, .incrementRef 1, .getBlocksForGeneration (.tracked "r")]
    ⟨⟨trivial, trivial⟩, ⟨trivial, trivial⟩, ⟨trivial, trivial⟩, ⟨trivial, trivial⟩,
      ⟨trivial, trivial⟩, trivial⟩)
  exact absurd hcopy.1 (by decide +kernel)

end FusionMlx.CounterRuns
