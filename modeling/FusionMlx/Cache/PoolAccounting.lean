import FusionMlx.Cache.EvictableBlocks
import FusionMlx.Cache.OwnedBlocks
import Mathlib.Algebra.Order.BigOperators.Group.Finset

/-!
# The pool's counters over every run

`stats` counts the allocated and the queued blocks by hand, and adds up the
token counts that were put into tables. The first two counts are right as long
as no block is copied on write. The total stays above zero as long as only
counts that were added are taken out of it.
-/
namespace FusionMlx.PoolAccounting

open BlockHashing FreeBlockQueue BlockPool ResourceLedger PoolRefinement
open FreeRefinement EvictRefinement ReclaimOrder EvictableBlocks

variable {κ : Type} {P : Params κ}
variable {s s' t : Pool} {a a' : Ledger Nat BlockHash}

/-- The counters are right, but for `k` freed blocks that are not queued yet. -/
structure Balanced (s : Pool) (k : Nat) : Prop where
  allocated : s.stats.allocatedBlocks = s.allocatedBlocks.length
  free : s.stats.freeBlocks = s.freeBlockQueue.numFreeBlocks + k

structure SameBooks (s s' : Pool) : Prop where
  allocated : s'.allocatedBlocks = s.allocatedBlocks
  queue : s'.freeBlockQueue = s.freeBlockQueue
  allocatedCount : s'.stats.allocatedBlocks = s.stats.allocatedBlocks
  freeCount : s'.stats.freeBlocks = s.stats.freeBlocks
  total : s'.stats.totalTokensCached = s.stats.totalTokensCached

namespace SameBooks

theorem refl (s : Pool) : SameBooks s s := ⟨rfl, rfl, rfl, rfl, rfl⟩

theorem trans (h : SameBooks s s') (h' : SameBooks s' t) : SameBooks s t :=
  ⟨h'.allocated.trans h.allocated, h'.queue.trans h.queue,
    h'.allocatedCount.trans h.allocatedCount, h'.freeCount.trans h.freeCount,
    h'.total.trans h.total⟩

theorem modify (s : Pool) (b : Nat) (f : CacheBlock → CacheBlock) : SameBooks s (s.modify b f) :=
  ⟨rfl, rfl, rfl, rfl, rfl⟩

theorem touchBlock (P : Params κ) (s : Pool) (b : Nat) : SameBooks s (s.touchBlock P b) :=
  ⟨rfl, rfl, rfl, rfl, rfl⟩

theorem popHash (s : Pool) (h : BlockHash) (b : Option Nat) : SameBooks s (s.popHash h b) :=
  ⟨rfl, rfl, rfl, rfl, rfl⟩

theorem insertHash (s : Pool) (h : BlockHash) (b : Nat) : SameBooks s (s.insertHash h b) :=
  ⟨rfl, rfl, rfl, rfl, rfl⟩

theorem notify (s : Pool) (b : Nat) : SameBooks s (s.notifyBlockContentInvalidated b) :=
  ⟨rfl, rfl, rfl, rfl, rfl⟩

theorem setTable (s : Pool) (u : BlockTable) : SameBooks s (s.setTable u) :=
  ⟨rfl, rfl, rfl, rfl, rfl⟩

theorem balanced (h : SameBooks s s') {k : Nat} (hb : Balanced s k) : Balanced s' k := by
  constructor
  · rw [h.allocatedCount, h.allocated]
    exact hb.allocated
  · rw [h.freeCount, h.queue]
    exact hb.free

end SameBooks

/-- The number of blocks a `bump` must leave alone: all but the unrelated statistics. -/
theorem sameBooks_bump (s : Pool) {f : PagedCacheStats → PagedCacheStats}
    (hf : ∀ u, (f u).allocatedBlocks = u.allocatedBlocks ∧ (f u).freeBlocks = u.freeBlocks ∧
      (f u).totalTokensCached = u.totalTokensCached) : SameBooks s (s.bump f) :=
  ⟨rfl, rfl, (hf s.stats).1, (hf s.stats).2.1, (hf s.stats).2.2⟩

/-- In addition no block's token count differs. -/
structure Quiet (s s' : Pool) : Prop extends SameBooks s s' where
  tokens : ∀ b, (s'.blocks b).tokenCount = (s.blocks b).tokenCount

namespace Quiet

theorem refl (s : Pool) : Quiet s s := ⟨.refl s, fun _ => rfl⟩

theorem trans (h : Quiet s s') (h' : Quiet s' t) : Quiet s t :=
  ⟨h.toSameBooks.trans h'.toSameBooks, fun b => (h'.tokens b).trans (h.tokens b)⟩

theorem modify (s : Pool) (b : Nat) {f : CacheBlock → CacheBlock}
    (hf : (f (s.blocks b)).tokenCount = (s.blocks b).tokenCount) : Quiet s (s.modify b f) := by
  refine ⟨.modify s b f, ?_⟩
  intro c
  by_cases hc : c = b
  · subst hc
    simpa [Pool.modify] using hf
  · simp [Pool.modify, hc]

theorem popHash (s : Pool) (h : BlockHash) (b : Option Nat) : Quiet s (s.popHash h b) :=
  ⟨.popHash s h b, fun _ => rfl⟩

theorem notify (s : Pool) (b : Nat) : Quiet s (s.notifyBlockContentInvalidated b) :=
  ⟨.notify s b, fun _ => rfl⟩

theorem insertHash (s : Pool) (h : BlockHash) (b : Nat) : Quiet s (s.insertHash h b) :=
  ⟨.insertHash s h b, fun _ => rfl⟩

theorem setTable (s : Pool) (u : BlockTable) : Quiet s (s.setTable u) := ⟨.setTable s u, fun _ => rfl⟩

theorem touchBlock (P : Params κ) (s : Pool) (b : Nat) : Quiet s (s.touchBlock P b) := by
  refine ⟨.touchBlock P s b, fun c => ?_⟩
  by_cases hc : c = b
  · simp [Pool.touchBlock, Pool.modify, hc]
  · simp [Pool.touchBlock, Pool.modify, hc]

theorem bump (s : Pool) {f : PagedCacheStats → PagedCacheStats}
    (hf : ∀ u, (f u).allocatedBlocks = u.allocatedBlocks ∧ (f u).freeBlocks = u.freeBlocks ∧
      (f u).totalTokensCached = u.totalTokensCached) : Quiet s (s.bump f) :=
  ⟨sameBooks_bump s hf, fun _ => rfl⟩

theorem clearOrphans (s : Pool) (work : List BlockHash) (L : List (BlockHash × Nat)) :
    Quiet s (Pool.clearOrphans s work L).1 := by
  induction L generalizing s work with
  | nil => exact .refl s
  | cons o L ih =>
    obtain ⟨h, b⟩ := o
    simp only [Pool.clearOrphans]
    split
    · exact ih s work
    · refine .trans (.trans (.trans (.popHash s h (some b)) (.modify _ b ?_)) (.notify _ b)) (ih _ _)
      rfl

theorem cascadeLoop (n : Nat) (work : List BlockHash) (s : Pool) :
    Quiet s (Pool.cascadeLoop n work s).2 := by
  induction n generalizing work s with
  | zero => exact .refl s
  | succ n ih =>
    cases work with
    | nil => exact .refl s
    | cons ph work => exact .trans (.clearOrphans s work (s.orphansOf ph)) (ih _ _)

theorem cascade (s : Pool) (h : BlockHash) : Quiet s (s.cascadeEvictOrphansLocked h).2 :=
  .cascadeLoop 256 [h] s

theorem dropContent (s : Pool) (b : Nat) : Quiet s (s.dropContent b) := by
  unfold Pool.dropContent
  split
  · exact .refl s
  · exact .trans (.trans (.popHash s _ (some b)) (.notify _ b)) (.cascade _ _)

end Quiet

def tokensOf (s : Pool) (bs : List Nat) : Int :=
  (bs.map fun b => ((s.blocks b).tokenCount : Int)).sum

variable {bs : List Nat}

theorem tokensOf_congr (h : ∀ b ∈ bs, (s'.blocks b).tokenCount = (s.blocks b).tokenCount) :
    tokensOf s' bs = tokensOf s bs := by
  unfold tokensOf
  rw [List.map_congr_left fun b hb => congrArg Nat.cast (h b hb)]

/-- The tokens of the blocks `out` were taken out of the total: each of them left the allocated
blocks, or was not allocated and lost its token count. -/
structure Drawn (s s' : Pool) (out : List Nat) : Prop where
  nodup : out.Nodup
  sublist : s'.allocatedBlocks.Sublist s.allocatedBlocks
  kept : ∀ b ∈ s.allocatedBlocks, b ∉ out → b ∈ s'.allocatedBlocks
  spent : ∀ b ∈ out, (b ∈ s.allocatedBlocks ∧ b ∉ s'.allocatedBlocks) ∨
    (b ∉ s.allocatedBlocks ∧ (s'.blocks b).tokenCount = 0)
  total : s'.stats.totalTokensCached = s.stats.totalTokensCached - tokensOf s out
  tokens : ∀ b, b ∉ out → (s'.blocks b).tokenCount = (s.blocks b).tokenCount

theorem Quiet.drawn (h : Quiet s s') : Drawn s s' [] where
  nodup := List.nodup_nil
  sublist := by
    rw [h.allocated]
  kept := by
    rw [h.allocated]
    exact fun b hb _ => hb
  spent := by simp
  total := by
    rw [h.total]
    simp [tokensOf]
  tokens := fun b _ => h.tokens b

variable {out : List Nat}

theorem Drawn.trans {out' : List Nat} (h : Drawn s s' out) (h' : Drawn s' t out')
    (hapart : ∀ b ∈ out', b ∉ out) : Drawn s t (out ++ out') := by
  constructor
  · refine List.nodup_append.mpr ⟨h.nodup, h'.nodup, ?_⟩
    intro b hb c hc hbc
    exact hapart c hc (hbc ▸ hb)
  · exact h'.sublist.trans h.sublist
  · intro b hb hout
    rw [List.mem_append, not_or] at hout
    exact h'.kept b (h.kept b hb hout.1) hout.2
  · intro b hb
    by_cases hm : b ∈ out
    · have hnot : b ∉ out' := fun hb' => hapart b hb' hm
      rcases h.spent b hm with ⟨hin, hgone⟩ | ⟨hin, hzero⟩
      · exact Or.inl ⟨hin, fun hb' => hgone (h'.sublist.subset hb')⟩
      · exact Or.inr ⟨hin, (h'.tokens b hnot).trans hzero⟩
    · have hm' : b ∈ out' := (List.mem_append.mp hb).resolve_left hm
      rcases h'.spent b hm' with ⟨hin, hgone⟩ | ⟨hin, hzero⟩
      · exact Or.inl ⟨h.sublist.subset hin, hgone⟩
      · exact Or.inr ⟨fun hb' => hin (h.kept b hb' hm), hzero⟩
  · have hsame : tokensOf s' out' = tokensOf s out' :=
      tokensOf_congr fun b hb => h.tokens b (hapart b hb)
    rw [h'.total, h.total, hsame]
    simp only [tokensOf, List.map_append, List.sum_append]
    omega
  · intro b hb
    rw [List.mem_append, not_or] at hb
    rw [h'.tokens b hb.2, h.tokens b hb.1]

/-- Blocks that are allocated when they are drawn were not drawn before. -/
theorem Drawn.apart {out' : List Nat} (h : Drawn s s' out)
    (h' : ∀ b ∈ out', b ∈ s'.allocatedBlocks) : ∀ b ∈ out', b ∉ out := by
  intro b hb hm
  rcases h.spent b hm with ⟨-, hgone⟩ | ⟨hin, -⟩
  · exact hgone (h' b hb)
  · exact hin (h.sublist.subset (h' b hb))

theorem Drawn.quiet_left (h : Quiet s s') (h' : Drawn s' t out) :
    Drawn s t out := by
  simpa using h.drawn.trans h' (by simp)

theorem Drawn.quiet_right (h : Drawn s s' out) (h' : Quiet s' t) :
    Drawn s t out := by
  simpa using h.trans h'.drawn (by simp)

variable {b : Nat}

theorem length_delAllocated (hnd : s.allocatedBlocks.Nodup) (hb : b ∈ s.allocatedBlocks) :
    (s.delAllocated b).allocatedBlocks.length + 1 = s.allocatedBlocks.length := by
  have herase : s.allocatedBlocks.filter (· ≠ b) = s.allocatedBlocks.erase b := by
    rw [hnd.erase_eq_filter]
    congr 1
    funext c
    by_cases hc : c = b <;> simp [hc]
  have hpos := List.length_pos_of_mem hb
  simp only [Pool.delAllocated, herase, List.length_erase_of_mem hb]
  omega

/-- Taking a block out of the allocated ones, with its tokens. -/
theorem drawn_delAllocated (hb : b ∈ s.allocatedBlocks)
    (hdel : s'.allocatedBlocks = (s.delAllocated b).allocatedBlocks)
    (htotal : s'.stats.totalTokensCached = s.stats.totalTokensCached - (s.blocks b).tokenCount)
    (htokens : ∀ c, c ≠ b → (s'.blocks c).tokenCount = (s.blocks c).tokenCount) :
    Drawn s s' [b] := by
  constructor
  · exact List.nodup_singleton b
  · rw [hdel]
    exact List.filter_sublist
  · intro c hc hne
    rw [List.mem_singleton] at hne
    simp [hdel, Pool.delAllocated, hc, hne]
  · intro c hc
    rw [List.mem_singleton] at hc
    subst hc
    exact Or.inl ⟨hb, by simp [hdel, Pool.delAllocated]⟩
  · rw [htotal, tokensOf, List.map_singleton, List.sum_singleton]
  · intro c hc
    rw [List.mem_singleton] at hc
    exact htokens c hc

variable {xs : List Nat}

theorem numFree_append {q : FreeKVCacheBlockQueue} (h : q.Holds xs) (b : Nat) :
    (q.append b).numFreeBlocks = q.numFreeBlocks + 1 := by
  obtain ⟨-, last, -, hlast⟩ := h.prev_tail
  unfold FreeKVCacheBlockQueue.append
  rw [hlast]

theorem numFree_appendN {q : FreeKVCacheBlockQueue} (h : q.Holds xs)
    (bs : List Nat) : (q.appendN bs).numFreeBlocks = q.numFreeBlocks + bs.length := by
  by_cases hbs : bs = []
  · simp [FreeKVCacheBlockQueue.appendN, hbs]
  · obtain ⟨-, last, -, hlast⟩ := h.prev_tail
    unfold FreeKVCacheBlockQueue.appendN
    rw [if_neg hbs, hlast]

def lastReference (s : Pool) (n b : Nat) : Bool :=
  b ∈ s.allocatedBlocks ∧ ¬ (s.blocks b).isNull ∧ (s.blocks b).refCount ≤ n

inductive FreeBooks (s : Pool) (b : Nat) : Except PyError Bool × Pool → Prop
  | last {s' : Pool} (one : lastReference s 1 b) (drawn : Drawn s s' [b])
      (queue : s'.freeBlockQueue = s.freeBlockQueue)
      (balanced : ∀ k, Balanced s k → Balanced s' (k + 1)) : FreeBooks s b (.ok true, s')
  | other {s' : Pool} (quiet : Quiet s s') : FreeBooks s b (.ok false, s')

/-- The last reference takes the block out, still unqueued. -/
theorem freeBlockLocked_books (hnd : s.allocatedBlocks.Nodup)
    (hb : b ∈ s.allocatedBlocks) : FreeBooks s b (s.freeBlockLocked b) := by
  unfold Pool.freeBlockLocked
  by_cases hnull : (s.blocks b).isNull = true
  · rw [if_pos hnull]
    exact .other (.refl s)
  · rw [if_neg hnull]
    set s₁ := s.modify b (fun c => c.setRef (c.refCount - 1)) with hs₁
    have hq₁ : Quiet s s₁ := .modify s b rfl
    by_cases hpos : (s₁.blocks b).refCount > 0
    · simp only [if_pos hpos]
      exact .other hq₁
    · simp only [if_neg hpos]
      have hq₂ : Quiet s (s₁.dropContent b) := hq₁.trans (.dropContent s₁ b)
      have hb₂ : b ∈ (s₁.dropContent b).allocatedBlocks := by
        rw [hq₂.allocated]
        exact hb
      rw [if_pos hb₂]
      apply FreeBooks.last
      · have hle : (s.blocks b).refCount ≤ 1 := by
          simp only [hs₁, Pool.modify, Function.update_self, CacheBlock.setRef] at hpos
          omega
        simp [lastReference, hb, hnull, hle]
      · exact .quiet_left hq₂ (drawn_delAllocated hb₂ rfl rfl fun _ _ => rfl)
      · exact hq₂.queue
      · intro k hk
        have hk₂ := hq₂.balanced hk
        have hlen := length_delAllocated (hq₂.allocated ▸ hnd) hb₂
        constructor
        · have := hk₂.allocated
          simp only [Pool.bump, Pool.delAllocated] at hlen ⊢
          omega
        · have := hk₂.free
          simp only [Pool.bump, Pool.delAllocated] at hlen ⊢
          omega

theorem lastReference_held {n : Nat} (h : lastReference s n b = true) : b ∈ s.allocatedBlocks := by
  simp only [lastReference, decide_eq_true_eq] at h
  exact h.1

theorem freeBlock_books (hq : s.freeBlockQueue.Holds xs)
    (hnd : s.allocatedBlocks.Nodup) (b : Nat) :
    ∃ out, Drawn s (s.freeBlock b).2 out ∧ (∀ c ∈ out, c = b ∧ lastReference s 1 b = true) ∧
      (Balanced s 0 → Balanced (s.freeBlock b).2 0) := by
  unfold Pool.freeBlock
  by_cases hb : b ∈ s.allocatedBlocks
  · rw [if_pos hb]
    have hbooks := freeBlockLocked_books hnd hb
    generalize s.freeBlockLocked b = r at hbooks ⊢
    cases hbooks with
    | last hone hd hqueue hbal =>
      refine ⟨[b], ⟨hd.nodup, hd.sublist, hd.kept, hd.spent, hd.total, hd.tokens⟩, by simpa using hone, ?_⟩
      intro h
      have h₁ := hbal 0 h
      constructor
      · exact h₁.allocated
      · have hfree := h₁.free
        simp only [Pool.enqueue]
        rw [numFree_append (hqueue ▸ hq)]
        simpa using hfree
    | other hquiet => exact ⟨[], hquiet.drawn, by simp, hquiet.balanced⟩
  · rw [if_neg hb]
    exact ⟨[], (Quiet.refl s).drawn, by simp, id⟩

/-- Freeing a block leaves the references of the others. -/
theorem freeBlockLocked_others (s : Pool) {c : Nat} (hc : c ≠ b) :
    ((s.freeBlockLocked b).2.blocks c).refCount = (s.blocks c).refCount ∧
      ((s.freeBlockLocked b).2.blocks c).isNull = (s.blocks c).isNull := by
  unfold Pool.freeBlockLocked
  split
  · exact ⟨rfl, rfl⟩
  · have hmodify : ((s.modify b (fun d => d.setRef (d.refCount - 1))).blocks c) = s.blocks c := by
      simp [Pool.modify, hc]
    dsimp only
    split
    · rw [hmodify]
      exact ⟨rfl, rfl⟩
    · next hpos =>
      obtain ⟨_, hev⟩ := OwnedBlocks.dropContent_evicts (Int.not_lt.mp hpos)
      have hsame := And.intro (hev.refs c) (hev.null c)
      rw [hmodify] at hsame
      split
      · exact hsame
      · exact hsame

theorem lastReference_mono {n : Nat} {c : Nat} (hsub : s'.allocatedBlocks.Sublist s.allocatedBlocks)
    (hrefs : (s'.blocks c).refCount = (s.blocks c).refCount)
    (hnull : (s'.blocks c).isNull = (s.blocks c).isNull) (h : lastReference s' n c = true) :
    lastReference s n c = true := by
  simp only [lastReference, decide_eq_true_eq, hrefs, hnull] at h ⊢
  exact ⟨hsub.subset h.1, h.2⟩

/-- Freeing distinct allocated blocks, not queued yet. -/
theorem freeEach_books (hnd : s.allocatedBlocks.Nodup) (hbs : bs.Nodup)
    (hb : ∀ b ∈ bs, b ∈ s.allocatedBlocks) :
    ∃ out, (s.freeEach bs).1 = .ok out ∧ (∀ b ∈ out, b ∈ bs ∧ lastReference s 1 b = true) ∧
      Drawn s (s.freeEach bs).2 out ∧
      (s.freeEach bs).2.freeBlockQueue = s.freeBlockQueue ∧
      ∀ k, Balanced s k → Balanced (s.freeEach bs).2 (k + out.length) := by
  induction bs generalizing s with
  | nil => exact ⟨[], rfl, by simp, (Quiet.refl s).drawn, rfl, fun k h => h⟩
  | cons b bs ih =>
    obtain ⟨hnot, hbs'⟩ := List.nodup_cons.mp hbs
    have hbooks := freeBlockLocked_books hnd (hb b (by simp))
    have hothers : ∀ c ∈ bs, _ := fun c hc =>
      freeBlockLocked_others s (b := b) (c := c) (fun hcb => hnot (hcb ▸ hc))
    simp only [Pool.freeEach]
    generalize s.freeBlockLocked b = r at hbooks hothers ⊢
    cases hbooks with
    | @last t hone hd hqueue hbal =>
      have hb' : ∀ c ∈ bs, c ∈ t.allocatedBlocks := by
        intro c hc
        refine hd.kept c (hb c (by simp [hc])) ?_
        rw [List.mem_singleton]
        rintro rfl
        exact hnot hc
      obtain ⟨out, hres, hout, hd', hqueue', hbal'⟩ := ih (hd.sublist.nodup hnd) hbs' hb'
      dsimp only
      generalize t.freeEach bs = r' at hres hd' hqueue' hbal' ⊢
      obtain ⟨res, u⟩ := r'
      simp only at hres hd' hqueue' hbal'
      subst hres
      refine ⟨b :: out, rfl, ?_, ?_, hqueue'.trans hqueue, ?_⟩
      · intro c hc
        rcases List.mem_cons.mp hc with rfl | hc
        · exact ⟨List.mem_cons_self, hone⟩
        · obtain ⟨hin, hlast⟩ := hout c hc
          exact ⟨List.mem_cons_of_mem b hin,
            lastReference_mono hd.sublist (hothers c hin).1 (hothers c hin).2 hlast⟩
      · refine hd.trans hd' ?_
        intro c hc
        rw [List.mem_singleton]
        rintro rfl
        exact hnot (hout c hc).1
      · intro k hk
        have := hbal' (k + 1) (hbal k hk)
        rwa [Nat.add_assoc, Nat.add_comm 1] at this
    | @other t hquiet =>
      have hb' : ∀ c ∈ bs, c ∈ t.allocatedBlocks := by
        intro c hc
        rw [hquiet.allocated]
        exact hb c (by simp [hc])
      obtain ⟨out, hres, hout, hd', hqueue', hbal'⟩ := ih (hquiet.allocated ▸ hnd) hbs' hb'
      dsimp only
      generalize t.freeEach bs = r' at hres hd' hqueue' hbal' ⊢
      obtain ⟨res, u⟩ := r'
      simp only at hres hd' hqueue' hbal'
      subst hres
      refine ⟨out, rfl, ?_, .quiet_left hquiet hd', hqueue'.trans hquiet.queue, ?_⟩
      · intro c hc
        obtain ⟨hin, hlast⟩ := hout c hc
        exact ⟨List.mem_cons_of_mem b hin, lastReference_mono (hquiet.allocated ▸ List.Sublist.refl _)
          (hothers c hin).1 (hothers c hin).2 hlast⟩
      · exact fun k hk => hbal' k (hquiet.balanced hk)

theorem freeBlocksBatch_books (hq : s.freeBlockQueue.Holds xs)
    (hnd : s.allocatedBlocks.Nodup) (hbs : bs.Nodup)
    (hb : ∀ b ∈ bs, b ∈ s.allocatedBlocks) :
    ∃ out, Drawn s (s.freeBlocksBatch bs).2 out ∧
      (∀ c ∈ out, c ∈ bs ∧ lastReference s 1 c = true) ∧
      (Balanced s 0 → Balanced (s.freeBlocksBatch bs).2 0) := by
  obtain ⟨out, hres, hout, hd, hqueue, hbal⟩ := freeEach_books hnd hbs hb
  unfold Pool.freeBlocksBatch
  generalize s.freeEach bs = r at hres hd hqueue hbal ⊢
  obtain ⟨res, t⟩ := r
  simp only at hres hd hqueue hbal
  subst hres
  refine ⟨out, ⟨hd.nodup, hd.sublist, hd.kept, hd.spent, hd.total, hd.tokens⟩, hout, ?_⟩
  intro h
  have h₁ := hbal 0 h
  constructor
  · exact h₁.allocated
  · have hfree := h₁.free
    simp only
    rw [numFree_appendN (hqueue ▸ hq)]
    simpa using hfree

def emptied (s : Pool) (b : Nat) : Pool :=
  (((s.bump (fun t =>
    { t with totalTokensCached := t.totalTokensCached - (s.blocks b).tokenCount })).modify b
      CacheBlock.resetHash).notifyBlockContentInvalidated b).modify b
        (fun c => { c with tokenCount := 0 })

theorem stripBlock_eq (s : Pool) (b : Nat) :
    s.stripBlock b = if b ∈ s.allocatedBlocks then
      ((emptied s b).delAllocated b).bump (fun t => { t with allocatedBlocks := t.allocatedBlocks - 1 })
      else emptied s b := rfl

theorem emptied_tokens (s : Pool) (b c : Nat) :
    ((emptied s b).blocks c).tokenCount = if c = b then 0 else (s.blocks c).tokenCount := by
  by_cases hc : c = b <;>
    simp [emptied, Pool.modify, Pool.notifyBlockContentInvalidated, Pool.bump, hc]

theorem stripBlock_books (hnd : s.allocatedBlocks.Nodup) (hb : b ∈ s.allocatedBlocks) :
    Drawn s (s.stripBlock b) [b] ∧ (s.stripBlock b).freeBlockQueue = s.freeBlockQueue ∧
      (s.stripBlock b).stats.freeBlocks = s.stats.freeBlocks ∧
      (s.stats.allocatedBlocks = s.allocatedBlocks.length →
        (s.stripBlock b).stats.allocatedBlocks = (s.stripBlock b).allocatedBlocks.length) := by
  rw [stripBlock_eq, if_pos hb]
  refine ⟨?_, rfl, rfl, ?_⟩
  · refine drawn_delAllocated hb rfl rfl ?_
    intro c hc
    exact (emptied_tokens s b c).trans (if_neg hc)
  · intro h
    have hlen := length_delAllocated hnd hb
    have hcount : (emptied s b).stats.allocatedBlocks = s.stats.allocatedBlocks := rfl
    have hsame : ((emptied s b).delAllocated b).allocatedBlocks =
        (s.delAllocated b).allocatedBlocks := rfl
    simp only [Pool.bump, hsame]
    simp only [Pool.delAllocated] at hlen hcount ⊢
    omega

/-- A block that is not allocated loses its token count, and the total does. -/
theorem stripBlock_queued (hb : b ∉ s.allocatedBlocks) :
    Drawn s (s.stripBlock b) [b] ∧ (s.stripBlock b).allocatedBlocks = s.allocatedBlocks ∧
      (s.stripBlock b).freeBlockQueue = s.freeBlockQueue ∧
      ∀ k, Balanced s k → Balanced (s.stripBlock b) k := by
  rw [stripBlock_eq, if_neg hb]
  refine ⟨?_, rfl, rfl, fun k hk => ⟨hk.allocated, hk.free⟩⟩
  constructor
  · exact List.nodup_singleton b
  · exact List.Sublist.refl _
  · exact fun c hc _ => hc
  · intro c hc
    rw [List.mem_singleton] at hc
    subst hc
    exact Or.inr ⟨hb, (emptied_tokens s c c).trans (if_pos rfl)⟩
  · rw [tokensOf, List.map_singleton, List.sum_singleton]
    rfl
  · intro c hc
    rw [List.mem_singleton] at hc
    exact (emptied_tokens s b c).trans (if_neg hc)

/-- Evicting a queued block draws its tokens; it stays queued. -/
theorem evictLruOne_books (hb : b ∉ s.allocatedBlocks) :
    Drawn s (s.evictLruOne b) [b] ∧ (s.evictLruOne b).allocatedBlocks = s.allocatedBlocks ∧
      ∀ k, Balanced s k → Balanced (s.evictLruOne b) k := by
  have hbump : ∀ t : Pool, Quiet t (t.bump fun u => { u with evictions := u.evictions + 1 }) :=
    fun t => ⟨sameBooks_bump t fun _ => ⟨rfl, rfl, rfl⟩, fun _ => rfl⟩
  have hstrip : ∀ t : Pool, Quiet s t → Drawn s (t.stripBlock b) [b] ∧
      (t.stripBlock b).allocatedBlocks = s.allocatedBlocks ∧
      ∀ k, Balanced s k → Balanced (t.stripBlock b) k := by
    intro t ht
    obtain ⟨hd, hall, -, hbal⟩ := stripBlock_queued (s := t) (ht.allocated ▸ hb)
    exact ⟨.quiet_left ht hd, hall.trans ht.allocated, fun k hk => hbal k (ht.balanced hk)⟩
  unfold Pool.evictLruOne
  cases (s.blocks b).blockHash with
  | none =>
    obtain ⟨hd, hall, hbal⟩ := hstrip s (.refl s)
    have hq := hbump (s.stripBlock b)
    exact ⟨hd.quiet_right hq, hall, fun k hk => hq.balanced (hbal k hk)⟩
  | some h =>
    obtain ⟨hd, hall, hbal⟩ := hstrip (s.popHash h none) (.popHash s h none)
    have hq := (hbump ((s.popHash h none).stripBlock b)).trans (.cascade _ h)
    exact ⟨hd.quiet_right hq, hq.allocated.trans hall, fun k hk => hq.balanced (hbal k hk)⟩

/-- The eviction from the queue draws the tokens of the first blocks in it. -/
theorem evictLruLoop_books (h : Refines P s a) (hs : a.Sound 0) (num e : Int)
    (hbs : bs.Nodup) (hb : ∀ b ∈ bs, b ∈ a.free) :
    ∃ out, (∀ b ∈ out, b ∈ bs.take (num - e).toNat) ∧ Drawn s (Pool.evictLruLoop num bs e s).2 out ∧
      (Pool.evictLruLoop num bs e s).2.allocatedBlocks = s.allocatedBlocks ∧
      ∀ k, Balanced s k → Balanced (Pool.evictLruLoop num bs e s).2 k := by
  induction bs generalizing s a e with
  | nil => exact ⟨[], by simp, (Quiet.refl s).drawn, rfl, fun k h => h⟩
  | cons b bs ih =>
    obtain ⟨hnot, hbs'⟩ := List.nodup_cons.mp hbs
    unfold Pool.evictLruLoop
    by_cases he : e ≥ num
    · rw [if_pos he]
      exact ⟨[], by simp, (Quiet.refl s).drawn, rfl, fun k h => h⟩
    · rw [if_neg he]
      have hfree := hb b (by simp)
      rw [if_neg (evictable_of_free h hs hfree)]
      have hout : b ∉ s.allocatedBlocks := fun hm => hs.freeHeld b hfree ((h.held b).mpr hm)
      obtain ⟨hd, hall, hbal⟩ := evictLruOne_books hout
      obtain ⟨a₁, h₁, hm₁, hf₁⟩ := evictLruOne_refines h hs (R := Rules.any) trivial hfree
        (fun _ _ => Or.inl trivial)
      obtain ⟨out, hmem, hd', hall', hbal'⟩ := ih h₁ (hm₁.sound hs) (e + 1) hbs'
        (fun c hc => hf₁.free ▸ hb c (by simp [hc]))
      have hsucc : (num - e).toNat = (num - (e + 1)).toNat + 1 := by omega
      refine ⟨b :: out, ?_, hd.trans hd' ?_, hall'.trans hall, fun k hk => hbal' k (hbal k hk)⟩
      · rw [hsucc, List.take_succ_cons]
        intro c hc
        rcases List.mem_cons.mp hc with rfl | hc
        · exact List.mem_cons_self
        · exact List.mem_cons_of_mem b (hmem c hc)
      · intro c hc
        rw [List.mem_singleton]
        rintro rfl
        exact hnot (List.mem_of_mem_take (hmem c hc))

theorem evictLruBlocksLocked_books (h : Refines P s a) (hs : a.Sound 0) (num : Int) :
    ∃ out, (∀ b ∈ out, b ∈ s.queueIds.take num.toNat) ∧
      Drawn s (s.evictLruBlocksLocked num).2 out ∧
      (s.evictLruBlocksLocked num).2.allocatedBlocks = s.allocatedBlocks ∧
      ∀ k, Balanced s k → Balanced (s.evictLruBlocksLocked num).2 k := by
  have hids := queueIds_eq h hs
  have hloop := evictLruLoop_books h hs num 0 (hids ▸ hs.freeNodup) (fun b hb => hids ▸ hb)
  rwa [Int.sub_zero] at hloop

/-- Reclaiming an allocated block draws its tokens and queues it. -/
theorem reclaimOne_books (hq : s.freeBlockQueue.Holds xs)
    (hnd : s.allocatedBlocks.Nodup) (hb : b ∈ s.allocatedBlocks) :
    Drawn s (s.reclaimOne b) [b] ∧ ∀ k, Balanced s k → Balanced (s.reclaimOne b) k := by
  have hmain : ∀ t : Pool, Quiet s t →
      Drawn s ((((t.stripBlock b).bump (fun u => { u with freeBlocks := u.freeBlocks + 1 })).enqueue
        b).bump (fun u => { u with evictions := u.evictions + 1 })) [b] ∧
      ∀ k, Balanced s k → Balanced ((((t.stripBlock b).bump
        (fun u => { u with freeBlocks := u.freeBlocks + 1 })).enqueue b).bump
          (fun u => { u with evictions := u.evictions + 1 })) k := by
    intro t ht
    have hbt : b ∈ t.allocatedBlocks := by
      rw [ht.allocated]
      exact hb
    obtain ⟨hd, hqueue, hfree, hall⟩ := stripBlock_books (ht.allocated ▸ hnd) hbt
    have hd' : Drawn s (t.stripBlock b) [b] := .quiet_left ht hd
    refine ⟨⟨hd'.nodup, hd'.sublist, hd'.kept, hd'.spent, hd'.total, hd'.tokens⟩, ?_⟩
    intro k hk
    have hkt := ht.balanced hk
    constructor
    · exact hall hkt.allocated
    · have hnum : ((t.stripBlock b).freeBlockQueue.append b).numFreeBlocks =
          t.freeBlockQueue.numFreeBlocks + 1 := by
        rw [hqueue, ht.queue]
        exact numFree_append hq b
      have := hkt.free
      simp only [Pool.bump, Pool.enqueue, hnum, hfree]
      omega
  unfold Pool.reclaimOne
  cases (s.blocks b).blockHash with
  | none => exact hmain s (.refl s)
  | some h => exact hmain (s.popHash h (some b)) (.popHash s h (some b))

theorem evictCachedLoop_books (h : Refines P s a) (hs : a.Sound 0) (num e : Int)
    (hbs : bs.Nodup) (hb : ∀ b ∈ bs, b ∈ a.held ∧ b ≠ 0 ∧ a.refs b ≤ 0) :
    ∃ out, Drawn s (Pool.evictCachedLoop num bs e s).2 out ∧
      (∀ b ∈ out, b ∈ s.allocatedBlocks ∧ b ∈ bs.take (num - e).toNat) ∧
      ∀ k, Balanced s k → Balanced (Pool.evictCachedLoop num bs e s).2 k := by
  induction bs generalizing s a e with
  | nil => exact ⟨[], (Quiet.refl s).drawn, by simp, fun k h => h⟩
  | cons b bs ih =>
    obtain ⟨hnot, hbs'⟩ := List.nodup_cons.mp hbs
    unfold Pool.evictCachedLoop
    by_cases he : e ≥ num
    · rw [if_pos he]
      exact ⟨[], (Quiet.refl s).drawn, by simp, fun k h => h⟩
    · rw [if_neg he]
      obtain ⟨hheld, hne, hr⟩ := hb b (by simp)
      have hin : b ∈ s.allocatedBlocks := (h.held b).mp hheld
      obtain ⟨hd, hbal⟩ := reclaimOne_books h.queue h.nodup hin
      obtain ⟨a₁, h₁, hm₁, hrec⟩ := reclaimOne_refines h hs (R := Rules.any) trivial hheld hne hr
      have hb₁ : ∀ c ∈ bs, c ∈ a₁.held ∧ c ≠ 0 ∧ a₁.refs c ≤ 0 := by
        intro c hc
        obtain ⟨hch, hc0, hcr⟩ := hb c (by simp [hc])
        rw [hrec.held, hrec.refs]
        refine ⟨⟨hch, ?_⟩, hc0, hcr⟩
        rintro rfl
        exact hnot hc
      -- what the rest of the loop does from a state with the same books
      have hrest : ∀ (t : Pool) (a₂ : Ledger Nat BlockHash) (e' : Int), e + 1 ≤ e' →
          Quiet (s.reclaimOne b) t → Refines P t a₂ → a₂.Sound 0 → a₂.held = a₁.held →
          a₂.refs = a₁.refs → ∃ out, Drawn s (Pool.evictCachedLoop num bs e' t).2 out ∧
            (∀ c ∈ out, c ∈ s.allocatedBlocks ∧ c ∈ (b :: bs).take (num - e).toNat) ∧
            ∀ k, Balanced s k → Balanced (Pool.evictCachedLoop num bs e' t).2 k := by
        intro t a₂ e' he' hq h₂ hs₂ hheld₂ hrefs₂
        obtain ⟨out, hd', hmem, hbal'⟩ := ih h₂ hs₂ e' hbs' (by rwa [hheld₂, hrefs₂])
        have hdt : Drawn s t [b] := hd.quiet_right hq
        obtain ⟨n, hn⟩ : ∃ n, (num - e).toNat = n + 1 := ⟨(num - e).toNat - 1, by omega⟩
        refine ⟨b :: out, hdt.trans hd' (hdt.apart fun c hc => (hmem c hc).1), ?_, ?_⟩
        · rw [hn, List.take_succ_cons]
          intro c hc
          rcases List.mem_cons.mp hc with rfl | hc
          · exact ⟨hin, List.mem_cons_self⟩
          · obtain ⟨hheldc, htake⟩ := hmem c hc
            exact ⟨hdt.sublist.subset hheldc, List.mem_cons_of_mem b
              ((List.take_sublist_take_left (by omega)).subset htake)⟩
        · exact fun k hk => hbal' k (hq.balanced (hbal k hk))
      cases hk : (s.blocks b).blockHash with
      | none => exact hrest _ a₁ (e + 1) le_rfl (.refl _) h₁ (hm₁.sound hs) rfl rfl
      | some k =>
        obtain ⟨a₂, h₂, hm₂, hp₂⟩ := cascade_refines h₁ (hm₁.sound hs) (R := Rules.any) (k := k)
          (Or.inl ⟨trivial, trivial⟩)
        exact hrest _ a₂ _ (by omega) (.cascade _ k) h₂ (hm₂.sound (hm₁.sound hs)) hp₂.held hp₂.refs

theorem evictCachedBlocksLocked_books (h : Refines P s a) (hs : a.Sound 0) (num : Int) :
    ∃ out, Drawn s (s.evictCachedBlocksLocked num).2 out ∧
      (∀ b ∈ out, b ∈ s.allocatedBlocks ∧ b ∈ s.evictionCandidates.take num.toNat) ∧
      ∀ k, Balanced s k → Balanced (s.evictCachedBlocksLocked num).2 k := by
  unfold Pool.evictCachedBlocksLocked
  by_cases hz : num ≤ 0
  · rw [if_pos hz]
    exact ⟨[], (Quiet.refl s).drawn, by simp, fun k h => h⟩
  · rw [if_neg hz]
    have hloop := evictCachedLoop_books h hs num 0 (evictionCandidates_nodup h) ?_
    · rwa [Int.sub_zero] at hloop
    intro b hb
    obtain ⟨hh, hr, hne, -⟩ := (mem_evictionCandidates h b).mp hb
    exact ⟨hh, hne, hr⟩

/-- The cached blocks that memory pressure reclaims to have `n` free ones: the first of the evictable
ones, or any where the eviction from the queue has orphaned one before. -/
def reclaimable (s : Pool) (n : Int) : List Nat :=
  let k := (n - s.freeBlockQueue.numFreeBlocks).toNat
  if (s.queueIds.take k).any (hasOrphans s) then s.evictionCandidates
  else s.evictionCandidates.take k

/-- The eviction from the queue leaves the evictable blocks, but for those it orphans. -/
theorem reclaimable_of_evicted (h : Refines P s a) (hs : a.Sound 0) {n : Int} {b : Nat}
    (hb : b ∈ (s.evictLruBlocksLocked (n - s.freeBlockQueue.numFreeBlocks)).2.evictionCandidates.take
      (n - s.freeBlockQueue.numFreeBlocks).toNat) : b ∈ reclaimable s n := by
  have hids := queueIds_eq h hs
  unfold reclaimable
  dsimp only
  split
  · obtain ⟨a₁, h₁, -, hf⟩ := evictLruBlocksLocked_refines h hs (R := Rules.any) trivial
      (n - s.freeBlockQueue.numFreeBlocks) (fun _ _ _ _ => Or.inl trivial)
    obtain ⟨hheld, hrefs, hne, hkey⟩ := (mem_evictionCandidates h₁ b).mp (List.mem_of_mem_take hb)
    refine (mem_evictionCandidates h b).mpr ⟨hf.held ▸ hheld, hf.refs ▸ hrefs, hne, ?_⟩
    rcases hf.key b with hsame | hgone
    · exact hsame.1 ▸ hkey
    · exact absurd hgone.1 hkey
  · next hno =>
    rw [(evictLruBlocksLocked_unthinned h hs _ fun c hc k hk => ?_).candidates_eq] at hb
    · exact hb
    · refine noOrphans_of_not_hasOrphans h (fun hor => hno ?_) hk
      exact List.any_eq_true.mpr ⟨c, hids ▸ hc, hor⟩

theorem handleMemoryPressure_books (h : Refines P s a) (hs : a.Sound 0) (n : Int) :
    ∃ out, Drawn s (s.handleMemoryPressure n).2 out ∧
      (∀ b ∈ out, b ∈ s.queueIds.take (n - s.freeBlockQueue.numFreeBlocks).toNat ∨
        b ∈ reclaimable s n) ∧
      (Balanced s 0 → Balanced (s.handleMemoryPressure n).2 0) := by
  unfold Pool.handleMemoryPressure
  by_cases hge : s.freeBlockQueue.numFreeBlocks ≥ n
  · rw [if_pos hge]
    exact ⟨[], (Quiet.refl s).drawn, by simp, id⟩
  · rw [if_neg hge]
    obtain ⟨zs, hzs, hd, hall, hbal⟩ :=
      evictLruBlocksLocked_books h hs (n - s.freeBlockQueue.numFreeBlocks)
    obtain ⟨a₁, h₁, hm₁, hf₁⟩ := evictLruBlocksLocked_refines h hs (R := Rules.any) trivial
      (n - s.freeBlockQueue.numFreeBlocks) (fun _ _ _ _ => Or.inl trivial)
    have hreclaim := fun b => reclaimable_of_evicted (b := b) h hs (n := n)
    have hnum : (s.evictLruBlocksLocked (n - s.freeBlockQueue.numFreeBlocks)).2.freeBlockQueue.numFreeBlocks =
        s.freeBlockQueue.numFreeBlocks := by
      rw [h₁.numFree, h.numFree, hf₁.free]
    generalize (s.evictLruBlocksLocked (n - s.freeBlockQueue.numFreeBlocks)).2 = t
      at hd hall hbal h₁ hreclaim hnum ⊢
    dsimp only
    by_cases hlt : t.freeBlockQueue.numFreeBlocks < n
    · rw [if_pos hlt]
      obtain ⟨out, hd', hmem, hbal'⟩ := evictCachedBlocksLocked_books h₁ (hm₁.sound hs)
        (n - t.freeBlockQueue.numFreeBlocks)
      rw [hnum] at hmem
      refine ⟨zs ++ out, hd.trans hd' (hd.apart fun b hb => (hmem b hb).1), ?_,
        fun hb => hbal' 0 (hbal 0 hb)⟩
      intro b hb
      rcases List.mem_append.mp hb with hb | hb
      · exact Or.inl (hzs b hb)
      · exact Or.inr (hreclaim b (hmem b hb).2)
    · rw [if_neg hlt]
      exact ⟨zs, hd, fun b hb => Or.inl (hzs b hb), hbal 0⟩

end FusionMlx.PoolAccounting
