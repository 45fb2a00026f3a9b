import FusionMlx.Cache.BlockPool
import FusionMlx.Support.ResourceLedger

/-!
# The pool refines a ledger

`Refines P s a` relates a pool to the ledger it stands for: the pointer queue
to a list, the allocation dictionary to a set, the hash map to a set of
entries. Every body of the pool is shown to be a sequence of ledger moves.
-/
namespace FusionMlx.PoolRefinement

open BlockHashing BlockHashMap BlockPool ResourceLedger

variable {κ : Type}

structure Refines (P : Params κ) (s : Pool) (a : Ledger Nat BlockHash) : Prop where
  queue : s.freeBlockQueue.Holds a.free
  nodup : s.allocatedBlocks.Nodup
  bound : s.currentAllocatedCount ≤ P.maxBlocks
  made : ∀ b, b ∈ a.made ↔ b < s.currentAllocatedCount
  held : ∀ b, b ∈ a.held ↔ b ∈ s.allocatedBlocks
  refs : ∀ b, (s.blocks b).refCount = a.refs b
  key : ∀ b, (s.blocks b).blockHash = a.key b
  parent : ∀ b, (s.blocks b).parentHash = a.parent b
  null : ∀ b, (s.blocks b).isNull = true ↔ b = 0
  entries : ∀ h b, (h, b) ∈ a.entries ↔ s.cachedBlockHashToBlock.Registered h b
  pending : s.pendingContentInvalidated = a.pending

/-- The two pools differ at most in what the ledger does not see: statistics,
tables, the clock, token counts and access times. -/
structure Same (s s' : Pool) : Prop where
  queue : s'.freeBlockQueue = s.freeBlockQueue
  allocated : s'.allocatedBlocks = s.allocatedBlocks
  count : s'.currentAllocatedCount = s.currentAllocatedCount
  refs : ∀ b, (s'.blocks b).refCount = (s.blocks b).refCount
  key : ∀ b, (s'.blocks b).blockHash = (s.blocks b).blockHash
  parent : ∀ b, (s'.blocks b).parentHash = (s.blocks b).parentHash
  null : ∀ b, (s'.blocks b).isNull = (s.blocks b).isNull
  map : s'.cachedBlockHashToBlock = s.cachedBlockHashToBlock
  pending : s'.pendingContentInvalidated = s.pendingContentInvalidated

namespace Same

theorem refl (s : Pool) : Same s s :=
  ⟨rfl, rfl, rfl, fun _ => rfl, fun _ => rfl, fun _ => rfl, fun _ => rfl, rfl, rfl⟩

theorem trans {s t u : Pool} (h : Same s t) (h' : Same t u) : Same s u :=
  ⟨h'.queue.trans h.queue, h'.allocated.trans h.allocated, h'.count.trans h.count,
    fun b => (h'.refs b).trans (h.refs b), fun b => (h'.key b).trans (h.key b),
    fun b => (h'.parent b).trans (h.parent b), fun b => (h'.null b).trans (h.null b),
    h'.map.trans h.map, h'.pending.trans h.pending⟩

theorem bump (s : Pool) (f : PagedCacheStats → PagedCacheStats) : Same s (s.bump f) :=
  ⟨rfl, rfl, rfl, fun _ => rfl, fun _ => rfl, fun _ => rfl, fun _ => rfl, rfl, rfl⟩

theorem setTable (s : Pool) (t : BlockTable) : Same s (s.setTable t) :=
  ⟨rfl, rfl, rfl, fun _ => rfl, fun _ => rfl, fun _ => rfl, fun _ => rfl, rfl, rfl⟩

theorem modify (s : Pool) (b : Nat) (f : CacheBlock → CacheBlock)
    (hr : (f (s.blocks b)).refCount = (s.blocks b).refCount)
    (hk : (f (s.blocks b)).blockHash = (s.blocks b).blockHash)
    (hp : (f (s.blocks b)).parentHash = (s.blocks b).parentHash)
    (hn : (f (s.blocks b)).isNull = (s.blocks b).isNull) : Same s (s.modify b f) := by
  refine ⟨rfl, rfl, rfl, ?_, ?_, ?_, ?_, rfl, rfl⟩ <;>
    (intro c; by_cases hc : c = b <;> simp_all [Pool.modify])

/-- The token count and the digest of a block may as well be written at once. -/
theorem fill (s : Pool) (b n : Nat) (k : BlockHash) :
    Same (s.modify b (fun d => { d with tokenCount := n, blockHash := some k }))
      (((s.modify b (fun d => { d with tokenCount := n })).bump (fun u =>
        { u with totalTokensCached := u.totalTokensCached + n })).modify b (fun d =>
          { d with blockHash := some k })) := by
  refine ⟨rfl, rfl, rfl, ?_, ?_, ?_, ?_, rfl, rfl⟩ <;>
    (intro c; by_cases hc : c = b <;> simp [Pool.modify, Pool.bump, hc])

theorem touchBlock (P : Params κ) (s : Pool) (b : Nat) : Same s (s.touchBlock P b) := by
  have h := modify s b (fun c => { c with lastAccess := P.clock s.ticks }) rfl rfl rfl rfl
  exact ⟨h.queue, h.allocated, h.count, h.refs, h.key, h.parent, h.null, h.map, h.pending⟩

end Same

variable {P : Params κ} {s s' : Pool} {a a' : Ledger Nat BlockHash}

variable {rest : List Nat}

namespace Refines

theorem same (h : Refines P s a) (hs : Same s s') : Refines P s' a where
  queue := hs.queue ▸ h.queue
  nodup := hs.allocated ▸ h.nodup
  bound := hs.count ▸ h.bound
  made := fun b => by rw [hs.count]; exact h.made b
  held := fun b => by rw [hs.allocated]; exact h.held b
  refs := fun b => (hs.refs b).trans (h.refs b)
  key := fun b => (hs.key b).trans (h.key b)
  parent := fun b => (hs.parent b).trans (h.parent b)
  null := fun b => by rw [hs.null]; exact h.null b
  entries := fun k b => by rw [hs.map]; exact h.entries k b
  pending := hs.pending.trans h.pending

theorem bump (h : Refines P s a) (f : PagedCacheStats → PagedCacheStats) :
    Refines P (s.bump f) a :=
  h.same (.bump s f)

theorem touchBlock (h : Refines P s a) (b : Nat) : Refines P (s.touchBlock P b) a :=
  h.same (.touchBlock P s b)

theorem setTable (h : Refines P s a) (t : BlockTable) : Refines P (s.setTable t) a :=
  h.same (.setTable s t)

/-- Writing one block writes the three fields of the ledger at its id. -/
theorem modify (h : Refines P s a) (b : Nat) (f : CacheBlock → CacheBlock)
    (hn : (f (s.blocks b)).isNull = (s.blocks b).isNull) :
    Refines P (s.modify b f)
      { a with
        refs := Function.update a.refs b (f (s.blocks b)).refCount
        key := Function.update a.key b (f (s.blocks b)).blockHash
        parent := Function.update a.parent b (f (s.blocks b)).parentHash } := by
  refine { h with refs := ?_, key := ?_, parent := ?_, null := ?_ }
  · intro c
    have := h.refs c
    by_cases hc : c = b <;> simp_all [Pool.modify]
  · intro c
    have := h.key c
    by_cases hc : c = b <;> simp_all [Pool.modify]
  · intro c
    have := h.parent c
    by_cases hc : c = b <;> simp_all [Pool.modify]
  · intro c
    rw [← h.null c]
    by_cases hc : c = b <;> simp_all [Pool.modify]

variable {f : CacheBlock → CacheBlock}

theorem setRef (h : Refines P s a) (b : Nat) {n : Int}
    (hf : f (s.blocks b) = (s.blocks b).setRef n) : Refines P (s.modify b f) (a.setRefs b n) := by
  have := h.modify b f (by rw [hf]; rfl)
  rw [hf] at this
  simp only [CacheBlock.setRef, h.key, h.parent, Function.update_eq_self] at this
  exact this

theorem reset (h : Refines P s a) (b : Nat)
    (hr : (f (s.blocks b)).refCount = (s.blocks b).refCount)
    (hk : (f (s.blocks b)).blockHash = none) (hp : (f (s.blocks b)).parentHash = none)
    (hn : (f (s.blocks b)).isNull = (s.blocks b).isNull) :
    Refines P (s.modify b f) (a.forget b) := by
  have := h.modify b f hn
  rwa [hr, hk, hp, h.refs, Function.update_eq_self] at this

theorem resetHash (h : Refines P s a) (b : Nat) :
    Refines P (s.modify b CacheBlock.resetHash) (a.forget b) :=
  h.reset b rfl rfl rfl rfl

theorem notify (h : Refines P s a) (b : Nat) :
    Refines P (s.notifyBlockContentInvalidated b) (a.notify b) :=
  { h with pending := congrArg (· ++ [b]) h.pending }

theorem popHash_none (h : Refines P s a) (k : BlockHash) : Refines P (s.popHash k none) a :=
  { h with
    entries := fun k' b => (h.entries k' b).trans
      (BlockHashToBlockMap.registered_pop_none s.cachedBlockHashToBlock k k' b).symm }

theorem popHash (h : Refines P s a) (k : BlockHash) (b : Nat) :
    Refines P (s.popHash k (some b)) (a.unlist k b) := by
  refine { h with entries := ?_ }
  intro k' b'
  rw [Pool.popHash, BlockHashToBlockMap.registered_pop, ← h.entries]
  simp [Ledger.unlist]

/-- Setting a block's hash, its parent and its entry. -/
theorem list (h : Refines P s a) {k : BlockHash} {p : Option BlockHash} (b : Nat)
    (hr : (f (s.blocks b)).refCount = (s.blocks b).refCount)
    (hk : (f (s.blocks b)).blockHash = some k) (hp : (f (s.blocks b)).parentHash = p)
    (hn : (f (s.blocks b)).isNull = (s.blocks b).isNull) :
    Refines P ((s.modify b f).insertHash k b) (a.list k p b) := by
  have hm := h.modify b f hn
  rw [hr, hk, hp, h.refs, Function.update_eq_self] at hm
  refine { hm with entries := ?_ }
  intro k' b'
  rw [Pool.insertHash, BlockHashToBlockMap.registered_insert, ← hm.entries]
  simp only [Ledger.list, Set.mem_insert_iff, Prod.mk.injEq]
  exact or_comm

theorem addAllocated (h : Refines P s a) (b : Nat) :
    Refines P (s.addAllocated b)
      { a with loose := a.loose \ {b}, held := insert b a.held } := by
  refine { h with nodup := ?_, held := ?_ }
  · by_cases hb : b ∈ s.allocatedBlocks
    · simpa [Pool.addAllocated, hb] using h.nodup
    · simp only [Pool.addAllocated, hb, if_false]
      exact List.nodup_append.mpr ⟨h.nodup, by simp, by
        intro x hx y hy hxy
        rw [List.mem_singleton] at hy
        exact hb (hy ▸ hxy ▸ hx)⟩
  · intro c
    rw [Set.mem_insert_iff, h.held]
    by_cases hb : b ∈ s.allocatedBlocks
    · simp only [Pool.addAllocated, hb, if_true]
      constructor
      · rintro (rfl | hc)
        · exact hb
        · exact hc
      · exact Or.inr
    · simp only [Pool.addAllocated, hb, if_false, List.mem_append, List.mem_singleton]
      exact or_comm

theorem delAllocated (h : Refines P s a) (b : Nat) :
    Refines P (s.delAllocated b) { a with held := a.held \ {b}, loose := insert b a.loose } := by
  refine { h with nodup := h.nodup.filter _, held := ?_ }
  intro c
  simp [Pool.delAllocated, h.held]

theorem enqueue (h : Refines P s a) {b : Nat} (hb : b ∉ a.free) :
    Refines P (s.enqueue b) (a.place [b]) :=
  { h with queue := h.queue.append hb }

theorem popleft (h : Refines P s a) {b : Nat} (hf : a.free = b :: rest) :
    ∃ q, s.freeBlockQueue.popleft = .ok (b, q) ∧
      Refines P { s with freeBlockQueue := q } (a.take rest b) := by
  have hq := h.queue
  rw [hf] at hq
  obtain ⟨q, hpop, hq'⟩ := hq.popleft_cons
  exact ⟨q, hpop, { h with queue := hq' }⟩

theorem numFree (h : Refines P s a) : s.freeBlockQueue.numFreeBlocks = a.free.length :=
  h.queue.count

theorem isNull_eq (h : Refines P s a) (b : Nat) : (s.blocks b).isNull = decide (b = 0) := by
  rw [Bool.eq_iff_iff, h.null]
  simp

end Refines

variable {R : Rules BlockHash}

theorem growBlocks_refines (h : Refines P s a) (hs : a.Sound 0) (n : Nat) :
    ∃ bs, Refines P (s.growBlocks P n).2 (a.extend bs) ∧ bs.Nodup ∧ (∀ b ∈ bs, b ∉ a.made) ∧
      bs.length = (s.growBlocks P n).1 := by
  by_cases hz : min n (P.maxBlocks - s.currentAllocatedCount) = 0
  · refine ⟨[], ?_, List.nodup_nil, by simp, ?_⟩
    · simpa only [Pool.growBlocks, hz, if_true, Ledger.extend_nil] using h
    · simp only [Pool.growBlocks, hz, if_true, List.length_nil]
  have hmem : ∀ b, b ∈ List.range' s.currentAllocatedCount
      (min n (P.maxBlocks - s.currentAllocatedCount)) ↔ s.currentAllocatedCount ≤ b ∧
        b < s.currentAllocatedCount + min n (P.maxBlocks - s.currentAllocatedCount) := by
    intro b
    simp [List.mem_range'_1]
  have hnew : ∀ b ∈ List.range' s.currentAllocatedCount
      (min n (P.maxBlocks - s.currentAllocatedCount)), b ∉ a.made := by
    intro b hb hm
    have := (hmem b).mp hb
    have := (h.made b).mp hm
    omega
  have hpos : 0 < s.currentAllocatedCount :=
    (h.made 0).mp ((hs.placed 0).mpr (Or.inr (Or.inl hs.rootHeld)))
  refine ⟨List.range' s.currentAllocatedCount (min n (P.maxBlocks - s.currentAllocatedCount)),
    ?_, List.nodup_range', hnew, ?_⟩
  · simp only [Pool.growBlocks, hz, if_false]
    refine { h with queue := ?_, bound := ?_, made := ?_, refs := ?_, key := ?_, parent := ?_,
                    null := ?_ }
    · exact h.queue.appendN List.nodup_range' (fun b hb hf =>
        hnew b hb ((hs.placed b).mpr (Or.inl hf)))
    · have := h.bound
      simp only
      omega
    · intro b
      simp only [Ledger.extend, Set.mem_union, Set.mem_ofPred_eq, hmem, h.made b]
      omega
    · intro b
      simp only [Ledger.extend, hmem]
      split <;> simp [h.refs]
    · intro b
      simp only [Ledger.extend, hmem]
      split <;> simp [h.key]
    · intro b
      simp only [Ledger.extend, hmem]
      split <;> simp [h.parent]
    · intro b
      have := h.null b
      simp only
      split
      · simp only [Bool.false_eq_true, false_iff]
        omega
      · exact this
  · simp [Pool.growBlocks, hz]

/-- From `a` to `a'` the blocks `bs` were handed to one new user each, and
what was held before is as it was. -/
structure Handed (a a' : Ledger Nat BlockHash) (bs : List Nat) : Prop where
  nodup : bs.Nodup
  fresh : ∀ b ∈ bs, b ∉ a.held
  held : ∀ c, c ∈ a'.held ↔ c ∈ bs ∨ c ∈ a.held
  loose : a'.loose = a.loose
  refs : ∀ b ∈ bs, a'.refs b = 1
  key : ∀ b ∈ bs, a'.key b = none ∨ (b ∈ a.free ∧ a'.key b = a.key b)
  others : ∀ c ∈ a.held, a'.refs c = a.refs c ∧ a'.key c = a.key c ∧ a'.parent c = a.parent c
  entries : a'.entries = a.entries
  pending : a'.pending = a.pending

theorem maybeEvictCachedBlock_refines (h : Refines P s a) (b : Nat) :
    Refines P (s.maybeEvictCachedBlock b) a := by
  simp only [Pool.maybeEvictCachedBlock]
  cases (s.blocks b).blockHash with
  | none => exact h
  | some k =>
    simp only [BlockHashToBlockMap.pop_none_snd]
    exact h.popHash_none k

theorem claimPopped_refines (h : Refines P s a) (b : Nat) :
    Refines P (Pool.claimPopped P s b) (a.adopt b 1) := by
  have h₁ : Refines P (if P.enableCaching then s.maybeEvictCachedBlock b else s) a := by
    split
    · exact maybeEvictCachedBlock_refines h b
    · exact h
  exact ((h₁.setRef b rfl).touchBlock b).addAllocated b

theorem claimAll_refines {bs : List Nat} (h : Refines P s a) (nodup : bs.Nodup) :
    Refines P (bs.foldl (Pool.claimPopped P) s) (a.adoptAll bs) := by
  induction bs generalizing s a with
  | nil =>
    have : a.adoptAll [] = a := by ext <;> simp [Ledger.adoptAll]
    rw [this]
    exact h
  | cons b bs ih =>
    obtain ⟨hnot, hnd⟩ := List.nodup_cons.mp nodup
    rw [Ledger.adoptAll_cons a hnot, List.foldl_cons]
    exact ih (claimPopped_refines h b) hnd

/-- Taking blocks from the front of the queue, possibly after growth, and
adopting them. -/
theorem handed_of_adoptAll (hs : a.Sound 0) {new bs : List Nat} (hn : new.Nodup)
    (hnew : ∀ b ∈ new, b ∉ a.made) (hfree : (a.extend new).free = bs ++ rest) :
    Handed a (((a.extend new).takeAll bs rest).adoptAll bs) bs := by
  have hs' := hs.extend hn hnew
  have hmem : ∀ b ∈ bs, b ∈ (a.extend new).free := by
    intro b hb
    rw [hfree]
    exact List.mem_append_left _ hb
  have hheld : ∀ c ∈ a.held, c ∉ bs ∧ c ∉ new := fun c hc =>
    ⟨fun hb => hs'.freeHeld c (hmem c hb) hc,
      fun hb => hnew c hb ((hs.placed c).mpr (Or.inr (Or.inl hc)))⟩
  refine ⟨?_, ?_, ?_, ?_, ?_, ?_, ?_, rfl, rfl⟩
  · have := hs'.freeNodup
    rw [hfree] at this
    exact (List.nodup_append.mp this).1
  · exact fun b hb hm => hs'.freeHeld b (hmem b hb) hm
  · intro c
    exact or_comm
  · ext c
    have hloose : c ∈ bs → c ∉ a.loose := fun hb hl => hs'.freeLoose c (hmem c hb) hl
    simp only [Ledger.adoptAll, Ledger.takeAll, Ledger.extend, Set.mem_sdiff, Set.mem_union,
      Set.mem_ofPred_eq]
    tauto
  · intro b hb
    simp [Ledger.adoptAll, hb]
  · intro b hb
    by_cases hm : b ∈ new
    · exact Or.inl (by simp [Ledger.adoptAll, Ledger.takeAll, Ledger.extend, hm])
    · refine Or.inr ⟨?_, by simp [Ledger.adoptAll, Ledger.takeAll, Ledger.extend, hm]⟩
      exact (List.mem_append.mp (hmem b hb)).resolve_right hm
  · intro c hc
    simp [Ledger.adoptAll, Ledger.takeAll, Ledger.extend, hheld c hc]

theorem moves_adoptAll {new bs : List Nat} (hs : a.Sound 0) (hn : new.Nodup)
    (hnew : ∀ b ∈ new, b ∉ a.made) (hfree : (a.extend new).free = bs ++ rest) :
    Moves R 0 a (((a.extend new).takeAll bs rest).adoptAll bs) := by
  have hnd : bs.Nodup := (handed_of_adoptAll hs hn hnew hfree).nodup
  refine .head (.extend new hn hnew) ((Moves.takeAll hfree).trans (Moves.adoptAll hnd ?_))
  intro b hb
  exact Or.inr hb

theorem allocatePopped_refines (h : Refines P s a) {b : Nat}
    (hf : a.free = b :: rest) : (s.allocatePopped P).1 = .ok (some b) ∧
      Refines P (s.allocatePopped P).2 ((a.takeAll [b] rest).adoptAll [b]) := by
  obtain ⟨q, hpop, hq⟩ := h.popleft hf
  have heq : (a.takeAll [b] rest).adoptAll [b] = (a.take rest b).adopt b 1 := by
    have h₁ : (a.take rest b).takeAll [] rest = a.take rest b := by
      ext <;> simp [Ledger.takeAll, Ledger.take]
    have h₂ : ((a.take rest b).adopt b 1).adoptAll [] = (a.take rest b).adopt b 1 := by
      ext <;> simp [Ledger.adoptAll]
    rw [Ledger.takeAll_cons, List.nil_append, h₁, Ledger.adoptAll_cons _ List.not_mem_nil, h₂]
  simp only [Pool.allocatePopped, hpop, true_and, heq]
  exact (claimPopped_refines hq b).bump _

/-- `_allocate_block_internal` hands out one block, or nothing when the pool is at its cap. -/
theorem allocateBlockInternal_refines (h : Refines P s a) (hs : a.Sound 0) :
    ∃ a', Refines P (s.allocateBlockInternal P).2 a' ∧ Moves R 0 a a' ∧
      (((s.allocateBlockInternal P).1 = .ok none ∧ a' = a) ∨
        ∃ b, (s.allocateBlockInternal P).1 = .ok (some b) ∧ Handed a a' [b]) := by
  have hpop : ∀ (t : Pool) (new : List Nat), Refines P t (a.extend new) → new.Nodup →
      (∀ b ∈ new, b ∉ a.made) → (a.extend new).free ≠ [] →
      ∃ a', Refines P (t.allocatePopped P).2 a' ∧ Moves R 0 a a' ∧
        ∃ b, (t.allocatePopped P).1 = .ok (some b) ∧ Handed a a' [b] := by
    intro t new ht hn hnew hne
    obtain ⟨b, rest, hf⟩ := List.exists_cons_of_ne_nil hne
    have hr := allocatePopped_refines ht hf
    exact ⟨_, hr.2, moves_adoptAll hs hn hnew hf, b, hr.1, handed_of_adoptAll hs hn hnew hf⟩
  by_cases hz : s.freeBlockQueue.numFreeBlocks = 0
  · obtain ⟨new, hg, hn, hnew, hlen⟩ := growBlocks_refines h hs
      (min 256 (P.maxBlocks - s.currentAllocatedCount))
    by_cases hg0 : (s.growBlocks P (min 256 (P.maxBlocks - s.currentAllocatedCount))).1 = 0
    · have hnil : new = [] := List.length_eq_zero_iff.mp (hlen.trans hg0)
      rw [hnil, Ledger.extend_nil] at hg
      refine ⟨a, ?_, .refl, Or.inl ⟨?_, rfl⟩⟩
      · simpa only [Pool.allocateBlockInternal, hz, if_true, hg0] using hg
      · simp only [Pool.allocateBlockInternal, hz, if_true, hg0]
    · have hne : (a.extend new).free ≠ [] := by
        intro he
        have : new = [] := (List.append_eq_nil_iff.mp he).2
        exact hg0 (by rw [← hlen, this]; rfl)
      obtain ⟨a', ha', hm, b, hb, hh⟩ := hpop _ new hg hn hnew hne
      refine ⟨a', ?_, hm, Or.inr ⟨b, ?_, hh⟩⟩
      · simpa only [Pool.allocateBlockInternal, hz, if_true, hg0, if_false] using ha'
      · simpa only [Pool.allocateBlockInternal, hz, if_true, hg0, if_false] using hb
  · have hne : (a.extend []).free ≠ [] := by
      rw [Ledger.extend_nil]
      intro he
      have := h.numFree
      rw [he] at this
      exact hz (by simpa using this)
    obtain ⟨a', ha', hm, b, hb, hh⟩ := hpop s [] (by rwa [Ledger.extend_nil]) List.nodup_nil
      (by simp) hne
    refine ⟨a', ?_, hm, Or.inr ⟨b, ?_, hh⟩⟩
    · simpa only [Pool.allocateBlockInternal, hz, if_false] using ha'
    · simpa only [Pool.allocateBlockInternal, hz, if_false] using hb

/-- `get_new_blocks` hands out `n` distinct blocks or raises. -/
theorem getNewBlocks_refines (h : Refines P s a) (hs : a.Sound 0) (n : Nat) :
    ∃ a', Refines P (s.getNewBlocks P n).2 a' ∧ Moves R 0 a a' ∧ a'.loose = a.loose ∧
      a'.pending = a.pending ∧
      ∀ bs, (s.getNewBlocks P n).1 = .ok bs → bs.length = n ∧ Handed a a' bs := by
  obtain ⟨new, hg, hn, hnew⟩ : ∃ new, Refines P (if (n : Int) > s.freeBlockQueue.numFreeBlocks then
      (s.growBlocks P ((n - s.freeBlockQueue.numFreeBlocks).toNat + 128)).2 else s)
      (a.extend new) ∧ new.Nodup ∧ ∀ b ∈ new, b ∉ a.made := by
    split
    · obtain ⟨new, hg, hn, hnew, -⟩ := growBlocks_refines h hs
        ((n - s.freeBlockQueue.numFreeBlocks).toNat + 128)
      exact ⟨new, hg, hn, hnew⟩
    · exact ⟨[], by rwa [Ledger.extend_nil], List.nodup_nil, by simp⟩
  simp only [Pool.getNewBlocks]
  revert hg
  generalize (if (n : Int) > s.freeBlockQueue.numFreeBlocks then
    (s.growBlocks P ((n - s.freeBlockQueue.numFreeBlocks).toNat + 128)).2 else s) = t
  intro hg
  by_cases hlt : (n : Int) > t.freeBlockQueue.numFreeBlocks
  · refine ⟨a.extend new, by simpa only [hlt, if_true] using hg, .single (.extend new hn hnew),
      rfl, rfl, ?_⟩
    intro bs hbs
    simp [hlt] at hbs
  · have hlen : n ≤ (a.extend new).free.length := by
      have := hg.numFree
      omega
    obtain ⟨bs, rest, hf, hbs⟩ : ∃ bs rest, (a.extend new).free = bs ++ rest ∧ bs.length = n :=
      ⟨_, _, (List.take_append_drop n _).symm, by simp [hlen]⟩
    have hq := hg.queue
    rw [hf] at hq
    obtain ⟨q, hpop, hq'⟩ := hq.popleftN_append
    rw [hbs] at hpop
    have hh := handed_of_adoptAll hs hn hnew hf
    have ht : Refines P { t with freeBlockQueue := q } ((a.extend new).takeAll bs rest) :=
      { hg with queue := hq' }
    refine ⟨_, ?_, moves_adoptAll hs hn hnew hf, hh.loose, hh.pending, ?_⟩
    · simp only [hlt, if_false, hpop]
      exact (claimAll_refines ht hh.nodup).bump _
    · intro bs' hbs'
      simp only [hlt, if_false, hpop, Except.ok.injEq] at hbs'
      subst hbs'
      exact ⟨hbs, hh⟩

end FusionMlx.PoolRefinement
