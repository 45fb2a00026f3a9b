import FusionMlx.Cache.FetchReferences
import FusionMlx.Cache.InvalidationDelivery
import FusionMlx.Cache.LinkedBlocks
import FusionMlx.Cache.ReturnedReferences
import FusionMlx.Cache.TakenBlocks

/-!
# Which index entries a call leaves intact

A call tells the cache of the blocks it takes. Every other block keeps its
place, its digest and its parent, and an entry of the prefix index goes when
its last block is told. So the entries and tables that list no told block stay
linked.
-/
namespace FusionMlx.IntactIndex

open BlockHashing BlockPool OrderedDict ResourceLedger PoolRefinement LookupRefinement
open OwnedBlocks FreeRefinement PagedCacheManager ManagerRuns PoolInvariant InvalidationDelivery ReferenceBooks
open StandingCalls FetchReferences LinkedBlocks PrefixCache PrefixCache.BlockAwarePrefixCache
open TakenBlocks
open PinnedBlocks (foldl_onBlockFreed_index onPaged_index)
open PoolAccounting (reclaimable)

variable {κ : Type} {P : Params κ} {m m' m'' : Manager} {s s' : Pool} {n : Nat}
variable {c : BlockAwarePrefixCache} {told told' : List Nat}

/-- Between two states of the manager the callback `n` was told of the blocks `told`; every other
cached block keeps its place and its digest and gets no parent, and nothing is left to tell. -/
structure Tells (n : Nat) (m m' : Manager) (told : List Nat) : Prop where
  callbacks : m'.callbacks = m.callbacks
  trace : ∃ ds, m'.trace = m.trace ++ ds ∧ toldTo n ds = told
  pending : m'.pool.pendingContentInvalidated = []
  kept : ∀ b, b ∉ told → ∀ k, Holds m.pool b k → Holds m'.pool b k
  parents : ∀ b, b ∉ told → ∀ k, Holds m.pool b k → (m'.pool.blocks b).parentHash ≠ none →
    (m.pool.blocks b).parentHash ≠ none

namespace Tells

theorem quiet (hc : m'.callbacks = m.callbacks) (ht : m'.trace = m.trace)
    (hp : m'.pool.pendingContentInvalidated = [])
    (hk : ∀ b k, Holds m.pool b k → Holds m'.pool b k)
    (hpar : ∀ b k, Holds m.pool b k → (m'.pool.blocks b).parentHash ≠ none →
      (m.pool.blocks b).parentHash ≠ none) : Tells n m m' [] :=
  ⟨hc, ⟨[], by rw [ht, List.append_nil], rfl⟩, hp, fun b _ k => hk b k, fun b _ k => hpar b k⟩

/-- Nothing happens. -/
theorem refl (hp : m.pool.pendingContentInvalidated = []) : Tells n m m [] :=
  .quiet rfl rfl hp (fun _ _ hk => hk) fun _ _ _ hb => hb

/-- The trace says what was told. -/
theorem unique (h : Tells n m m' told) (h' : Tells n m m' told') : told = told' := by
  obtain ⟨ds, htrace, rfl⟩ := h.trace
  obtain ⟨ds', htrace', rfl⟩ := h'.trace
  rw [List.append_cancel_left (htrace.symm.trans htrace')]

theorem trans (h : Tells n m m' told) (h' : Tells n m' m'' told') :
    Tells n m m'' (told ++ told') := by
  obtain ⟨ds, htrace, hds⟩ := h.trace
  obtain ⟨ds', htrace', hds'⟩ := h'.trace
  refine ⟨h'.callbacks.trans h.callbacks, ⟨ds ++ ds', ?_, ?_⟩, h'.pending, fun b hb k hk => ?_,
    fun b hb k hk hpar => ?_⟩
  · rw [htrace', htrace, List.append_assoc]
  · rw [← hds, ← hds', toldTo, toldTo, toldTo, List.filter_append, List.map_append]
  · rw [List.mem_append, not_or] at hb
    exact h'.kept b hb.2 k (h.kept b hb.1 k hk)
  · rw [List.mem_append, not_or] at hb
    exact h.parents b hb.1 k hk (h'.parents b hb.2 k (h.kept b hb.1 k hk) hpar)

end Tells

theorem toldTo_deliveries (hn : n < m.callbacks) (bs : List Nat) :
    toldTo n (deliveries m.callbacks m.holds bs) = bs := by
  induction bs with
  | nil => rfl
  | cons b bs ih =>
    have hone : ((List.range m.callbacks).map (fun c => (⟨c, b, m.holds⟩ : Delivery))).filter
        (fun d => d.callback = n) = [⟨n, b, m.holds⟩] := by
      rw [List.filter_map]
      have hrange : (List.range m.callbacks).filter (fun c => c = n) = [n] := by
        rw [List.filter_eq, List.nodup_range.count, if_pos (List.mem_range.mpr hn)]
        rfl
      rw [show ((fun d : Delivery => decide (d.callback = n)) ∘ fun c => ⟨c, b, m.holds⟩) =
        fun c => decide (c = n) from rfl, hrange]
      rfl
    rw [deliveries, List.flatMap_cons, toldTo, List.filter_append, hone, List.map_append]
    exact congrArg (b :: ·) ih

variable {k : BlockHash}

theorem evicts_holds {new : List Nat} (h : Evicts s s' new) {b : Nat} (hb : b ∉ new)
    (hk : Holds s b k) : Holds s' b k := by
  cases h.kept b hk.1 with
  | inl hkept => exact ⟨hkept.1, hkept.2.trans hk.2⟩
  | inr hgone =>
    cases hgone.2 with
    | inl hnew => exact absurd hnew hb
    | inr hnone =>
      rw [hk.2] at hnone
      cases hnone

/-- A flush tells of all that an eviction has queued. -/
theorem tells_flush {new : List Nat} (hn : n < m.callbacks)
    (hsame : ∀ b k, Holds m.pool b k → Holds s b k) (hp : s.pendingContentInvalidated = [])
    (hev : Evicts s s' new) (hpar : ∀ b, (s'.blocks b).parentHash ≠ none →
      (m.pool.blocks b).parentHash ≠ none) :
    Tells n m ({ m with pool := s' } : Manager).flushContentInvalidated new := by
  have hpending : s'.pendingContentInvalidated = new := by rw [hev.pending, hp, List.nil_append]
  have hkept : ∀ b, b ∉ new → ∀ k, Holds m.pool b k → Holds s' b k :=
    fun b hb k hk => evicts_holds hev hb (hsame b k hk)
  unfold Manager.flushContentInvalidated
  split
  · next hno =>
    cases hno with
    | inl hzero => exact absurd hn (by rw [show m.callbacks = 0 from hzero]; exact Nat.not_lt_zero n)
    | inr hnil =>
      rw [show s'.pendingContentInvalidated = new from hpending] at hnil
      subst hnil
      exact ⟨rfl, ⟨[], (List.append_nil _).symm, rfl⟩, hpending, hkept, fun b _ _ _ => hpar b⟩
  · refine ⟨rfl, ⟨_, rfl, ?_⟩, rfl, hkept, fun b _ _ _ => hpar b⟩
    show toldTo n (deliveries m.callbacks m.holds s'.pendingContentInvalidated) = new
    rw [hpending, toldTo_deliveries hn]

/-- What an eviction queues is what it takes. -/
theorem taken_of_evicts {F : Nat → Prop} {t : Pool} {new : List Nat} (hev : Evicts t s' new)
    (htake : TakesOnly F s s') (hp : t.pendingContentInvalidated = s.pendingContentInvalidated) :
    ∀ x ∈ new, F x ∨ (s.blocks x).parentHash ≠ none := by
  obtain ⟨new', hnew', hF⟩ := htake.told
  rw [hev.pending, hp] at hnew'
  rw [List.append_cancel_left hnew']
  exact hF

/-- What a free tells of: blocks without a reference left, its own or children of freed ones; its
own when it takes the last reference. -/
structure FreeTold (m : Manager) (b : Nat) (told : List Nat) : Prop where
  root : 0 ∉ told
  idle : ∀ x ∈ told, (m.pool.blocks x).refCount ≤ if x = b then 1 else 0
  own : ∀ x ∈ told, x = b ∨ (m.pool.blocks x).parentHash ≠ none
  last : b ≠ 0 → (∃ k, Holds m.pool b k) → (m.pool.blocks b).refCount ≤ 1 → b ∈ told

theorem freeBlock_tells (h : Standing P m) (hp : m.pool.pendingContentInvalidated = [])
    (hn : n < m.callbacks) (b : Nat) :
    ∃ told, Tells n m (m.freeBlock b).2 told ∧ FreeTold m b told := by
  by_cases hb : b ∈ m.pool.allocatedBlocks
  · obtain ⟨a, hst⟩ := h.stands
    obtain ⟨a₁, a', freed, hok, hr', -, hstep, ha', -⟩ := freeBlock_refines hst.refines hst.sound
      ((hst.refines.held b).mpr hb) (fun _ _ => mayFree_any a b)
    have heq : (m.freeBlock b).2 =
        ({ m with pool := (m.pool.freeBlock b).2 } : Manager).flushContentInvalidated := by
      simp only [Manager.freeBlock, hb, if_true, locked_eq, Manager.thenFlush, hok]
    have htake := freeBlock_takes m.pool b
    have hroot : (m.pool.freeBlock 0).2 = m.pool := by
      simp only [Pool.freeBlock, Pool.freeBlockLocked, (hst.refines.null 0).mpr rfl, if_true]
      split <;> rfl
    rw [heq]
    by_cases hne : b = 0
    · subst hne
      rw [hroot]
      exact ⟨[], tells_flush hn (fun _ _ hk => hk) hp (.refl _) fun _ hx => hx, by simp, by simp,
        by simp, fun hne => absurd rfl hne⟩
    · obtain ⟨new, hev⟩ := (freeBlock_evicts hb).resolve_left fun hnull =>
        hne ((hst.refines.null b).mp hnull.2)
      refine ⟨new, tells_flush (s := decrement m.pool b) hn (fun x k hk => ⟨hk.1, ?_⟩) hp hev
        htake.parents, fun hm => ?_, fun x hx => ?_, taken_of_evicts hev htake rfl,
        fun _ hx hle => ?_⟩
      · by_cases hxb : x = b
        · subst hxb
          simpa [decrement, Pool.modify, CacheBlock.setRef] using hk.2
        · simpa [decrement, Pool.modify, hxb] using hk.2
      · have hidle := hev.told 0 hm
        have hpos := hst.sound.rootRefs
        rw [← hst.refines.refs] at hpos
        simp only [decrement, Pool.modify, Function.update_of_ne (Ne.symm hne)] at hidle
        omega
      · have hidle := hev.told x hx
        by_cases hxb : x = b
        · subst hxb
          simp only [decrement, Pool.modify, Function.update_self, CacheBlock.setRef] at hidle
          simp only [if_true]
          omega
        · simpa [decrement, Pool.modify, hxb] using hidle
      · obtain ⟨k, hk⟩ := hx
        have hgone : b ∉ (m.pool.freeBlock b).2.allocatedBlocks := by
          have hfreed : freed = true := hstep.freed_iff.mpr ⟨hne, hst.refines.refs b ▸ hle⟩
          rw [← hr'.held, ha', hfreed]
          simp [Ledger.place, hstep.held, hfreed]
        cases hev.kept b hb with
        | inl hkept => exact absurd hkept.1 hgone
        | inr hout =>
          refine hout.2.resolve_right fun hnone => ?_
          rw [show ((decrement m.pool b).blocks b).blockHash = (m.pool.blocks b).blockHash by
            simp [decrement, Pool.modify, CacheBlock.setRef], hk.2] at hnone
          cases hnone
  · have heq : (m.freeBlock b).2 = m := by rw [Manager.freeBlock, if_neg hb]
    rw [heq]
    exact ⟨[], .refl hp, by simp, by simp, by simp, fun _ hx => absurd hx.choose_spec.1 hb⟩

/-- A free takes the one reference of its block. -/
theorem freeBlock_refs_eq (h : Standing P m) (b x : Nat) (hx : x ∈ m.pool.allocatedBlocks)
    (hne : x ≠ 0) : ((m.freeBlock b).2.pool.blocks x).refCount =
      (m.pool.blocks x).refCount - if x = b then 1 else 0 := by
  by_cases hb : b ∈ m.pool.allocatedBlocks
  · by_cases hb₀ : b = 0
    · subst hb₀
      rw [(ReturnedReferences.freeBlock_null h).1, if_neg hne, Int.sub_zero]
    · exact (ReturnedReferences.freeBlock_counts h hb hb₀).1 x
  · rw [Manager.freeBlock, if_neg hb, if_neg (fun hxb : x = b => hb (hxb ▸ hx)), Int.sub_zero]

/-- What freeing a list of blocks tells of. -/
structure FreesTold (m : Manager) (bs told : List Nat) : Prop where
  root : 0 ∉ told
  idle : ∀ x ∈ told, (∃ k, Holds m.pool x k) → (m.pool.blocks x).refCount ≤ bs.count x
  own : ∀ x ∈ told, (∃ k, Holds m.pool x k) → x ∈ bs ∨ (m.pool.blocks x).parentHash ≠ none
  last : ∀ x ∈ bs, x ≠ 0 → (∃ k, Holds m.pool x k) → (m.pool.blocks x).refCount ≤ bs.count x →
    x ∈ told

theorem freeAll_tells (bs : List Nat) (h : Standing P m) (hp : m.pool.pendingContentInvalidated = [])
    (hn : n < m.callbacks) :
    ∃ told, Tells n m (bs.foldl (fun m b => (m.freeBlock b).2) m) told ∧ FreesTold m bs told := by
  induction bs generalizing m with
  | nil => exact ⟨[], .refl hp, by simp, by simp, by simp, by simp⟩
  | cons b bs ih =>
    obtain ⟨told, htold, hone⟩ := freeBlock_tells h hp hn b
    obtain ⟨told', htold', hrest⟩ := ih (h.exec (.freeBlock b) trivial) htold.pending
      (htold.callbacks ▸ hn)
    have hkept : ∀ x, x ∉ told → (∃ k, Holds m.pool x k) →
        ∃ k, Holds (m.freeBlock b).2.pool x k :=
      fun x hx hk => hk.imp fun k hk => htold.kept x hx k hk
    -- a block not told yet has lost just what this free takes of it
    have hrefs : ∀ x, (∃ k, Holds m.pool x k) → x ≠ 0 →
        (((m.freeBlock b).2.pool.blocks x).refCount ≤ bs.count x ↔
          (m.pool.blocks x).refCount ≤ (b :: bs).count x) := by
      rintro x ⟨k, hk⟩ hne
      rw [freeBlock_refs_eq h b x hk.1 hne, List.count_cons]
      by_cases hxb : x = b
      · simp only [hxb, if_true, beq_self_eq_true]
        omega
      · simp only [hxb, if_false, beq_iff_eq, Ne.symm hxb]
        omega
    have hroot : 0 ∉ told ++ told' := by
      rw [List.mem_append, not_or]
      exact ⟨hone.root, hrest.root⟩
    refine ⟨told ++ told', htold.trans htold', hroot, fun x hx hk => ?_, fun x hx hk => ?_,
      fun x hx hne hk hle => ?_⟩
    · by_cases hin : x ∈ told
      · have hle := hone.idle x hin
        rw [List.count_cons]
        by_cases hxb : x = b
        · simp only [hxb, if_true, beq_self_eq_true] at hle ⊢
          omega
        · rw [if_neg hxb] at hle
          omega
      · have hlater := (List.mem_append.mp hx).resolve_left hin
        exact (hrefs x hk fun hzero => hrest.root (hzero ▸ hlater)).mp
          (hrest.idle x hlater (hkept x hin hk))
    · by_cases hin : x ∈ told
      · exact (hone.own x hin).imp_left fun hxb : x = b => hxb ▸ List.mem_cons_self
      · have hlater := (List.mem_append.mp hx).resolve_left hin
        obtain ⟨k, hk⟩ := hk
        exact (hrest.own x hlater ⟨k, htold.kept x hin k hk⟩).imp (List.mem_cons_of_mem b)
          (htold.parents x hin k hk)
    · by_cases hin : x ∈ told
      · exact List.mem_append_left _ hin
      · refine List.mem_append_right _ (hrest.last x ?_ hne (hkept x hin hk) ((hrefs x hk hne).mpr hle))
        cases hx with
        | tail _ hx => exact hx
        | head =>
          -- were this its only place in the list, the free would have told of it
          by_contra hout
          rw [List.count_cons_self, List.count_eq_zero_of_not_mem hout] at hle
          exact hin (hone.last hne hk hle)

def tableIds (s : Pool) (r : String) : List Nat := ((s.requestTables.get? r).map (·.blockIds)).getD []

theorem deleteBlockTable_tells (h : Standing P m) (hp : m.pool.pendingContentInvalidated = [])
    (hn : n < m.callbacks) (r : String) :
    ∃ told, Tells n m (m.deleteBlockTable r) told ∧ FreesTold m (tableIds m.pool r) told := by
  have hdetached : Standing P { m with
      holds := m.holds.acquire .all, pool := (m.pool.detachRequestTable r).2 } :=
    h.same (detachRequestTable_same _ r)
  cases ht : m.pool.requestTables.get? r with
  | none =>
    refine ⟨[], .quiet ?_ ?_ ?_ (fun b k hk => ?_) fun b k _ hb => ?_, ?_⟩
    · exact deleteBlockTable_callbacks m r
    · simp only [Manager.deleteBlockTable, Manager.withLocks, Manager.onPool,
        Pool.detachRequestTable, ht]
    · simpa only [Manager.deleteBlockTable, Manager.withLocks, Manager.onPool,
        Pool.detachRequestTable, ht] using hp
    · simp only [Manager.deleteBlockTable, Manager.withLocks, Manager.onPool,
        Pool.detachRequestTable, ht]
      exact hk
    · simpa only [Manager.deleteBlockTable, Manager.withLocks, Manager.onPool,
        Pool.detachRequestTable, ht] using hb
    · rw [tableIds, ht]
      exact ⟨by simp, by simp, by simp, by simp⟩
  | some t =>
    obtain ⟨told, htold, hfrees⟩ := freeAll_tells (n := n) t.blockIds hdetached hp hn
    have hfree : m.deleteBlockTable r = { (t.blockIds.foldl (fun (m : Manager) b => (m.freeBlock b).2)
        { m with holds := m.holds.acquire .all, pool := (m.pool.detachRequestTable r).2 }) with
          holds := (m.deleteBlockTable r).holds } := by
      simp only [Manager.deleteBlockTable, Manager.withLocks, Manager.onPool,
        Pool.detachRequestTable, ht]
    rw [hfree, tableIds, ht]
    exact ⟨told, ⟨htold.callbacks, htold.trace, htold.pending, htold.kept, htold.parents⟩,
      hfrees.root, hfrees.idle, hfrees.own, hfrees.last⟩

theorem handleMemoryPressure_tells (h : Standing P m) (hp : m.pool.pendingContentInvalidated = [])
    (hn : n < m.callbacks) (k : Int) : ∃ told, Tells n m (m.handleMemoryPressure k).2 told ∧
      (∀ x ∈ told, (m.pool.blocks x).refCount ≤ 0) ∧
      (∀ x ∈ told, x ∈ m.pool.allocatedBlocks →
        x ∈ reclaimable m.pool k ∨ (m.pool.blocks x).parentHash ≠ none) ∧
      ∀ x, ((m.handleMemoryPressure k).2.pool.blocks x).refCount = (m.pool.blocks x).refCount := by
  obtain ⟨a, hst⟩ := h.stands
  obtain ⟨new, hev⟩ := handleMemoryPressure_evicts m.pool k
  have htake := handleMemoryPressure_takes hst.refines hst.sound k
  have heq : (m.handleMemoryPressure k).2 =
      ({ m with pool := (m.pool.handleMemoryPressure k).2 } : Manager).flushContentInvalidated := by
    simp only [Manager.handleMemoryPressure, locked_eq]
  refine ⟨new, heq ▸ tells_flush hn (fun _ _ hk => hk) hp hev htake.parents, hev.told,
    fun x hx hin => ?_, fun x => ?_⟩
  · refine (taken_of_evicts hev htake rfl x hx).imp_left fun hF => ?_
    exact hF.resolve_left fun hout => hout hin
  · rw [heq, (ends_pool (.flushed (m := m) (s := (m.pool.handleMemoryPressure k).2))).1]
    exact hev.refs x

theorem evictLruBlocks_tells (h : Standing P m) (hp : m.pool.pendingContentInvalidated = [])
    (hn : n < m.callbacks) (k : Int) : ∃ told, Tells n m (m.evictLruBlocks k).2 told ∧
      ∀ x ∈ told, x ∈ m.pool.allocatedBlocks →
        (m.pool.blocks x).refCount ≤ 0 ∧ (m.pool.blocks x).parentHash ≠ none := by
  obtain ⟨a, hst⟩ := h.stands
  obtain ⟨new, hev⟩ := evictLruLoop_evicts k m.pool.queueIds 0 m.pool
  have htake : TakesOnly (· ∉ m.pool.allocatedBlocks) m.pool
      (Pool.evictLruLoop k m.pool.queueIds 0 m.pool).2 := by
    refine (TakesOnly.refl m.pool).evictLruLoop k 0 fun b hb hin => ?_
    rw [EvictRefinement.queueIds_eq hst.refines hst.sound] at hb
    exact hst.sound.freeHeld b hb ((hst.refines.held b).mpr hin)
  refine ⟨new, ?_, fun x hx hin => ⟨hev.told x hx, ?_⟩⟩
  · simp only [Manager.evictLruBlocks, locked_eq]
    exact tells_flush hn (fun _ _ hk => hk) hp hev htake.parents
  · exact (taken_of_evicts hev htake rfl x hx).resolve_left fun hout => hout hin

theorem Holds.same (hs : Same s s') {b : Nat} (hk : Holds s b k) : Holds s' b k :=
  ⟨hs.allocated ▸ hk.1, (hs.key b).trans hk.2⟩

/-- A locked body that queues nothing and leaves places and digests. -/
theorem locked_tells {α : Type} (l : LockHolds) {body : Pool → α × Pool}
    (hp : (body m.pool).2.pendingContentInvalidated = [])
    (hk : ∀ b k, Holds m.pool b k → Holds (body m.pool).2 b k)
    (hpar : ∀ b, ((body m.pool).2.blocks b).parentHash = (m.pool.blocks b).parentHash) :
    Tells n m (Manager.withLocks l (Manager.onPool body) m).2 [] := by
  rw [locked_eq]
  exact .quiet rfl rfl hp hk fun b _ _ hb => hpar b ▸ hb

theorem addRef_blocks (s : Pool) (b : Nat) :
    (s.addRef P b).allocatedBlocks = s.allocatedBlocks ∧
      (s.addRef P b).pendingContentInvalidated = s.pendingContentInvalidated ∧
      ∀ x, ((s.addRef P b).blocks x).blockHash = (s.blocks x).blockHash ∧
        ((s.addRef P b).blocks x).parentHash = (s.blocks x).parentHash ∧
        (s.blocks x).refCount ≤ ((s.addRef P b).blocks x).refCount := by
  have hblocks : ∀ x, ((((s.modify b (fun c => c.setRef (c.refCount + 1))).touchBlock P b).blocks
      x).blockHash = (s.blocks x).blockHash) ∧
      ((((s.modify b (fun c => c.setRef (c.refCount + 1))).touchBlock P b).blocks x).parentHash =
        (s.blocks x).parentHash) ∧ (s.blocks x).refCount ≤
        (((s.modify b (fun c => c.setRef (c.refCount + 1))).touchBlock P b).blocks x).refCount := by
    intro x
    by_cases hx : x = b
    · simp [Pool.touchBlock, Pool.modify, CacheBlock.setRef, hx]
    · simp [Pool.touchBlock, Pool.modify, hx]
  simp only [Pool.addRef]
  split
  · exact ⟨rfl, rfl, hblocks⟩
  · exact ⟨rfl, rfl, hblocks⟩

theorem incrementRef_tells (hp : m.pool.pendingContentInvalidated = []) (b : Nat) :
    Tells n m (m.incrementRef P b).2 [] ∧
      ∀ x, (m.pool.blocks x).refCount ≤ ((m.incrementRef P b).2.pool.blocks x).refCount := by
  obtain ⟨hheld, hpending, hblocks⟩ := addRef_blocks (P := P) m.pool b
  have hbody : (m.pool.incrementRef P b).2.pendingContentInvalidated = [] ∧
      (∀ x k, Holds m.pool x k → Holds (m.pool.incrementRef P b).2 x k) ∧
      (∀ x, ((m.pool.incrementRef P b).2.blocks x).parentHash = (m.pool.blocks x).parentHash) ∧
      ∀ x, (m.pool.blocks x).refCount ≤ ((m.pool.incrementRef P b).2.blocks x).refCount := by
    unfold Pool.incrementRef
    split
    · exact ⟨hpending.trans hp, fun x k hk => ⟨hheld ▸ hk.1, (hblocks x).1.trans hk.2⟩,
        fun x => (hblocks x).2.1, fun x => (hblocks x).2.2⟩
    · exact ⟨hp, fun _ _ hk => hk, fun _ => rfl, fun _ => Int.le_refl _⟩
  refine ⟨locked_tells .tableOnly hbody.1 hbody.2.1 hbody.2.2.1, ?_⟩
  rw [Manager.incrementRef, locked_eq]
  exact hbody.2.2.2

theorem releaseForEviction_tells (hp : m.pool.pendingContentInvalidated = []) (bs : List Nat) :
    Tells n m (m.releaseForEviction bs).2 [] := by
  have hbody : ∀ (bs : List Nat) (s : Pool),
      (s.releaseForEviction bs).2.pendingContentInvalidated = s.pendingContentInvalidated ∧
        ∀ x, (∀ k, Holds s x k → Holds (s.releaseForEviction bs).2 x k) ∧
          ((s.releaseForEviction bs).2.blocks x).parentHash = (s.blocks x).parentHash := by
    intro bs
    induction bs with
    | nil => exact fun s => ⟨rfl, fun _ => ⟨fun _ hk => hk, rfl⟩⟩
    | cons b bs ih =>
      intro s
      have hone : (s.releaseOne b).2.pendingContentInvalidated = s.pendingContentInvalidated ∧
          ∀ x, (∀ k, Holds s x k → Holds (s.releaseOne b).2 x k) ∧
            ((s.releaseOne b).2.blocks x).parentHash = (s.blocks x).parentHash := by
        have hkeep : ∀ x, (∀ k, Holds s x k →
            Holds (s.modify b (fun c => c.setRef (c.refCount - 1))) x k) ∧
            ((s.modify b (fun c => c.setRef (c.refCount - 1))).blocks x).parentHash =
              (s.blocks x).parentHash := by
          intro x
          by_cases hx : x = b
          · subst hx
            exact ⟨fun k hk => ⟨hk.1, by simpa [Pool.modify, CacheBlock.setRef] using hk.2⟩,
              by simp [Pool.modify, CacheBlock.setRef]⟩
          · exact ⟨fun k hk => ⟨hk.1, by simpa [Pool.modify, hx] using hk.2⟩,
              by simp [Pool.modify, hx]⟩
        unfold Pool.releaseOne
        split
        · dsimp only
          split
          · exact ⟨rfl, hkeep⟩
          · exact ⟨rfl, hkeep⟩
        · exact ⟨rfl, fun _ => ⟨fun _ hk => hk, rfl⟩⟩
      obtain ⟨hp', hk'⟩ := ih (s.releaseOne b).2
      exact ⟨hp'.trans hone.1, fun x => ⟨fun k hk => (hk' x).1 k ((hone.2 x).1 k hk),
        (hk' x).2.trans (hone.2 x).2⟩⟩
  exact locked_tells .tableOnly ((hbody bs m.pool).1.trans hp) (fun x => ((hbody bs m.pool).2 x).1)
    fun x => ((hbody bs m.pool).2 x).2

theorem findCachedBlock_tells (hp : m.pool.pendingContentInvalidated = []) (ts : List Int)
    (parent : Option BlockHash) (salt : Option (List κ)) :
    Tells n m (m.findCachedBlock P ts parent salt).2 [] ∧
      ∀ x, ((m.findCachedBlock P ts parent salt).2.pool.blocks x).refCount =
        (m.pool.blocks x).refCount := by
  have hsame : Same m.pool (m.pool.findCachedBlock P ts parent salt).2 := by
    simp only [Pool.findCachedBlock]
    split
    · cases m.pool.cachedBlockHashToBlock.getBlock (P.hash parent ts salt) with
      | none =>
        dsimp only
        exact .bump _ _
      | some b =>
        dsimp only
        exact (Same.touchBlock P m.pool b).trans (.bump _ _)
    · exact .refl _
  refine ⟨locked_tells .mapOnly (hsame.pending.trans hp) (fun _ _ hk => Holds.same hsame hk)
    hsame.parent, ?_⟩
  rw [Manager.findCachedBlock, locked_eq]
  exact hsame.refs

/-- An allocation takes nothing from anybody. -/
theorem allocateBlock_tells (h : Standing P m) (hp : m.pool.pendingContentInvalidated = []) :
    Tells n m (m.allocateBlock P).2 [] ∧
      (∀ x ∈ m.pool.allocatedBlocks,
        ((m.allocateBlock P).2.pool.blocks x).refCount = (m.pool.blocks x).refCount) ∧
      ∀ b, (m.allocateBlock P).1 = .ok (some b) → b ∉ m.pool.allocatedBlocks ∧
        b ∈ (m.allocateBlock P).2.pool.allocatedBlocks ∧
        ((m.allocateBlock P).2.pool.blocks b).refCount = 1 := by
  obtain ⟨a, hst⟩ := h.stands
  have he : Ends m (m.pool.allocateBlockInternal P).2 (m.allocateBlock P).2 :=
    ends_thenFlush .all (Pool.allocateBlockInternal P) m
  obtain ⟨a', hr', -, hcase⟩ :=
    allocateBlockInternal_refines hst.refines hst.sound (R := Rules.any)
  have hcommon : (m.pool.allocateBlockInternal P).2.pendingContentInvalidated = [] ∧
      (∀ x ∈ m.pool.allocatedBlocks,
        x ∈ (m.pool.allocateBlockInternal P).2.allocatedBlocks ∧
        ((m.pool.allocateBlockInternal P).2.blocks x).blockHash = (m.pool.blocks x).blockHash ∧
        ((m.pool.allocateBlockInternal P).2.blocks x).refCount = (m.pool.blocks x).refCount ∧
        ((m.pool.allocateBlockInternal P).2.blocks x).parentHash = (m.pool.blocks x).parentHash) ∧
      ∀ b, (m.pool.allocateBlockInternal P).1 = .ok (some b) → b ∉ m.pool.allocatedBlocks ∧
        b ∈ (m.pool.allocateBlockInternal P).2.allocatedBlocks ∧
        ((m.pool.allocateBlockInternal P).2.blocks b).refCount = 1 := by
    cases hcase with
    | inl hnone =>
      obtain ⟨hanswer, rfl⟩ := hnone
      refine ⟨by rw [hr'.pending, ← hst.refines.pending, hp], fun x hx => ⟨?_, ?_, ?_, ?_⟩, ?_⟩
      · exact (hr'.held x).mp ((hst.refines.held x).mpr hx)
      · rw [hr'.key, hst.refines.key]
      · rw [hr'.refs, hst.refines.refs]
      · rw [hr'.parent, hst.refines.parent]
      · intro b hb
        rw [hanswer] at hb
        cases hb
    | inr hsome =>
      obtain ⟨b, hanswer, hh⟩ := hsome
      refine ⟨by rw [hr'.pending, hh.pending, ← hst.refines.pending, hp], fun x hx => ?_, ?_⟩
      · have hx' := (hst.refines.held x).mpr hx
        obtain ⟨hrefs, hkey, hparent⟩ := hh.others x hx'
        refine ⟨(hr'.held x).mp ((hh.held x).mpr (.inr hx')), ?_, ?_, ?_⟩
        · rw [hr'.key, hkey, hst.refines.key]
        · rw [hr'.refs, hrefs, hst.refines.refs]
        · rw [hr'.parent, hparent, hst.refines.parent]
      · intro b' hb'
        rw [hanswer] at hb'
        cases hb'
        refine ⟨fun hx => hh.fresh b (by simp) ((hst.refines.held b).mpr hx), ?_, ?_⟩
        · exact (hr'.held b).mp ((hh.held b).mpr (.inl (by simp)))
        · rw [hr'.refs, hh.refs b (by simp)]
  obtain ⟨hpending, hothers, hfresh⟩ := hcommon
  have hm' : (m.allocateBlock P).2 = { m with pool := (m.pool.allocateBlockInternal P).2 } := by
    generalize (m.allocateBlock P).2 = m' at he
    cases he with
    | plain => rfl
    | flushed =>
      unfold Manager.flushContentInvalidated
      rw [if_pos (.inr hpending)]
  rw [hm', allocateBlock_result]
  refine ⟨.quiet rfl rfl hpending (fun x k hk => ?_) fun x k hk hx => ?_,
    fun x hx => (hothers x hx).2.2.1, hfresh⟩
  · exact ⟨(hothers x hk.1).1, (hothers x hk.1).2.1.trans hk.2⟩
  · exact (hothers x hk.1).2.2.2 ▸ hx

structure Entered (c : BlockAwarePrefixCache) (k : BlockHash) (e : IndexEntry) : Prop where
  count : e.numBlocks = e.blockIds.length
  last : ∃ b, e.blockIds.getLast? = some b ∧ Holds c.pool b k ∧
    k ∈ (c.blockIdToHashes.get? b).getD []

/-- The tables and index entries that list no block of `told` are linked. -/
structure Sound (P : Params κ) (told : List Nat) (c : BlockAwarePrefixCache) : Prop where
  stood : Stood P c
  pending : c.pool.pendingContentInvalidated = []
  registered : c.callback < c.pagedCache.callbacks
  unpinned : c.pinnedBlocks.entries = []
  keyed : ∀ r t, c.pool.requestTables.get? r = some t → t.requestId = r
  tables : ∀ r t, c.pool.requestTables.get? r = some t → (∀ b ∈ t.blockIds, b ∉ told) →
    Linked P c.pool none t.blockIds
  entered : ∀ k e, c.prefixIndex.get? k = some e → Entered c k e
  entries : ∀ k e, c.prefixIndex.get? k = some e → (∀ b ∈ e.blockIds, b ∉ told) →
    Linked P c.pool none e.blockIds

theorem foldl_erase_none {hs : List BlockHash} (hk : k ∈ hs)
    (d : Dict BlockHash IndexEntry) : (hs.foldl Dict.erase d).get? k = none := by
  have hkeep : ∀ (hs : List BlockHash) (d : Dict BlockHash IndexEntry), d.get? k = none →
      (hs.foldl Dict.erase d).get? k = none := by
    intro hs
    induction hs with
    | nil => exact fun d hd => hd
    | cons h hs ih =>
      intro d hd
      refine ih _ ?_
      rw [Dict.get?_erase, hd, ite_self]
  induction hs generalizing d with
  | nil => cases hk
  | cons h hs ih =>
    cases hk with
    | head => exact hkeep hs _ (Dict.get?_erase_self _ _)
    | tail _ hk => exact ih hk _

/-- An entry that survives was not told at any block the reverse index has it under. -/
theorem told_spares {bs : List Nat} {e : IndexEntry} {b : Nat}
    (hget : (bs.foldl onBlockFreed c).prefixIndex.get? k = some e)
    (hk : k ∈ (c.blockIdToHashes.get? b).getD []) :
    b ∉ bs ∧ k ∈ ((bs.foldl onBlockFreed c).blockIdToHashes.get? b).getD [] := by
  induction bs generalizing c with
  | nil => exact ⟨by simp, hk⟩
  | cons x bs ih =>
    rw [List.foldl_cons] at hget ⊢
    by_cases hx : x = b
    · subst hx
      exfalso
      have hgone : (c.onBlockFreed x).prefixIndex.get? k = none := by
        unfold onBlockFreed
        cases hhashes : c.blockIdToHashes.get? x with
        | none =>
          rw [hhashes] at hk
          cases hk
        | some hs =>
          rw [hhashes, Option.getD_some] at hk
          exact foldl_erase_none hk _
      rw [foldl_onBlockFreed_index hget] at hgone
      cases hgone
    · have hkept : k ∈ ((c.onBlockFreed x).blockIdToHashes.get? b).getD [] := by
        unfold onBlockFreed
        split
        · exact hk
        · rw [Dict.get?_erase_ne _ (Ne.symm hx)]
          exact hk
      obtain ⟨hnot, hin⟩ := ih hget hkept
      refine ⟨fun hmem => ?_, hin⟩
      cases hmem with
      | head => exact hx rfl
      | tail _ hmem => exact hnot hmem

/-- What the steps of a call do: announce what they take, and drop index entries together with
their place in the reverse index. -/
structure Follows (c c' : BlockAwarePrefixCache) (told : List Nat) : Prop where
  callback : c'.callback = c.callback
  pins : c'.pinnedBlocks = c.pinnedBlocks
  tells : Tells c.callback c.pagedCache c'.pagedCache told
  index : ∀ k e, c'.prefixIndex.get? k = some e → c.prefixIndex.get? k = some e ∧
    ∀ b, k ∈ (c.blockIdToHashes.get? b).getD [] →
      b ∉ told ∧ k ∈ (c'.blockIdToHashes.get? b).getD []

namespace Follows

variable {c' c'' : BlockAwarePrefixCache}

theorem refl (hp : c.pool.pendingContentInvalidated = []) : Follows c c [] :=
  ⟨rfl, rfl, .refl hp, fun _ _ hget => ⟨hget, fun _ hk => ⟨by simp, hk⟩⟩⟩

theorem trans (h : Follows c c' told) (h' : Follows c' c'' told') :
    Follows c c'' (told ++ told') := by
  refine ⟨h'.callback.trans h.callback, h'.pins.trans h.pins, h.tells.trans (h.callback ▸ h'.tells),
    fun k e hget => ?_⟩
  obtain ⟨hmid, hrev'⟩ := h'.index k e hget
  obtain ⟨hold, hrev⟩ := h.index k e hmid
  refine ⟨hold, fun b hb => ?_⟩
  obtain ⟨hnot, hb'⟩ := hrev b hb
  obtain ⟨hnot', hb''⟩ := hrev' b hb'
  exact ⟨fun hm => (List.mem_append.mp hm).elim hnot hnot', hb''⟩

/-- A call of the manager. -/
theorem onPaged {α : Type} {f : Manager → α × Manager}
    (ht : Tells c.callback c.pagedCache (f c.pagedCache).2 told) : Follows c (c.onPaged f).2 told := by
  refine ⟨onPaged_callback _ _, onPaged_pinnedBlocks _ _, ?_, fun k e hget => ?_⟩
  · rw [onPaged_pagedCache]
    exact ht
  · refine ⟨onPaged_index hget, fun b hk => ?_⟩
    obtain ⟨ds, htrace, hds⟩ := ht.trace
    have hfold : (c.onPaged f).2 =
        told.foldl onBlockFreed { c with pagedCache := (f c.pagedCache).2 } := by
      simp only [BlockAwarePrefixCache.onPaged, htrace, List.drop_left, hds]
    rw [hfold] at hget ⊢
    exact told_spares hget hk

/-- An edit of the pool that nobody is told of. -/
theorem edited (h : Follows c c' told) (hcb : c''.callback = c'.callback)
    (hpins : c''.pinnedBlocks = c'.pinnedBlocks) (hidx : c''.prefixIndex = c'.prefixIndex)
    (hrev : c''.blockIdToHashes = c'.blockIdToHashes)
    (hcalls : c''.pagedCache.callbacks = c'.pagedCache.callbacks)
    (htrace : c''.pagedCache.trace = c'.pagedCache.trace)
    (hp : c''.pool.pendingContentInvalidated = [])
    (hk : ∀ b, b ∉ told → ∀ k, Holds c.pool b k → Holds c''.pool b k)
    (hpar : ∀ b, b ∉ told → ∀ k, Holds c.pool b k → (c''.pool.blocks b).parentHash ≠ none →
      (c.pool.blocks b).parentHash ≠ none) : Follows c c'' told := by
  obtain ⟨ds, hds, htold⟩ := h.tells.trace
  exact ⟨hcb.trans h.callback, hpins.trans h.pins,
    ⟨hcalls.trans h.tells.callbacks, ⟨ds, htrace.trans hds, htold⟩, hp, hk, hpar⟩,
    hidx ▸ hrev ▸ h.index⟩

end Follows

namespace Sound

variable {c' : BlockAwarePrefixCache}

theorem step (h : Sound P told c) (hf : Follows c c' told') (hst : Stood P c')
    (htab : ∀ r t, c'.pool.requestTables.get? r = some t → c.pool.requestTables.get? r = some t) :
    Sound P (told ++ told') c' where
  stood := hst
  pending := hf.tells.pending
  registered := by
    rw [hf.callback, hf.tells.callbacks]
    exact h.registered
  unpinned := hf.pins ▸ h.unpinned
  keyed r t hget := h.keyed r t (htab r t hget)
  tables r t hget hsafe := by
    have hold := h.tables r t (htab r t hget)
      fun b hb => fun hm => hsafe b hb (List.mem_append_left _ hm)
    exact hold.mono fun b hb k =>
      hf.tells.kept b (fun hm => hsafe b hb (List.mem_append_right _ hm)) k
  entered k e hget := by
    obtain ⟨hold, hrev⟩ := hf.index k e hget
    obtain ⟨hcount, b, hlast, hholds, hmem⟩ := h.entered k e hold
    obtain ⟨hnot, hmem'⟩ := hrev b hmem
    exact ⟨hcount, b, hlast, hf.tells.kept b hnot k hholds, hmem'⟩
  entries k e hget hsafe := by
    have hold := h.entries k e (hf.index k e hget).1
      fun b hb => fun hm => hsafe b hb (List.mem_append_left _ hm)
    exact hold.mono fun b hb k =>
      hf.tells.kept b (fun hm => hsafe b hb (List.mem_append_right _ hm)) k

/-- Writing a linked table. -/
theorem setTable (h : Sound P told c) (t : BlockTable)
    (ht : (∀ b ∈ t.blockIds, b ∉ told) → Linked P c.pool none t.blockIds) :
    Sound P told (c.setTable t) where
  stood := Stood.setTable h.stood t
  pending := h.pending
  registered := h.registered
  unpinned := h.unpinned
  keyed r u hu := by
    rw [show (c.setTable t).pool.requestTables = c.pool.requestTables.set t.requestId t from rfl,
      Dict.get?_set] at hu
    split at hu
    · next hr => rw [← Option.some.inj hu, hr]
    · exact h.keyed r u hu
  tables r u hu hsafe := by
    rw [show (c.setTable t).pool.requestTables = c.pool.requestTables.set t.requestId t from rfl,
      Dict.get?_set] at hu
    split at hu
    · cases hu
      exact (ht hsafe).mono fun _ _ _ hk => hk
    · exact (h.tables r u hu hsafe).mono fun _ _ _ hk => hk
  entered k e hget := ⟨(h.entered k e hget).count, (h.entered k e hget).last⟩
  entries k e hget hsafe := (h.entries k e hget hsafe).mono fun _ _ _ hk => hk

end Sound

end FusionMlx.IntactIndex
