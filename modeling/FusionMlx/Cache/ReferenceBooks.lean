import FusionMlx.Cache.PoolInvariant
import FusionMlx.Cache.OwnedBlocks

/-!
# Reference counts as the references of owners

`Owes s owed` says that every allocated block's count is exactly the number of
references `owed` attributes to somebody, and that a block with an owner is
allocated. `Books` adds that the manager stands for a ledger, which is what an
allocation needs to be known fresh. Each operation of the manager moves
`owed` by what it takes or gives back.
-/
namespace FusionMlx.ReferenceBooks

open BlockHashing BlockPool OrderedDict ResourceLedger PoolRefinement
open LookupRefinement CopyRefinement PagedCacheManager ManagerRuns PoolInvariant OwnedBlocks

variable {κ : Type} {P : Params κ} {s s' : Pool} {m m' : Manager} {owed owed' : Nat → Nat}

structure Owes (s : Pool) (owed : Nat → Nat) : Prop where
  rootHeld : 0 ∈ s.allocatedBlocks
  rootRefs : 0 < (s.blocks 0).refCount
  rootBare : (s.blocks 0).blockHash = none
  null : ∀ b, (s.blocks b).isNull = true ↔ b = 0
  live : ∀ b, 0 < owed b → b ∈ s.allocatedBlocks ∧ b ≠ 0
  counted : ∀ b ∈ s.allocatedBlocks, b ≠ 0 → (s.blocks b).refCount = owed b

def gain (owed : Nat → Nat) (b : Nat) : Nat → Nat := Function.update owed b (owed b + 1)

def lose (owed : Nat → Nat) (b : Nat) : Nat → Nat := Function.update owed b (owed b - 1)

def loseAll (owed : Nat → Nat) (bs : List Nat) : Nat → Nat := fun b => owed b - bs.count b

theorem loseAll_nil (owed : Nat → Nat) : loseAll owed [] = owed := by
  funext b
  simp [loseAll]

theorem loseAll_cons (owed : Nat → Nat) (b : Nat) (bs : List Nat) :
    loseAll owed (b :: bs) = loseAll (lose owed b) bs := by
  funext c
  simp only [loseAll, lose]
  by_cases hc : c = b
  · rw [hc, Function.update_self, List.count_cons_self]
    omega
  · rw [Function.update_of_ne hc, List.count_cons_of_ne (Ne.symm hc)]

variable {b : Nat} {bs : List Nat}

theorem count_le_lose (h : ∀ c, (b :: bs).count c ≤ owed c) (c : Nat) :
    bs.count c ≤ lose owed b c := by
  have hc := h c
  by_cases hcb : c = b
  · rw [hcb, List.count_cons_self] at hc
    rw [hcb, lose, Function.update_self]
    omega
  · rw [List.count_cons_of_ne (Ne.symm hcb)] at hc
    rwa [lose, Function.update_of_ne hcb]

namespace Owes

theorem same (h : Owes s owed) (hs : Same s s') : Owes s' owed where
  rootHeld := hs.allocated ▸ h.rootHeld
  rootRefs := by rw [hs.refs]; exact h.rootRefs
  rootBare := (hs.key 0).trans h.rootBare
  null := fun b => by rw [hs.null]; exact h.null b
  live := fun b hb => by rw [hs.allocated]; exact h.live b hb
  counted := fun b hb hne => (hs.refs b).trans (h.counted b (hs.allocated ▸ hb) hne)

theorem evicts (h : Owes s owed) (he : EvictsSome s s') : Owes s' owed := by
  obtain ⟨new, he⟩ := he
  have hkeep : ∀ b ∈ s.allocatedBlocks, 0 < (s.blocks b).refCount →
      b ∈ s'.allocatedBlocks ∧ (s'.blocks b).blockHash = (s.blocks b).blockHash := by
    intro b hb hr
    rcases he.kept b hb with hk | ⟨hz, -⟩
    · exact hk
    · omega
  have hroot := hkeep 0 h.rootHeld h.rootRefs
  refine ⟨hroot.1, ?_, hroot.2.trans h.rootBare, ?_, ?_, ?_⟩
  · rw [he.refs]
    exact h.rootRefs
  · intro b
    rw [he.null]
    exact h.null b
  · intro b hb
    obtain ⟨hin, hne⟩ := h.live b hb
    have hr := h.counted b hin hne
    exact ⟨(hkeep b hin (by omega)).1, hne⟩
  · intro b hb hne
    rw [he.refs]
    exact h.counted b (he.sub b hb) hne

theorem decrement (h : Owes s owed) (hb : 0 < owed b) :
    Owes (OwnedBlocks.decrement s b) (lose owed b) := by
  have hne := (h.live b hb).2
  have hother : ∀ c, c ≠ b → (OwnedBlocks.decrement s b).blocks c = s.blocks c ∧
      lose owed b c = owed c := fun c hc => by
    simp [OwnedBlocks.decrement, Pool.modify, lose, hc]
  refine ⟨h.rootHeld, ?_, ?_, ?_, ?_, ?_⟩
  · rw [(hother 0 hne.symm).1]
    exact h.rootRefs
  · rw [(hother 0 hne.symm).1]
    exact h.rootBare
  · intro c
    rw [← h.null c]
    by_cases hc : c = b <;> simp [OwnedBlocks.decrement, Pool.modify, CacheBlock.setRef, hc]
  · intro c hc
    by_cases hcb : c = b
    · exact hcb ▸ h.live b hb
    · exact h.live c ((hother c hcb).2 ▸ hc)
  · intro c hc hc0
    by_cases hcb : c = b
    · have hr := h.counted b (h.live b hb).1 hne
      subst hcb
      simp only [OwnedBlocks.decrement, Pool.modify, CacheBlock.setRef, lose, Function.update_self]
      omega
    · rw [(hother c hcb).1, (hother c hcb).2]
      exact h.counted c hc hc0

theorem freeBlock (h : Owes s owed) (hb : 0 < owed b) :
    Owes (s.freeBlock b).2 (lose owed b) := by
  obtain ⟨hin, hne⟩ := h.live b hb
  rcases freeBlock_evicts hin with ⟨-, hnull⟩ | he
  · exact absurd ((h.null b).mp hnull) hne
  · exact (h.decrement hb).evicts he

theorem addRef (h : Owes s owed) (hb : b ∈ s.allocatedBlocks) (hne : b ≠ 0) :
    Owes (s.addRef P b) (gain owed b) := by
  have hraise : Owes (s.modify b (fun c => c.setRef (c.refCount + 1))) (gain owed b) := by
    have hother : ∀ c, c ≠ b →
        (s.modify b (fun c => c.setRef (c.refCount + 1))).blocks c = s.blocks c ∧
          gain owed b c = owed c := fun c hc => by simp [Pool.modify, gain, hc]
    refine ⟨h.rootHeld, ?_, ?_, ?_, ?_, ?_⟩
    · rw [(hother 0 hne.symm).1]
      exact h.rootRefs
    · rw [(hother 0 hne.symm).1]
      exact h.rootBare
    · intro c
      rw [← h.null c]
      by_cases hc : c = b <;> simp [Pool.modify, CacheBlock.setRef, hc]
    · intro c hc
      by_cases hcb : c = b
      · rw [hcb]
        exact ⟨hb, hne⟩
      · exact h.live c ((hother c hcb).2 ▸ hc)
    · intro c hc hc0
      by_cases hcb : c = b
      · have hr := h.counted b hb hne
        subst hcb
        simp only [Pool.modify, CacheBlock.setRef, gain, Function.update_self]
        omega
      · rw [(hother c hcb).1, (hother c hcb).2]
        exact h.counted c hc hc0
  have htouch := hraise.same (Same.touchBlock P _ b)
  simp only [Pool.addRef]
  split
  · exact htouch.same (Same.bump _ _)
  · exact htouch

/-- Only the digest and the token count of a block change. -/
theorem relabel {f : CacheBlock → CacheBlock} (h : Owes s owed) (hne : b ≠ 0)
    (hr : (f (s.blocks b)).refCount = (s.blocks b).refCount)
    (hn : (f (s.blocks b)).isNull = (s.blocks b).isNull) : Owes (s.modify b f) owed := by
  have hrefs : ∀ c, ((s.modify b f).blocks c).refCount = (s.blocks c).refCount := fun c => by
    by_cases hc : c = b <;> simp [Pool.modify, hc, hr]
  have hroot : (s.modify b f).blocks 0 = s.blocks 0 := by simp [Pool.modify, hne.symm]
  refine ⟨h.rootHeld, hroot ▸ h.rootRefs, hroot ▸ h.rootBare, ?_, h.live, ?_⟩
  · intro c
    rw [← h.null c]
    by_cases hc : c = b <;> simp [Pool.modify, hc, hn]
  · intro c hc hc0
    rw [hrefs]
    exact h.counted c hc hc0

theorem registerBlockHash (h : Owes s owed) (hne : b ≠ 0) (tokens : List Int)
    (parent : Option BlockHash) (salt : Option (List κ)) :
    Owes (s.registerBlockHash P b tokens parent salt) owed := by
  simp only [Pool.registerBlockHash]
  split
  · have hr := h.relabel (f := fun c => { c with blockHash := some (P.hash parent tokens salt) })
      hne rfl rfl
    exact ⟨hr.rootHeld, hr.rootRefs, hr.rootBare, hr.null, hr.live, hr.counted⟩
  · exact h

theorem releaseOne (h : Owes s owed) (hb : 0 < owed b) :
    Owes (s.releaseOne b).2 (lose owed b) := by
  obtain ⟨hin, hne⟩ := h.live b hb
  have hn : ¬ (s.blocks b).isNull = true := fun hx => hne ((h.null b).mp hx)
  have hr := h.counted b hin hne
  have hd := h.decrement hb
  simp only [OwnedBlocks.decrement] at hd
  simp only [Pool.releaseOne]
  rw [if_pos ⟨hin, hn, by omega⟩]
  dsimp only
  split
  · exact hd.same (Same.bump _ _)
  · exact hd

theorem releaseForEviction (h : Owes s owed) (hle : ∀ b, bs.count b ≤ owed b) :
    Owes (s.releaseForEviction bs).2 (loseAll owed bs) := by
  induction bs generalizing s owed with
  | nil =>
    rw [loseAll_nil]
    exact h
  | cons b bs ih =>
    have hb : 0 < owed b := by
      have := hle b
      rw [List.count_cons_self] at this
      omega
    rw [loseAll_cons]
    exact ih (h.releaseOne hb) (count_le_lose hle)

/-- A block handed to one new user. -/
theorem handed {a a' : Ledger Nat BlockHash} (h : Owes s owed) (hr : Refines P s a)
    (hr' : Refines P s' a') (hh : Handed a a' [b]) :
    owed b = 0 ∧ b ≠ 0 ∧ Owes s' (gain owed b) := by
  have hfresh : b ∉ s.allocatedBlocks := by
    rw [← hr.held]
    exact hh.fresh b (by simp)
  have hzero : owed b = 0 := by
    by_contra hne
    exact hfresh (h.live b (by omega)).1
  have hne : b ≠ 0 := by
    rintro rfl
    exact hfresh h.rootHeld
  have hmem : ∀ c, c ∈ s'.allocatedBlocks ↔ c = b ∨ c ∈ s.allocatedBlocks := by
    intro c
    rw [← hr'.held, hh.held, hr.held, List.mem_singleton]
  have hother : ∀ c ∈ s.allocatedBlocks, (s'.blocks c).refCount = (s.blocks c).refCount ∧
      (s'.blocks c).blockHash = (s.blocks c).blockHash := by
    intro c hc
    obtain ⟨h₁, h₂, -⟩ := hh.others c ((hr.held c).mpr hc)
    exact ⟨by rw [hr'.refs, hr.refs, h₁], by rw [hr'.key, hr.key, h₂]⟩
  refine ⟨hzero, hne, (hmem 0).mpr (Or.inr h.rootHeld), ?_, ?_, hr'.null, ?_, ?_⟩
  · rw [(hother 0 h.rootHeld).1]
    exact h.rootRefs
  · rw [(hother 0 h.rootHeld).2]
    exact h.rootBare
  · intro c hc
    by_cases hcb : c = b
    · exact ⟨(hmem c).mpr (Or.inl hcb), hcb ▸ hne⟩
    · rw [gain, Function.update_of_ne hcb] at hc
      exact ⟨(hmem c).mpr (Or.inr (h.live c hc).1), (h.live c hc).2⟩
  · intro c hc hc0
    by_cases hcb : c = b
    · subst hcb
      rw [hr'.refs, hh.refs c (by simp), gain, Function.update_self, hzero]
      rfl
    · rw [gain, Function.update_of_ne hcb]
      have hin := ((hmem c).mp hc).resolve_left hcb
      rw [(hother c hin).1]
      exact h.counted c hin hc0

end Owes

structure Books (P : Params κ) (m : Manager) (owed : Nat → Nat) : Prop where
  sized : 0 < min P.initialBlocks P.maxBlocks
  stands : ∃ a, Stands P m a
  owes : Owes m.pool owed

/-- What a flush leaves of a pool. -/
theorem ends_pool {s : Pool} (he : Ends m s m') : m'.pool.blocks = s.blocks ∧
    m'.pool.allocatedBlocks = s.allocatedBlocks ∧ m'.pool.requestTables = s.requestTables ∧
    m'.pool.cachedBlockHashToBlock = s.cachedBlockHashToBlock := by
  cases he with
  | plain => exact ⟨rfl, rfl, rfl, rfl⟩
  | flushed =>
    simp only [Manager.flushContentInvalidated]
    split <;> exact ⟨rfl, rfl, rfl, rfl⟩

theorem Owes.ends {s : Pool} (h : Owes s owed) (he : Ends m s m') : Owes m'.pool owed := by
  obtain ⟨hb, ha, -⟩ := ends_pool he
  exact ⟨ha ▸ h.rootHeld, hb ▸ h.rootRefs, hb ▸ h.rootBare, hb ▸ h.null, ha ▸ h.live, ha ▸ hb ▸ h.counted⟩

theorem releaseForEviction_tables (s : Pool) (bs : List Nat) :
    (s.releaseForEviction bs).2.requestTables = s.requestTables := by
  induction bs generalizing s with
  | nil => rfl
  | cons b bs ih =>
    refine (ih (s.releaseOne b).2).trans ?_
    simp only [Pool.releaseOne]
    split
    · dsimp only
      split <;> rfl
    · rfl

namespace Books

theorem exec_stands (h : Books P m owed) (op : Op κ) (hwf : op.WellFormed m) :
    ∃ a, Stands P (exec P m op) a := by
  obtain ⟨a, hst⟩ := h.stands
  obtain ⟨a', hst', -⟩ := exec_keeps (steady_true Rules.any) h.sized hst trivial op hwf
    (allowed_any P m a op)
  exact ⟨a', hst'⟩

/-- Books are kept about the pool only. -/
theorem same (h : Books P m owed) (hs : Same m.pool m'.pool) : Books P m' owed := by
  obtain ⟨a, hst⟩ := h.stands
  exact ⟨h.sized, ⟨a, hst.refines.same hs, hst.sound, hst.settled⟩, h.owes.same hs⟩

theorem freeBlock (h : Books P m owed) (hb : 0 < owed b) :
    Books P (m.freeBlock b).2 (lose owed b) ∧
      (m.freeBlock b).2.pool.requestTables = m.pool.requestTables := by
  obtain ⟨hin, hne⟩ := h.owes.live b hb
  have he : Ends m (m.pool.freeBlock b).2 (m.freeBlock b).2 := by
    simp only [Manager.freeBlock, hin, if_true]
    exact ends_thenFlush .all (fun s => s.freeBlock b) m
  refine ⟨⟨h.sized, h.exec_stands (.freeBlock b) trivial, (h.owes.freeBlock hb).ends he⟩, ?_⟩
  rw [(ends_pool he).2.2.1]
  rcases freeBlock_evicts hin with ⟨hs, -⟩ | ⟨new, hev⟩
  · rw [hs]
  · exact hev.tables

theorem freeAll (h : Books P m owed) (hle : ∀ b, bs.count b ≤ owed b) :
    Books P (bs.foldl (fun m b => (m.freeBlock b).2) m) (loseAll owed bs) ∧
      (bs.foldl (fun m b => (m.freeBlock b).2) m).pool.requestTables = m.pool.requestTables := by
  induction bs generalizing m owed with
  | nil =>
    rw [loseAll_nil]
    exact ⟨h, rfl⟩
  | cons b bs ih =>
    have hb : 0 < owed b := by
      have := hle b
      rw [List.count_cons_self] at this
      omega
    obtain ⟨h₁, ht₁⟩ := h.freeBlock hb
    obtain ⟨h₂, ht₂⟩ := ih h₁ (count_le_lose hle)
    rw [loseAll_cons, List.foldl_cons]
    exact ⟨h₂, ht₂.trans ht₁⟩

theorem deleteBlockTable {r : String} (h : Books P m owed)
    (hle : ∀ t, m.pool.requestTables.get? r = some t → ∀ b, t.blockIds.count b ≤ owed b) :
    Books P (m.deleteBlockTable r)
        (loseAll owed (((m.pool.requestTables.get? r).map BlockTable.blockIds).getD [])) ∧
      (m.deleteBlockTable r).pool.requestTables = m.pool.requestTables.erase r := by
  have hd : Books P { m with
      holds := m.holds.acquire .all, pool := (m.pool.detachRequestTable r).2 } owed :=
    h.same (detachRequestTable_same _ r)
  simp only [Manager.deleteBlockTable, Manager.withLocks, Manager.onPool, Pool.detachRequestTable]
  cases ht : m.pool.requestTables.get? r with
  | none =>
    simp only [Option.map_none, Option.getD_none, loseAll_nil]
    exact ⟨hd.same (.refl _), trivial⟩
  | some t =>
    obtain ⟨h₁, ht₁⟩ := hd.freeAll (hle t ht)
    simp only [Option.map_some, Option.getD_some]
    exact ⟨h₁.same (.refl _), ht₁⟩

theorem incrementRef (h : Books P m owed) (hb : b ∈ m.pool.allocatedBlocks) (hne : b ≠ 0) :
    (m.incrementRef P b).1 = true ∧ Books P (m.incrementRef P b).2 (gain owed b) ∧
      (m.incrementRef P b).2.pool.requestTables = m.pool.requestTables := by
  have heq : m.incrementRef P b = (true, { m with pool := m.pool.addRef P b }) := by
    simp only [Manager.incrementRef, locked_eq, Pool.incrementRef, hb, if_true]
  have hst := h.exec_stands (.incrementRef b) trivial
  simp only [exec] at hst
  rw [heq] at hst ⊢
  refine ⟨rfl, ⟨h.sized, hst, h.owes.addRef hb hne⟩, ?_⟩
  simp only [Pool.addRef]
  split <;> rfl

theorem handleMemoryPressure (h : Books P m owed) (n : Int) :
    Books P (m.handleMemoryPressure n).2 owed ∧
      (m.handleMemoryPressure n).2.pool.requestTables = m.pool.requestTables := by
  have he := ends_flush .all (fun s => s.handleMemoryPressure n) m
  have hev := handleMemoryPressure_evicts m.pool n
  refine ⟨⟨h.sized, h.exec_stands (.handleMemoryPressure n) trivial, (h.owes.evicts hev).ends he⟩, ?_⟩
  obtain ⟨new, hev⟩ := hev
  exact (ends_pool he).2.2.1.trans hev.tables

theorem releaseForEviction (h : Books P m owed) (hle : ∀ b, bs.count b ≤ owed b) :
    Books P (m.releaseForEviction bs).2 (loseAll owed bs) ∧
      (m.releaseForEviction bs).2.pool.requestTables = m.pool.requestTables := by
  have hst := h.exec_stands (.releaseForEviction bs) trivial
  have hends := ends_locked .tableOnly (fun s => s.releaseForEviction bs) m
  exact ⟨⟨h.sized, hst, (h.owes.releaseForEviction hle).ends hends⟩,
    (ends_pool hends).2.2.1.trans (releaseForEviction_tables m.pool bs)⟩

theorem claimPopped_tables (s : Pool) (b : Nat) :
    (s.claimPopped P b).requestTables = s.requestTables := by
  have hevict : (s.maybeEvictCachedBlock b).requestTables = s.requestTables := by
    simp only [Pool.maybeEvictCachedBlock]
    split
    · rfl
    · split <;> rfl
  simp only [Pool.claimPopped, Pool.addAllocated, Pool.touchBlock, Pool.modify]
  split
  · exact hevict
  · rfl

theorem allocatePopped_tables (s : Pool) :
    (s.allocatePopped P).2.requestTables = s.requestTables := by
  simp only [Pool.allocatePopped]
  split
  · rfl
  · exact claimPopped_tables _ _

theorem allocateBlockInternal_tables (s : Pool) :
    (s.allocateBlockInternal P).2.requestTables = s.requestTables := by
  have hgrow : ∀ n, (s.growBlocks P n).2.requestTables = s.requestTables := by
    intro n
    simp only [Pool.growBlocks]
    split <;> rfl
  simp only [Pool.allocateBlockInternal]
  split
  · split
    · exact hgrow _
    · exact (allocatePopped_tables _).trans (hgrow _)
  · exact allocatePopped_tables s

/-- What an allocation answers: nothing, or a block that nobody owned and no entry lists. -/
theorem allocateBlock (h : Books P m owed) :
    (m.allocateBlock P).2.pool.requestTables = m.pool.requestTables ∧
      (((m.allocateBlock P).1 = .ok none ∧ Books P (m.allocateBlock P).2 owed) ∨
        ∃ b, (m.allocateBlock P).1 = .ok (some b) ∧ b ≠ 0 ∧ owed b = 0 ∧
          (∀ k, ¬ (m.allocateBlock P).2.pool.cachedBlockHashToBlock.Registered k b) ∧
          Books P (m.allocateBlock P).2 (gain owed b)) := by
  obtain ⟨a, hst⟩ := h.stands
  have he := ends_thenFlush .all (Pool.allocateBlockInternal P) m
  have hst' := h.exec_stands .allocateBlock trivial
  obtain ⟨a', hr', hm', hcase⟩ :=
    allocateBlockInternal_refines hst.refines hst.sound (R := Rules.any)
  refine ⟨(ends_pool he).2.2.1.trans (allocateBlockInternal_tables m.pool), ?_⟩
  rw [allocateBlock_result]
  rcases hcase with ⟨hnone, rfl⟩ | ⟨b, hb, hh⟩
  · have hown : Owes (m.pool.allocateBlockInternal P).2 owed := by
      refine ⟨(hr'.held 0).mp hst.sound.rootHeld, ?_, ?_, hr'.null, ?_, ?_⟩
      · rw [hr'.refs]
        exact hst.sound.rootRefs
      · rw [hr'.key, ← hst.refines.key]
        exact h.owes.rootBare
      · intro c hc
        rw [← hr'.held, hst.refines.held]
        exact h.owes.live c hc
      · intro c hc hc0
        rw [hr'.refs, ← hst.refines.refs]
        exact h.owes.counted c ((hst.refines.held c).mp ((hr'.held c).mpr hc)) hc0
    exact Or.inl ⟨hnone, h.sized, hst', hown.ends he⟩
  · obtain ⟨hzero, hne, hown⟩ := h.owes.handed hst.refines hr' hh
    refine Or.inr ⟨b, hb, hne, hzero, ?_, h.sized, hst', hown.ends he⟩
    intro k hreg
    rw [show (m.allocateBlock P).2.pool.cachedBlockHashToBlock = _ from (ends_pool he).2.2.2,
      ← hr'.entries, hh.entries] at hreg
    exact hh.fresh b (by simp) (hst.sound.listed k b hreg).1

/-- A block the hash map answers is allocated and not the null block. -/
theorem findCachedBlock (h : Books P m owed) (tokens : List Int) (parent : Option BlockHash)
    (salt : Option (List κ)) :
    Books P (m.findCachedBlock P tokens parent salt).2 owed ∧
      (m.findCachedBlock P tokens parent salt).2.pool.requestTables = m.pool.requestTables ∧
      ∀ b, (m.findCachedBlock P tokens parent salt).1 = some b →
        b ∈ (m.findCachedBlock P tokens parent salt).2.pool.allocatedBlocks ∧ b ≠ 0 ∧
          ((m.findCachedBlock P tokens parent salt).2.pool.blocks b).blockHash =
            some (P.hash parent tokens salt) := by
  have hsame : Same m.pool (m.findCachedBlock P tokens parent salt).2.pool ∧
      (m.findCachedBlock P tokens parent salt).2.pool.requestTables = m.pool.requestTables := by
    simp only [Manager.findCachedBlock, locked_eq, Pool.findCachedBlock]
    split
    · split
      · dsimp only
        exact ⟨(Same.touchBlock P _ _).trans (Same.bump _ _), rfl⟩
      · dsimp only
        exact ⟨Same.bump _ _, rfl⟩
    · exact ⟨.refl _, rfl⟩
  obtain ⟨a, hst⟩ := h.stands
  refine ⟨h.same hsame.1, hsame.2, fun b hb => ?_⟩
  obtain ⟨hr', hres⟩ := findCachedBlock_refines hst.refines tokens parent salt
  have hfound : FoundUnder (m.findCachedBlock P tokens parent salt).2.pool
      (P.hash parent tokens salt) b := by
    simp only [Manager.findCachedBlock, locked_eq] at hb ⊢
    exact foundUnder_of_listed hr' hst.sound (hres b hb)
  refine ⟨hfound.allocated, ?_, hfound.hash⟩
  rintro rfl
  have hbare := (h.owes.same hsame.1).rootBare
  rw [hfound.hash] at hbare
  cases hbare

theorem not_registered (h : Books P m owed) (hb : (m.pool.blocks b).blockHash = none)
    (k : BlockHash) : ¬ m.pool.cachedBlockHashToBlock.Registered k b := by
  obtain ⟨a, hst⟩ := h.stands
  intro hreg
  have hfound := foundUnder_of_listed hst.refines hst.sound ((hst.refines.entries k b).mpr hreg)
  rw [hfound.hash] at hb
  cases hb

/-- A block that no entry lists may be given any digest. -/
theorem relabel {f : CacheBlock → CacheBlock} {k : BlockHash} (h : Books P m owed) (hne : b ≠ 0)
    (hl : ∀ k, ¬ m.pool.cachedBlockHashToBlock.Registered k b)
    (hr : (f (m.pool.blocks b)).refCount = (m.pool.blocks b).refCount)
    (hk : (f (m.pool.blocks b)).blockHash = some k)
    (hp : (f (m.pool.blocks b)).parentHash = (m.pool.blocks b).parentHash)
    (hn : (f (m.pool.blocks b)).isNull = (m.pool.blocks b).isNull) :
    Books P { m with pool := m.pool.modify b f } owed := by
  obtain ⟨a, hst⟩ := h.stands
  exact ⟨h.sized, hst.relabel hl hr hk hp hn, h.owes.relabel hne hr hn⟩

theorem registerBlockHash (h : Books P m owed) (hb : b ∈ m.pool.allocatedBlocks)
    (hne : b ≠ 0) (hl : ∀ k, ¬ m.pool.cachedBlockHashToBlock.Registered k b) (tokens : List Int)
    (parent : Option BlockHash) (salt : Option (List κ)) :
    Books P (m.registerBlockHash P b tokens parent salt) owed ∧
      (m.registerBlockHash P b tokens parent salt).pool.requestTables = m.pool.requestTables := by
  have hst := h.exec_stands (.registerBlockHash b tokens parent salt) ⟨hb, hl⟩
  have hends := ends_locked .mapOnly
    (fun s => ((), s.registerBlockHash P b tokens parent salt)) m
  refine ⟨⟨h.sized, hst, (h.owes.registerBlockHash hne tokens parent salt).ends hends⟩, ?_⟩
  refine (ends_pool hends).2.2.1.trans ?_
  simp only [Pool.registerBlockHash]
  split <;> rfl

end Books

theorem Owes.fresh {n : Nat} {pending : List Nat} (h : Refines P s (freshLedger n pending)) :
    Owes s (fun _ => 0) := by
  have honly : ∀ b, b ∈ s.allocatedBlocks ↔ b = 0 := fun b => (h.held b).symm
  refine ⟨(honly 0).mpr rfl, ?_, h.key 0, h.null, fun b hb => absurd hb (Nat.lt_irrefl 0), ?_⟩
  · rw [h.refs]
    simp [freshLedger]
  · intro b hb hne
    exact absurd ((honly b).mp hb) hne

theorem books_init (h : Manager.init P = .ok m) : Books P m (fun _ => 0) := by
  obtain ⟨hst, hpos⟩ := stands_init h
  exact ⟨hpos, ⟨_, hst⟩, .fresh hst.refines⟩

theorem init_tables (h : Manager.init P = .ok m) : m.pool.requestTables = Dict.empty := by
  cases hs : Pool.init P with
  | error e =>
    simp only [Manager.init, hs, Except.map] at h
    cases h
  | ok s =>
    simp only [Manager.init, hs, Except.map, Except.ok.injEq] at h
    subst h
    simp only [Pool.init] at hs
    split at hs
    · cases hs
    · cases hs
      rfl

/-- Nobody owns anything once the manager is cleared. -/
theorem Books.clear (h : Books P m owed) :
    Books P (m.clear P).2 (fun _ => 0) ∧ (m.clear P).2.pool.requestTables = Dict.empty := by
  obtain ⟨a, hst⟩ := h.stands
  obtain ⟨stale, hr, -⟩ := clear_refines hst.refines h.sized
  have hpool : (m.clear P).2.pool = (m.pool.clear P).2 := by
    simp only [Manager.clear, locked_eq]
  refine ⟨⟨h.sized, h.exec_stands .clear trivial, ?_⟩, ?_⟩
  · rw [hpool]
    exact .fresh hr
  · obtain ⟨s, hs, -⟩ := init_refines { P with clock := fun n => P.clock (m.pool.ticks + n) } h.sized
    rw [hpool]
    simp only [Pool.clear, hs]
    simp only [Pool.init] at hs
    split at hs
    · cases hs
    · cases hs
      rfl

end FusionMlx.ReferenceBooks
