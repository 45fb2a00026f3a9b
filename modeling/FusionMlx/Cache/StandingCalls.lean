import FusionMlx.Cache.RadixLookup
import FusionMlx.Cache.ReferenceBooks

/-!
# Every call leaves a pool that stands

Whatever the two prefix caches are asked to do, in any order, their manager
stands for a sound ledger: blocks are in one place each, listed blocks are
allocated under their digest, and an allocation never raises.
-/
namespace FusionMlx.StandingCalls

open BlockHashing BlockPool OrderedDict ResourceLedger PoolRefinement
open PagedCacheManager ManagerRuns PoolInvariant ReferenceBooks PrefixCache PrefixCache.BlockAwarePrefixCache

variable {κ : Type} {P : Params κ} {m : Manager} {c : BlockAwarePrefixCache}

structure Standing (P : Params κ) (m : Manager) : Prop where
  sized : 0 < min P.initialBlocks P.maxBlocks
  stands : ∃ a, Stands P m a

namespace Standing

theorem exec (h : Standing P m) (op : Op κ) (hwf : op.WellFormed m) :
    Standing P (PagedCacheManager.exec P m op) := by
  obtain ⟨a, hst⟩ := h.stands
  obtain ⟨a', hst', -⟩ := exec_keeps (steady_true Rules.any) h.sized hst trivial op hwf
    (allowed_any P m a op)
  exact ⟨h.sized, a', hst'⟩

theorem same {m' : Manager} (h : Standing P m) (hs : Same m.pool m'.pool) : Standing P m' := by
  obtain ⟨a, hst⟩ := h.stands
  exact ⟨h.sized, a, hst.refines.same hs, hst.sound, hst.settled⟩

/-- An allocation answers nothing, or a block that no entry lists. -/
theorem allocateBlock (h : Standing P m) :
    (m.allocateBlock P).1 = .ok none ∨
      ∃ b, (m.allocateBlock P).1 = .ok (some b) ∧ b ∈ (m.allocateBlock P).2.pool.allocatedBlocks ∧
        ∀ k, ¬ (m.allocateBlock P).2.pool.cachedBlockHashToBlock.Registered k b := by
  obtain ⟨a, hst⟩ := h.stands
  have he := ends_thenFlush .all (Pool.allocateBlockInternal P) m
  obtain ⟨a', hr', -, hcase⟩ :=
    allocateBlockInternal_refines hst.refines hst.sound (R := Rules.any)
  rw [allocateBlock_result]
  cases hcase with
  | inl hnone => exact .inl hnone.1
  | inr hsome =>
    obtain ⟨b, hb, hh⟩ := hsome
    refine .inr ⟨b, hb, ?_, ?_⟩
    · rw [show (m.allocateBlock P).2.pool.allocatedBlocks = _ from (ends_pool he).2.1, ← hr'.held]
      exact (hh.held b).mpr (.inl (by simp))
    · intro k hreg
      rw [show (m.allocateBlock P).2.pool.cachedBlockHashToBlock = _ from (ends_pool he).2.2.2,
        ← hr'.entries, hh.entries] at hreg
      exact hh.fresh b (by simp) (hst.sound.listed k b hreg).1

/-- An unlisted block may be given any digest. -/
theorem relabel {b : Nat} {f : CacheBlock → CacheBlock} {k : BlockHash} (h : Standing P m)
    (hl : ∀ k, ¬ m.pool.cachedBlockHashToBlock.Registered k b)
    (hr : (f (m.pool.blocks b)).refCount = (m.pool.blocks b).refCount)
    (hk : (f (m.pool.blocks b)).blockHash = some k)
    (hp : (f (m.pool.blocks b)).parentHash = (m.pool.blocks b).parentHash)
    (hn : (f (m.pool.blocks b)).isNull = (m.pool.blocks b).isNull) :
    Standing P { m with pool := m.pool.modify b f } := by
  obtain ⟨a, hst⟩ := h.stands
  exact ⟨h.sized, hst.relabel hl hr hk hp hn⟩

end Standing

abbrev Stood (P : Params κ) (c : BlockAwarePrefixCache) : Prop := Standing P c.pagedCache

namespace Stood

theorem onPaged {α : Type} {f : Manager → α × Manager} (h : Standing P (f c.pagedCache).2) :
    Stood P (c.onPaged f).2 := by
  rw [Stood, onPaged_pagedCache]
  exact h

theorem paged {α : Type} {f : Manager → α × Manager} (op : Op κ) (h : Stood P c)
    (hf : (f c.pagedCache).2 = exec P c.pagedCache op) (hwf : op.WellFormed c.pagedCache) :
    Stood P (c.onPaged f).2 :=
  onPaged (hf ▸ h.exec op hwf)

theorem freeBlock (h : Stood P c) (b : Nat) : Stood P (c.freeBlock b) :=
  h.paged (.freeBlock b) rfl trivial

theorem incrementRef (h : Stood P c) (b : Nat) :
    Stood P (c.onPaged (fun m => m.incrementRef P b)).2 :=
  h.paged (.incrementRef b) rfl trivial

theorem createBlockTable (h : Stood P c) (r : String) : Stood P (c.createBlockTable r) := by
  rw [Stood, createBlockTable_pagedCache]
  exact h.exec (.createBlockTable r) trivial

theorem setTable (h : Stood P c) (t : BlockTable) : Stood P (c.setTable t) :=
  h.same (Same.setTable _ t)

theorem freeAll (h : Stood P c) (bs : List Nat) :
    Stood P (bs.foldl BlockAwarePrefixCache.freeBlock c) := by
  induction bs generalizing c with
  | nil => exact h
  | cons b bs ih => exact ih (h.freeBlock b)

theorem dropPins (h : Stood P c) (bs : List Nat) :
    Stood P (bs.foldl BlockAwarePrefixCache.dropPin c) := by
  induction bs generalizing c with
  | nil => exact h
  | cons b bs ih => exact ih (freeBlock (c := { c with pinnedBlocks := c.pinnedBlocks.erase b }) h b)

theorem expirePinnedBlocks (h : Stood P c) (now : Nat) : Stood P (c.expirePinnedBlocks now) :=
  h.dropPins _

theorem maybeExpirePinnedBlocks (h : Stood P c) (now : Clocks) :
    Stood P (c.maybeExpirePinnedBlocks now) := by
  unfold BlockAwarePrefixCache.maybeExpirePinnedBlocks
  split
  · exact h
  · split
    · exact h
    · exact expirePinnedBlocks (c := { c with lastPinExpiryCheck := now.monotonic }) h now.time

theorem claimIndexed (h : Stood P c) (bs : List Nat) : Stood P (claimIndexed P bs c).2 := by
  induction bs generalizing c with
  | nil => exact h
  | cons b bs ih =>
    rw [BlockAwarePrefixCache.claimIndexed]
    split
    · exact ih (h.incrementRef b)
    · exact h

theorem fetchShared (h : Stood P c) (r : String) (tokens : List Int) (shared : List Nat) :
    Stood P (c.fetchShared r tokens shared).2 := by
  unfold BlockAwarePrefixCache.fetchShared
  split
  · exact h
  · exact (h.createBlockTable r).setTable _

theorem fetchIndexed (h : Stood P c) (r : String) (tokens : List Int) (shared : List Nat)
    (e : IndexEntry) : Stood P (c.fetchIndexed P r tokens shared e).2 := by
  have hw := (h.createBlockTable r).claimIndexed (e.blockIds.take e.numBlocks)
  unfold BlockAwarePrefixCache.fetchIndexed
  dsimp only
  split
  · exact hw.fetchShared r tokens shared
  · exact (hw.setTable _).freeAll shared

theorem fetchCache (h : Stood P c) (ssd : Option (BlockHash → Bool)) (now : Clocks) (r : String)
    (tokens : List Int) (args : KeyArgs κ) : Stood P (c.fetchCache P ssd now r tokens args).2 := by
  have hlook : Stood P ((c.maybeExpirePinnedBlocks now).onPaged
      (fun m => m.getComputedBlocks P ssd tokens args true)).2 :=
    (h.maybeExpirePinnedBlocks now).paged (.getComputedBlocks ssd tokens args true) rfl trivial
  unfold BlockAwarePrefixCache.fetchCache
  split
  · exact h
  · generalize (c.maybeExpirePinnedBlocks now).onPaged
      (fun m => m.getComputedBlocks P ssd tokens args true) = q at hlook
    obtain ⟨answer, d⟩ := q
    cases answer with
    | error e => exact hlook
    | ok found =>
      dsimp only
      split
      · exact hlook.fetchShared r tokens found.1
      · dsimp only
        split
        · exact hlook.fetchIndexed r tokens found.1 _
        · exact hlook.fetchShared r tokens found.1

theorem obtainBlock (h : Stood P c) :
    Stood P (c.obtainBlock P).2 ∧ ∀ b, (c.obtainBlock P).1 = .ok (some b) →
      b ∈ (c.obtainBlock P).2.pool.allocatedBlocks ∧
        ∀ k, ¬ (c.obtainBlock P).2.pool.cachedBlockHashToBlock.Registered k b := by
  have halloc : ∀ c : BlockAwarePrefixCache, Stood P c →
      Stood P (c.onPaged (fun m => m.allocateBlock P)).2 ∧
        ∀ b, (c.onPaged (fun m => m.allocateBlock P)).1 = .ok (some b) →
          b ∈ (c.onPaged (fun m => m.allocateBlock P)).2.pool.allocatedBlocks ∧
            ∀ k, ¬ (c.onPaged (fun m => m.allocateBlock P)).2.pool.cachedBlockHashToBlock.Registered
              k b := by
    intro c h
    refine ⟨h.paged .allocateBlock rfl trivial, fun b hb => ?_⟩
    rw [pool, onPaged_pagedCache]
    rw [onPaged_fst] at hb
    rcases h.allocateBlock with hnone | ⟨b', hb', hin, hl⟩
    · rw [hnone] at hb
      cases hb
    · rw [hb'] at hb
      cases hb
      exact ⟨hin, hl⟩
  simp only [BlockAwarePrefixCache.obtainBlock]
  have h₁ := halloc c h
  generalize c.onPaged (fun m => m.allocateBlock P) = q at h₁
  obtain ⟨answer, d⟩ := q
  cases answer with
  | error e => exact h₁
  | ok found =>
    cases found with
    | some b => exact h₁
    | none =>
      have hpress : Stood P (d.onPaged (fun m => m.handleMemoryPressure 1)).2 :=
        h₁.1.paged (.handleMemoryPressure 1) rfl trivial
      dsimp only
      generalize d.onPaged (fun m => m.handleMemoryPressure 1) = q at hpress
      obtain ⟨enough, d'⟩ := q
      cases enough with
      | false => exact ⟨hpress, nofun⟩
      | true => exact halloc d' hpress

theorem fillBlock {b : Nat} (h : Stood P c) (hb : b ∈ c.pool.allocatedBlocks)
    (hl : ∀ k, ¬ c.pool.cachedBlockHashToBlock.Registered k b) (ts : List Int)
    (parent : Option BlockHash) (salt : Option (List κ)) :
    Stood P (c.fillBlock P b ts parent salt) := by
  have hrel := h.relabel (f := fun d =>
    { d with tokenCount := ts.length, blockHash := some (P.hash parent ts salt) }) hl rfl rfl rfl rfl
  have hedit : Stood P (c.edit (fun s =>
      ((s.modify b (fun d => { d with tokenCount := ts.length })).bump (fun u =>
        { u with totalTokensCached := u.totalTokensCached + ts.length })).modify b (fun d =>
          { d with blockHash := some (P.hash parent ts salt) }))) :=
    hrel.same (.fill ..)
  exact hedit.paged (.registerBlockHash b ts parent salt) rfl ⟨hb, hl⟩

theorem storeRound (h : Stood P c) (tier : StoreTier) (args : KeyArgs κ) (existingTokens : Nat)
    (newTokens : List Int) (i : Nat) (t : BlockTable) :
    Stood P (c.storeRound P tier args existingTokens newTokens i t).cache := by
  simp only [BlockAwarePrefixCache.storeRound]
  cases resolveBlockExtraKeys (existingTokens + (i + 1) * P.blockSize) args with
  | error e => exact h
  | ok salt =>
    dsimp only
    generalize c.tailHash t = parent
    generalize blockTokens P.blockSize newTokens i = ts
    have hf : Stood P (c.onPaged (fun m => m.findCachedBlock P ts parent salt)).2 :=
      h.paged (.findCachedBlock ts parent salt) rfl trivial
    generalize c.onPaged (fun m => m.findCachedBlock P ts parent salt) = f at hf
    cases f.1.filter (fun _ => tier.resident i) with
    | some b => exact hf.incrementRef b
    | none =>
      dsimp only
      have ho := hf.obtainBlock
      generalize f.2.obtainBlock P = q at ho
      obtain ⟨answer, d⟩ := q
      cases answer with
      | error e => exact ho.1
      | ok found =>
        cases found with
        | none => exact ho.1
        | some b =>
          obtain ⟨hb, hl⟩ := ho.2 b rfl
          have hfill := ho.1.fillBlock hb hl ts parent salt
          dsimp only
          split
          · exact hfill
          · exact hfill.freeBlock b

theorem storeLoop (h : Stood P c) (tier : StoreTier) (args : KeyArgs κ) (existingTokens : Nat)
    (newTokens : List Int) (n i : Nat) (t : BlockTable) :
    Stood P (c.storeLoop P tier args existingTokens newTokens n i t).2 := by
  induction n generalizing i t c with
  | zero => exact h.setTable t
  | succ n ih =>
    have hround := h.storeRound tier args existingTokens newTokens i t
    simp only [BlockAwarePrefixCache.storeLoop]
    generalize c.storeRound P tier args existingTokens newTokens i t = r at hround
    obtain ⟨outcome, table, cache⟩ := r
    cases outcome with
    | next => exact ih hround (i + 1) table
    | stop => exact hround.setTable table
    | raised e => exact hround.setTable table

theorem openTable (h : Stood P c) (r : String) : Stood P (c.openTable r).2 := by
  unfold BlockAwarePrefixCache.openTable
  split
  · exact h.createBlockTable r
  · split
    · exact h.createBlockTable r
    · exact h

/-- Entering a block writes its digest only where it had none. -/
theorem updateLoop (h : Stood P c) (tokens : List Int) (blockIds : List Nat)
    (salt : Option (List κ)) (bs : List Nat) (i : Nat) (parent : BlockHash) (len : Nat) :
    Stood P (updateLoop P tokens blockIds salt bs i parent len c) := by
  induction bs generalizing i parent len c with
  | nil => exact h
  | cons b bs ih =>
    simp only [BlockAwarePrefixCache.updateLoop]
    split
    · exact h
    · apply ih
      show Standing P (if b ∈ c.pool.allocatedBlocks then _ else c).pagedCache
      split
      · next hb =>
        cases hk : (c.pool.blocks b).blockHash with
        | none =>
          obtain ⟨a, hst⟩ := h.stands
          refine h.relabel (f := fun d => { d with
            blockHash := some (indexHash P c.pool b parent (blockTokens P.blockSize tokens i) salt) })
            (fun k hreg => ?_) rfl rfl rfl rfl
          have hfound := foundUnder_of_listed hst.refines hst.sound
            ((hst.refines.entries k b).mpr hreg)
          rw [pool, hfound.hash] at hk
          cases hk
        | some k =>
          have hself : indexHash P c.pool b parent (blockTokens P.blockSize tokens i) salt = k := by
            simp only [indexHash, hb, if_true, hk]
          have hsame : Same c.pagedCache.pool (c.pagedCache.pool.modify b (fun d => { d with
              blockHash := some
                (indexHash P c.pool b parent (blockTokens P.blockSize tokens i) salt) })) :=
            Same.modify _ b _ rfl (by rw [hself]; exact hk.symm) rfl rfl
          exact h.same hsame
      · exact h

theorem storeCache (h : Stood P c) (tier : StoreTier) (r : String) (tokens : List Int)
    (args : KeyArgs κ) : Stood P (c.storeCache P tier r tokens args).2 := by
  have ho := h.openTable r
  simp only [BlockAwarePrefixCache.storeCache]
  generalize c.openTable r = o at ho
  split
  · exact h
  · split
    · exact ho
    · split
      · exact ho
      · have hloop := ho.storeLoop tier args o.1.numTokens (tokens.drop o.1.numTokens)
          ((tokens.drop o.1.numTokens).length / P.blockSize) 0 o.1
        generalize o.2.storeLoop P tier args o.1.numTokens (tokens.drop o.1.numTokens)
          ((tokens.drop o.1.numTokens).length / P.blockSize) 0 o.1 = q at hloop
        obtain ⟨outcome, d⟩ := q
        cases outcome with
        | error e => exact hloop
        | ok t => exact hloop.updateLoop tokens t.blockIds args.extraKeys t.blockIds 0 [] 0

theorem releaseCache (h : Stood P c) (r : String) : Stood P (c.releaseCache r) := by
  unfold BlockAwarePrefixCache.releaseCache
  split
  · exact h
  · exact paged (c := { c with requestTables := c.requestTables.erase r }) (.deleteBlockTable r) h
      rfl trivial

theorem clearRequestEntryNoFree (h : Stood P c) (r : String) :
    Stood P (c.clearRequestEntryNoFree r) := by
  unfold BlockAwarePrefixCache.clearRequestEntryNoFree
  split
  · exact h
  · exact paged (c := { c with requestTables := c.requestTables.erase r }) (.detachRequestTable r) h
      rfl trivial

theorem retire (h : Stood P c) (r : String) : Stood P (c.retire r) := by
  apply clearRequestEntryNoFree
  split
  · exact h
  · next t _ => exact h.paged (.releaseForEviction t.blockIds) rfl trivial

theorem forkCache (h : Stood P c) (source new : String) : Stood P (c.forkCache P source new).2 := by
  unfold BlockAwarePrefixCache.forkCache
  split
  · exact h
  · next t _ => exact h.paged (.forkBlockTable t new) rfl trivial

theorem pinOne (h : Stood P c) (expiry b : Nat) : Stood P (c.pinOne P expiry b) := by
  have hinc := h.incrementRef b
  unfold BlockAwarePrefixCache.pinOne
  split
  · exact h
  · generalize c.onPaged (fun m => m.incrementRef P b) = q at hinc
    obtain ⟨held, d⟩ := q
    cases held <;> exact hinc

theorem pinPrefix (h : Stood P c) (tokens : List Int) (ttl : Option Nat) (sweepTime pinTime : Nat) :
    Stood P (c.pinPrefix P tokens ttl sweepTime pinTime) := by
  have hall : ∀ (expiry : Nat) (bs : List Nat) (c : BlockAwarePrefixCache), Stood P c →
      Stood P (bs.foldl (BlockAwarePrefixCache.pinOne P expiry) c) := by
    intro expiry bs
    induction bs with
    | nil => exact fun c h => h
    | cons b bs ih => exact fun c h => ih _ (h.pinOne expiry b)
  have hsweep := h.expirePinnedBlocks sweepTime
  simp only [BlockAwarePrefixCache.pinPrefix]
  split
  · exact h
  · split
    · exact hsweep
    · exact hall _ _ _ hsweep

theorem unpinPrefix (h : Stood P c) (tokens : List Int) : Stood P (c.unpinPrefix P tokens) := by
  have hall : ∀ (bs : List Nat) (c : BlockAwarePrefixCache), Stood P c →
      Stood P (bs.foldl BlockAwarePrefixCache.unpinOne c) := by
    intro bs
    induction bs with
    | nil => exact fun c h => h
    | cons b bs ih =>
      intro c h
      apply ih
      unfold BlockAwarePrefixCache.unpinOne
      split
      · exact freeBlock (c := { c with pinnedBlocks := c.pinnedBlocks.erase b }) h b
      · exact h
  unfold BlockAwarePrefixCache.unpinPrefix
  split
  · exact h
  · split
    · exact h
    · exact hall _ _ h

theorem clear (h : Stood P c) : Stood P (c.clear P) := by
  have hclear : Stood P (BlockAwarePrefixCache.onPaged (fun m => m.clear P) { c with
      requestTables := Dict.empty, prefixIndex := Dict.empty, blockIdToHashes := Dict.empty }).2 :=
    paged (c := { c with
      requestTables := Dict.empty, prefixIndex := Dict.empty, blockIdToHashes := Dict.empty }) .clear h
      rfl trivial
  exact hclear.exec .resetStats trivial

end Stood

/-- A call by others on the manager is a well-formed one. -/
def Sane (c : BlockAwarePrefixCache) : Call κ → Prop
  | .paged op => op.WellFormed c.pagedCache
  | _ => True

theorem init_stood (h : Manager.init P = .ok m) : Stood P (BlockAwarePrefixCache.init m) := by
  obtain ⟨hst, hpos⟩ := stands_init h
  exact ⟨hpos, _, hst.refines, hst.sound, hst.settled⟩

theorem step_stood (h : Stood P c) {call : Call κ} (hok : Sane c call) : Stood P (step P c call) := by
  cases call with
  | storeCache tier r tokens args => exact h.storeCache tier r tokens args
  | fetchCache ssd now r tokens args => exact h.fetchCache ssd now r tokens args
  | releaseCache r => exact h.releaseCache r
  | clearRequestEntry r => exact h.releaseCache r
  | clearRequestEntryNoFree r => exact h.clearRequestEntryNoFree r
  | retire r => exact h.retire r
  | forkCache source new => exact h.forkCache source new
  | pinPrefix tokens ttl sweepTime pinTime => exact h.pinPrefix tokens ttl sweepTime pinTime
  | unpinPrefix tokens => exact h.unpinPrefix tokens
  | expirePinnedBlocks now => exact h.expirePinnedBlocks now
  | clear => exact h.clear
  | paged op =>
    have hkept := keepTables_pagedCache c (c.lostTables op)
    exact Stood.paged op (by rw [Stood, hkept]; exact h) rfl (by rw [hkept]; exact hok)

open RadixTrie (RadixPrefixCache)
open RadixLookup (onKv_kvCache)

abbrev RadixStood (P : Params κ) (c : RadixPrefixCache) : Prop := Stood P c.kvCache

namespace RadixStood

variable {c : RadixPrefixCache}

theorem onKv {α : Type} {call : BlockAwarePrefixCache → α × BlockAwarePrefixCache}
    (h : Stood P (call c.kvCache).2) : RadixStood P (c.onKv call).2 := h

theorem claims (h : RadixStood P c) (bs : List Nat) :
    RadixStood P (bs.foldl (fun c b =>
      (c.onKv (fun k => k.onPaged (fun m => m.incrementRef P b))).2) c) := by
  induction bs generalizing c with
  | nil => exact h
  | cons b bs ih => exact ih (onKv (Stood.incrementRef h b))

theorem fetchCache (h : RadixStood P c) (r : String) (tokens : List Int) (args : KeyArgs κ) :
    RadixStood P (c.fetchCache P r tokens args).2 := by
  unfold RadixPrefixCache.fetchCache
  split
  · exact h
  · split
    · exact h
    · dsimp only
      split
      · exact h
      · exact Stood.setTable (claims (onKv (Stood.createBlockTable h r)) _) _

theorem storeCache (h : RadixStood P c) (tier : StoreTier) (r : String) (tokens : List Int)
    (args : KeyArgs κ) : RadixStood P (c.storeCache P tier r tokens args).2 := by
  have hkv : RadixStood P (c.onKv (fun k => k.storeCache P tier r tokens args)).2 :=
    onKv (Stood.storeCache h tier r tokens args)
  unfold RadixPrefixCache.storeCache
  split
  · exact h
  · generalize c.onKv (fun k => k.storeCache P tier r tokens args) = q at hkv
    obtain ⟨answer, d⟩ := q
    cases answer with
    | error e => exact hkv
    | ok found =>
      cases found with
      | none => exact hkv
      | some t =>
        dsimp only
        split
        · exact hkv
        · split
          · exact hkv
          · split <;> exact hkv

theorem clearRequestEntry (h : RadixStood P c) (r : String) : RadixStood P (c.clearRequestEntry r) :=
  onKv (Stood.paged (.deleteBlockTable r) (onKv (Stood.releaseCache h r)) rfl trivial)

theorem forkCache (h : RadixStood P c) (source new : String) :
    RadixStood P (c.forkCache P source new).2 := by
  have hkv : RadixStood P (c.onKv (fun k => k.forkCache P source new)).2 :=
    onKv (Stood.forkCache h source new)
  unfold RadixPrefixCache.forkCache
  generalize c.onKv (fun k => k.forkCache P source new) = q at hkv
  obtain ⟨answer, d⟩ := q
  cases answer <;> exact hkv

end RadixStood

/-- A call by others on the manager is a well-formed one. -/
def RadixSane (c : RadixPrefixCache) : RadixTrie.Call κ → Prop
  | .paged op => op.WellFormed c.kvCache.pagedCache
  | _ => True

theorem init_radixStood (h : Manager.init P = .ok m) : RadixStood P (RadixPrefixCache.init m) := by
  obtain ⟨hst, hpos⟩ := stands_init h
  exact ⟨hpos, _, hst.refines, hst.sound, hst.settled⟩

theorem step_radixStood {c : RadixPrefixCache} (h : RadixStood P c) {call : RadixTrie.Call κ}
    (hok : RadixSane c call) : RadixStood P (RadixTrie.step P c call) := by
  cases call with
  | storeCache tier r tokens args => exact h.storeCache tier r tokens args
  | fetchCache r tokens args => exact h.fetchCache r tokens args
  | blockFreed b => exact h
  | releaseCache r => exact Stood.releaseCache h r
  | clearRequestEntry r => exact h.clearRequestEntry r
  | forkCache source new => exact h.forkCache source new
  | clear => exact Stood.clear h
  | rebuildFromKeys => exact h
  | paged op => exact RadixStood.onKv (Stood.paged op h rfl hok)

end FusionMlx.StandingCalls
