import FusionMlx.Cache.EvictableBlocks
import FusionMlx.Cache.TieredCacheManager

/-!
# Which blocks a demotion takes

The pass counts the listed blocks that are on the cold tier and has as many
blocks evicted from the head of the free queue. These are the same blocks when
the counted ones stand at the head of the queue and nothing is chained to them.
-/
namespace FusionMlx.TieredCacheManager

open BlockHashing BlockHashMap BlockPool ResourceLedger PoolRefinement
open EvictRefinement EvictableBlocks PagedCacheManager ManagerRuns
open ResourceLedger.Ledger (Faded NoOrphans)

variable {κ : Type} {P : Params κ} {s s' s'' : Pool} {a : Ledger Nat BlockHash} {b : Nat} {ids ids' : List Nat}

structure Stripped (s : Pool) (ids : List Nat) (s' : Pool) : Prop where
  hash : ∀ c, (s'.blocks c).blockHash = if c ∈ ids then none else (s.blocks c).blockHash
  listed : ∀ h c, s'.cachedBlockHashToBlock.Registered h c ↔ s.cachedBlockHashToBlock.Registered h c

theorem Stripped.refl (s : Pool) : Stripped s [] s := ⟨fun c => by simp, fun _ _ => Iff.rfl⟩

theorem Stripped.trans (h : Stripped s ids s') (h' : Stripped s' ids' s'') : Stripped s (ids ++ ids') s'' := by
  refine ⟨fun c => ?_, fun k c => (h'.listed k c).trans (h.listed k c)⟩
  rw [h'.hash, h.hash]
  simp only [List.mem_append]
  by_cases h₁ : c ∈ ids <;> by_cases h₂ : c ∈ ids' <;> simp [h₁, h₂]

theorem stripBlock_stripped (s : Pool) (b : Nat) : Stripped s [b] (s.stripBlock b) := by
  refine ⟨fun c => ?_, fun k c => ?_⟩
  · simp only [Pool.stripBlock]
    by_cases hc : c = b
    · subst hc
      split <;> simp [Pool.modify, Pool.notifyBlockContentInvalidated, Pool.bump, Pool.delAllocated,
        CacheBlock.resetHash]
    · split <;> simp [Pool.modify, Pool.notifyBlockContentInvalidated, Pool.bump, Pool.delAllocated, hc]
  · simp only [Pool.stripBlock]
    split <;> rfl

theorem evictLruOne_stripped (h : Refines P s a) (hs : a.Sound 0) (hb : b ∈ a.free)
    (hno : ∀ k, a.key b = some k → a.NoOrphans k) : Stripped s [b] (s.evictLruOne b) := by
  cases hk : (s.blocks b).blockHash with
  | none =>
    have hstrip := stripBlock_stripped s b
    simp only [Pool.evictLruOne, hk]
    exact ⟨hstrip.hash, hstrip.listed⟩
  | some k =>
    have hstrip := stripBlock_stripped (s.popHash k none) b
    rw [evictLruOne_some h hs hb hk (hno k ((h.key b).symm.trans hk))]
    exact ⟨hstrip.hash, fun k' c => (hstrip.listed k' c).trans
      (BlockHashToBlockMap.registered_pop_none s.cachedBlockHashToBlock k k' c)⟩

theorem evictLruLoop_stripped (h : Refines P s a) (hs : a.Sound 0) (num e : Int) {bs : List Nat}
    (hb : ∀ b ∈ bs, b ∈ a.free)
    (hno : ∀ b ∈ bs.take (num - e).toNat, ∀ k, a.key b = some k → a.NoOrphans k) :
    Stripped s (bs.take (num - e).toNat) (Pool.evictLruLoop num bs e s).2 :=
  evictLruLoop_along .refl (fun h hs hb hno hrest => (evictLruOne_stripped h hs hb hno).trans hrest) h hs num e hb hno

variable {t : TieredManager} {S : Settings} {now done : Int} {maxBlocks : Nat}

def Carries (s : Pool) (h : BlockHash) (b : Nat) : Prop := (s.blocks b).blockHash = some h

def Removed (s s' : Pool) (b : Nat) : Prop := ∃ h, Carries s h b ∧ ¬ Carries s' h b

def TieredManager.reported (t : TieredManager) (maxBlocks : Nat) : List BlockHash :=
  (t.demoted maxBlocks).filterMap (fun b => (t.hot.pool.blocks b).blockHash)

/-- What leaves the hot tier was reported and is unreferenced, what only the hot
tier has stays, and the count is that of the blocks that left. -/
structure DropsNothing (t : TieredManager) (maxBlocks : Nat) (r : Nat × TieredManager) : Prop where
  verified : ∀ h b, Carries t.hot.pool h b → ¬ Carries r.2.hot.pool h b →
    h ∈ t.reported maxBlocks ∧ (t.hot.pool.blocks b).refCount = 0
  hotOnly : ∀ h, t.demoteBlock (some h) = false → ∀ b,
    (Carries t.hot.pool h b → Carries r.2.hot.pool h b) ∧
    (t.hot.pool.cachedBlockHashToBlock.Registered h b → r.2.hot.pool.cachedBlockHashToBlock.Registered h b)
  counted : ∃ gone : List Nat, gone.Nodup ∧ gone.length = r.1 ∧
    ∀ b, b ∈ gone ↔ Removed t.hot.pool r.2.hot.pool b

/-- The guards let the pass run. -/
structure Passes (t : TieredManager) (S : Settings) (now : Int) : Prop where
  cold : t.cold.isSome
  idle : t.demotionInProgress = false
  cooled : S.demotionCooldown ≤ now - t.lastDemotionTime
  full : S.underThreshold t.hot.getStats.pool.stats = false

/-- The counted blocks are the head of the free queue, and nothing is chained to them. -/
structure Aligned (t : TieredManager) (maxBlocks : Nat) : Prop where
  head : t.demoted maxBlocks = t.hot.pool.queueIds.take (t.demoted maxBlocks).length
  bare : ∀ b ∈ t.demoted maxBlocks, hasOrphans t.hot.pool b = false

theorem mem_demoted : b ∈ t.demoted maxBlocks ↔ b ∈ t.hot.pool.getEvictableBlocks (TieredManager.batch maxBlocks) ∧
    ¬ 0 < (t.hot.pool.blocks b).refCount ∧ ∃ h, Carries t.hot.pool h b ∧ t.demoteBlock (some h) = true := by
  rw [TieredManager.demoted, List.mem_filter]
  refine and_congr_right (fun _ => ?_)
  simp only [Carries]
  cases hk : (t.hot.pool.blocks b).blockHash with
  | none => simp
  | some k => simp

/-- Where the guards stop the pass nothing is removed. -/
theorem maybeDemote_stopped (done : Int) (hp : ¬ Passes t S now) :
    (t.maybeDemote P S now done).1 = 0 ∧
      (t.maybeDemote P S now done).2.hot.pool.blocks = t.hot.pool.blocks ∧
      (t.maybeDemote P S now done).2.hot.pool.cachedBlockHashToBlock = t.hot.pool.cachedBlockHashToBlock := by
  rw [TieredManager.maybeDemote]
  split
  · exact ⟨rfl, rfl, rfl⟩
  · next hcold =>
    split
    · exact ⟨rfl, rfl, rfl⟩
    · next hidle =>
      split
      · exact ⟨rfl, rfl, rfl⟩
      · next hcool =>
        dsimp only
        split
        · exact ⟨rfl, rfl, rfl⟩
        · next hfull =>
          refine absurd ⟨?_, by simpa using hidle, not_lt.1 hcool, by simpa using hfull⟩ hp
          simpa [Option.isNone_iff_eq_none, Option.isSome_iff_ne_none] using hcold

theorem evictLruBlocks_reads (m : Manager) (n : Int) :
    (m.evictLruBlocks n).2.pool.blocks = (m.pool.evictLruBlocksLocked n).2.blocks ∧
      (m.evictLruBlocks n).2.pool.cachedBlockHashToBlock =
        (m.pool.evictLruBlocksLocked n).2.cachedBlockHashToBlock := by
  simp only [Manager.evictLruBlocks, locked_eq, Manager.flushContentInvalidated]
  split <;> exact ⟨rfl, rfl⟩

theorem maybeDemote_stripped (done : Int) (h : Refines P t.hot.pool a) (hs : a.Sound 0) (hp : Passes t S now)
    (hno : ∀ b ∈ t.hot.pool.queueIds.take (t.demoted P.maxBlocks).length, hasOrphans t.hot.pool b = false) :
    (t.maybeDemote P S now done).1 = (t.demoted P.maxBlocks).length ∧
      Stripped t.hot.pool (t.hot.pool.queueIds.take (t.demoted P.maxBlocks).length)
        (t.maybeDemote P S now done).2.hot.pool := by
  have hcold : t.cold.isNone = false := by
    rw [Option.isNone_eq_false_iff]
    exact hp.cold
  have hcool : ¬ now - t.lastDemotionTime < S.demotionCooldown := not_lt.2 hp.cooled
  have hstats : Refines P t.hot.getStats.pool a := by
    simp only [Manager.getStats, locked_eq]
    exact h.bump _
  have hbare : ∀ b ∈ a.free.take ((t.demoted P.maxBlocks).length : Int).toNat, ∀ k, a.key b = some k → a.NoOrphans k := by
    rw [← queueIds_eq h hs, Int.toNat_natCast]
    exact fun b hb k hk => noOrphans_of_not_hasOrphans h (by rw [hno b hb]; simp) hk
  have hstrip := evictLruLoop_stripped hstats hs (t.demoted P.maxBlocks).length 0 (fun b (hb : b ∈ a.free) => hb)
    (by rwa [sub_zero])
  rw [sub_zero, Int.toNat_natCast, ← queueIds_eq h hs] at hstrip
  simp only [TieredManager.maybeDemote, hcold, hp.idle, hcool, hp.full, Bool.false_eq_true, if_false,
    TieredManager.doDemotion]
  have hsame : { t with hot := t.hot.getStats, demotionInProgress := true }.demoted P.maxBlocks =
    t.demoted P.maxBlocks := rfl
  rw [hsame]
  refine ⟨rfl, ?_⟩
  split
  · next hpos =>
    obtain ⟨hblocks, hmap⟩ := evictLruBlocks_reads t.hot.getStats (t.demoted P.maxBlocks).length
    have hlocked : Pool.evictLruBlocksLocked t.hot.getStats.pool (t.demoted P.maxBlocks).length =
      Pool.evictLruLoop (t.demoted P.maxBlocks).length t.hot.pool.queueIds 0 t.hot.getStats.pool := rfl
    rw [hlocked] at hblocks hmap
    refine ⟨fun c => ?_, fun k c => ?_⟩
    · rw [hblocks]
      exact hstrip.hash c
    · rw [hmap]
      exact hstrip.listed k c
  · next hzero =>
    rw [Nat.eq_zero_of_not_pos hzero, List.take_zero]
    exact ⟨(Stripped.refl t.hot.pool).hash, (Stripped.refl t.hot.pool).listed⟩

theorem getEvictableBlocks_length (s : Pool) (count : Nat) : (s.getEvictableBlocks count).length ≤ count := by
  simp only [Pool.getEvictableBlocks, List.length_append, List.length_take]
  omega

theorem getEvictableBlocks_idle {count : Nat} (hb : b ∈ s.getEvictableBlocks count) : (s.blocks b).refCount = 0 := by
  simp only [Pool.getEvictableBlocks, List.mem_append] at hb
  rcases hb with hb | hb
  · have hidle := (List.mem_filter.1 (List.mem_of_mem_take hb)).2
    simp only [Bool.and_eq_true, beq_iff_eq] at hidle
    exact hidle.2
  · have hrest := List.mem_of_mem_take hb
    rw [List.mem_insertionSort, List.mem_filter] at hrest
    simp only [Bool.and_eq_true, beq_iff_eq] at hrest
    exact hrest.2.1.2

theorem Aligned.drops (h : Refines P t.hot.pool a) (hs : a.Sound 0) (hp : Passes t S now)
    (ha : Aligned t P.maxBlocks) : DropsNothing t P.maxBlocks (t.maybeDemote P S now done) := by
  obtain ⟨hcount, hstrip⟩ := maybeDemote_stripped done h hs hp (ha.head ▸ ha.bare)
  rw [← ha.head] at hstrip
  have hgone : ∀ k b, Carries t.hot.pool k b →
      (¬ Carries (t.maybeDemote P S now done).2.hot.pool k b ↔ b ∈ t.demoted P.maxBlocks) := by
    intro k b hk
    rw [Carries, hstrip.hash]
    split
    · next hb => simp [hb]
    · next hb => exact iff_of_false (fun hno => hno hk) hb
  refine ⟨fun k b hk hno => ?_, fun k hcold b => ⟨fun hk => ?_, (hstrip.listed k b).2⟩, t.demoted P.maxBlocks, ?_,
    hcount.symm, fun b => ?_⟩
  · have hb := (hgone k b hk).1 hno
    exact ⟨List.mem_filterMap.2 ⟨b, hb, hk⟩, getEvictableBlocks_idle (mem_demoted.1 hb).1⟩
  · by_contra hno
    obtain ⟨-, -, k', hk', hcold'⟩ := mem_demoted.1 ((hgone k b hk).1 hno)
    have hsame : k = k' := Option.some.inj (hk.symm.trans hk')
    rw [hsame, hcold'] at hcold
    cases hcold
  · rw [ha.head, queueIds_eq h hs]
    exact (List.take_sublist _ _).nodup hs.freeNodup
  · constructor
    · intro hb
      obtain ⟨-, -, k, hk, -⟩ := mem_demoted.1 hb
      exact ⟨k, hk, (hgone k b hk).2 hb⟩
    · rintro ⟨k, hk, hno⟩
      exact (hgone k b hk).1 hno

/-- The counted blocks are a beginning of the queue as soon as as many at its head would be counted. -/
theorem demoted_eq_head {n : Nat} (hn : (t.demoted maxBlocks).length = n) (hlen : (t.hot.pool.queueIds.take n).length = n)
    (hall : ∀ b ∈ t.hot.pool.queueIds.take n, (t.hot.pool.blocks b).isNull = false ∧
      (t.hot.pool.blocks b).refCount = 0 ∧ ∃ h, Carries t.hot.pool h b ∧ t.demoteBlock (some h) = true) :
    t.demoted maxBlocks = t.hot.pool.queueIds.take n := by
  have hbatch : n ≤ TieredManager.batch maxBlocks := by
    rw [← hn]
    exact (List.length_filter_le _ _).trans (getEvictableBlocks_length _ _)
  obtain ⟨behind, hbehind⟩ : ∃ behind, t.hot.pool.getEvictableBlocks (TieredManager.batch maxBlocks) =
      t.hot.pool.queueIds.take n ++ behind := by
    have hidle : (t.hot.pool.queueIds.take n).filter
        (fun b => ! (t.hot.pool.blocks b).isNull && (t.hot.pool.blocks b).refCount == 0) =
          t.hot.pool.queueIds.take n :=
      List.filter_eq_self.2 (fun b hb => by simp [(hall b hb).1, (hall b hb).2.1])
    have hqueue := List.take_append_drop n t.hot.pool.queueIds
    generalize hE : t.hot.pool.queueIds.take n = head at hall hlen hidle hqueue ⊢
    simp only [Pool.getEvictableBlocks]
    rw [← hqueue, List.filter_append, hidle, List.take_append, List.take_of_length_le (hlen.trans_le hbatch),
      List.append_assoc]
    exact ⟨_, rfl⟩
  have hkept : (t.hot.pool.queueIds.take n).filter (fun b =>
      (t.hot.pool.blocks b).blockHash.isSome && ! (0 < (t.hot.pool.blocks b).refCount) &&
        t.demoteBlock (t.hot.pool.blocks b).blockHash) = t.hot.pool.queueIds.take n := by
    refine List.filter_eq_self.2 (fun b hb => ?_)
    obtain ⟨-, hzero, k, hk, hcold⟩ := hall b hb
    rw [Carries] at hk
    simp [hk, hzero, hcold]
  have hsplit := hn
  rw [TieredManager.demoted, hbehind, List.filter_append, hkept, List.length_append, hlen,
    Nat.add_eq_left, List.length_eq_zero_iff] at hsplit
  rw [TieredManager.demoted, hbehind, List.filter_append, hkept, hsplit, List.append_nil]

/-- Where nothing is chained to the head of the queue, the pass is right only if the head is what it counted. -/
theorem DropsNothing.aligned (hd : DropsNothing t P.maxBlocks (t.maybeDemote P S now done))
    (h : Refines P t.hot.pool a) (hs : a.Sound 0) (hp : Passes t S now)
    (hno : ∀ b ∈ t.hot.pool.queueIds.take (t.demoted P.maxBlocks).length, hasOrphans t.hot.pool b = false) :
    Aligned t P.maxBlocks := by
  obtain ⟨hcount, hstrip⟩ := maybeDemote_stripped done h hs hp hno
  obtain ⟨gone, hnodup, hlength, hgone⟩ := hd.counted
  have hremoved : ∀ b ∈ gone, b ∈ t.hot.pool.queueIds.take (t.demoted P.maxBlocks).length := by
    intro b hb
    obtain ⟨k, hk, hlost⟩ := (hgone b).1 hb
    by_contra hout
    rw [Carries, hstrip.hash, if_neg hout] at hlost
    exact hlost hk
  -- as many blocks have lost their hash as were evicted, so each evicted one had a hash
  have hperm := (List.subperm_of_subset hnodup hremoved).perm_of_length_le
    ((List.length_take_le _ _).trans (hcount.symm.trans hlength.symm).le)
  have hhead : (t.hot.pool.queueIds.take (t.demoted P.maxBlocks).length).length = (t.demoted P.maxBlocks).length :=
    hperm.length_eq.symm.trans (hlength.trans hcount)
  have heq := demoted_eq_head rfl hhead (fun b hb => ?_)
  · exact ⟨heq, fun b hb => hno b (heq ▸ hb)⟩
  · obtain ⟨k, hk, hlost⟩ := (hgone b).1 (hperm.mem_iff.2 hb)
    obtain ⟨hreported, hzero⟩ := hd.verified k b hk hlost
    obtain ⟨c, hc, hkc⟩ := List.mem_filterMap.1 hreported
    obtain ⟨-, -, k', hk', hcold⟩ := mem_demoted.1 hc
    have hsame : k' = k := Option.some.inj (hk'.symm.trans hkc)
    refine ⟨?_, hzero, k, hk, hsame ▸ hcold⟩
    have hfree := List.mem_of_mem_take hb
    rw [queueIds_eq h hs] at hfree
    rw [Bool.eq_false_iff, ne_eq, h.null]
    rintro rfl
    exact hs.freeHeld 0 hfree hs.rootHeld

/-- A demotion drops nothing unsaved if the counted blocks are the head of the queue with nothing chained to
them; otherwise it does so at most by clearing orphans of the head. -/
theorem demotion_drops_nothing (hr : Reachable P (fun _ _ => True) t.hot) :
    ((Passes t S now → Aligned t P.maxBlocks) →
      DropsNothing t P.maxBlocks (t.maybeDemote P S now done)) ∧
    (DropsNothing t P.maxBlocks (t.maybeDemote P S now done) → (Passes t S now → Aligned t P.maxBlocks) ∨
      ∃ b ∈ t.hot.pool.queueIds.take (t.demoted P.maxBlocks).length, hasOrphans t.hot.pool b = true) := by
  obtain ⟨a, h, hs, -⟩ := reachable_sound hr
  constructor
  · intro ha
    by_cases hp : Passes t S now
    · exact (ha hp).drops h hs hp
    · obtain ⟨hcount, hblocks, hmap⟩ := maybeDemote_stopped (P := P) done hp
      have hsame : ∀ k b, Carries (t.maybeDemote P S now done).2.hot.pool k b ↔ Carries t.hot.pool k b := by
        intro k b
        rw [Carries, hblocks, Carries]
      refine ⟨fun k b hk hno => absurd ((hsame k b).2 hk) hno, fun k _ b => ⟨(hsame k b).2, by rw [hmap]; exact id⟩,
        [], List.nodup_nil, hcount.symm, fun b => ?_⟩
      simp only [List.not_mem_nil, false_iff, Removed]
      rintro ⟨k, hk, hno⟩
      exact hno ((hsame k b).2 hk)
  · intro hd
    by_cases hno : ∃ b ∈ t.hot.pool.queueIds.take (t.demoted P.maxBlocks).length, hasOrphans t.hot.pool b = true
    · exact .inr hno
    · refine .inl (fun hp => hd.aligned h hs hp (fun b hb => ?_))
      rw [Bool.eq_false_iff]
      exact fun hor => hno ⟨b, hb, hor⟩

def quarter : Settings where
  underThreshold := fun u => u.allocatedBlocks * 4 < u.totalBlocks
  demotionCooldown := 2

def freedTwo (first second : Nat) : Manager :=
  tinyRun 2 [.getNewBlocks 2, .cacheFullBlocks [1, 2] [7, 8] 0 2 none, .freeBlock first, .freeBlock second]

theorem reachable_freedTwo (first second : Nat) :
    Reachable (tiny 2) (fun _ _ => True) (freedTwo first second) :=
  reachable_tinyRun 2 _ ⟨⟨trivial, trivial⟩, ⟨show ∀ b ∈ [1, 2], b ∈ _ by decide +kernel, trivial⟩,
    ⟨trivial, trivial⟩, ⟨trivial, trivial⟩, trivial⟩

theorem demotion_drops_nothing_two :
    DropsNothing ⟨freedTwo 2 1, some (fun _ => true), false, 0, 0⟩ 3
        (TieredManager.maybeDemote ⟨freedTwo 2 1, some (fun _ => true), false, 0, 0⟩ (tiny 2) quarter 5 6) ∧
      (TieredManager.maybeDemote ⟨freedTwo 2 1, some (fun _ => true), false, 0, 0⟩ (tiny 2) quarter 5 6).1 = 2 := by
  have hdrop := @demotion_drops_nothing Int (tiny 2) ⟨freedTwo 2 1, some (fun _ => true), false, 0, 0⟩ quarter 5 6
    (reachable_freedTwo 2 1)
  exact ⟨hdrop.1 (fun _ => ⟨by decide +kernel, by decide +kernel⟩), by decide +kernel⟩

/-- Block 2 is on the cold tier and block 1 leaves. -/
theorem demotion_drops_unsaved :
    ¬ ∀ (t : TieredManager) (S : Settings) (now done : Int), Reachable (tiny 2) (fun _ _ => True) t.hot →
      DropsNothing t 3 (t.maybeDemote (tiny 2) S now done) := by
  intro hall
  have hdrop := hall ⟨freedTwo 1 2, some (fun h => h ≠ (tiny 2).hash none [7] none), false, 0, 0⟩ quarter 5 6
    (reachable_freedTwo 1 2)
  have hkept := (hdrop.hotOnly ((tiny 2).hash none [7] none) (by decide +kernel) 1).1 (by
    rw [Carries]
    decide +kernel)
  rw [Carries] at hkept
  revert hkept
  decide +kernel

end FusionMlx.TieredCacheManager
