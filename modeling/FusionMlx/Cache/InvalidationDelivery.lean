import FusionMlx.Cache.PoolInvariant

/-!
# Delivery of invalidations

Removing an entry queues its block; a public operation that flushes before it
returns tells every callback. `evict_block_permanently` and `clear` queue and
never flush, and an exception skips the flush.
-/
namespace FusionMlx.InvalidationDelivery

open BlockHashing BlockPool ResourceLedger PoolRefinement
open FreeRefinement EvictRefinement CopyRefinement PagedCacheManager ManagerRuns

variable {κ : Type} {P : Params κ} {m m' m'' : Manager} {a a' : Ledger Nat BlockHash} {s : Pool}

/-- Between `m` and `m'` every block that lost an entry was told to every
callback of `m`, and nothing is left to tell. -/
structure Delivered (m m' : Manager) : Prop where
  pending : m'.pool.pendingContentInvalidated = []
  callbacks : m.callbacks ≤ m'.callbacks
  told : ∃ new, m'.trace = m.trace ++ new ∧ ∀ k b,
    m.pool.cachedBlockHashToBlock.Registered k b → ¬ m'.pool.cachedBlockHashToBlock.Registered k b →
      ∀ c < m.callbacks, ∃ d ∈ new, d.callback = c ∧ d.blockId = b

theorem Delivered.trans (h : Delivered m m') (h' : Delivered m' m'') : Delivered m m'' := by
  obtain ⟨new, htrace, htold⟩ := h.told
  obtain ⟨new', htrace', htold'⟩ := h'.told
  refine ⟨h'.pending, h.callbacks.trans h'.callbacks, new ++ new', ?_, ?_⟩
  · rw [htrace', htrace, List.append_assoc]
  · intro k b hin hout c hc
    by_cases hmid : m'.pool.cachedBlockHashToBlock.Registered k b
    · obtain ⟨d, hd, hdc⟩ := htold' k b hmid hout c (Nat.lt_of_lt_of_le hc h.callbacks)
      exact ⟨d, List.mem_append_right _ hd, hdc⟩
    · obtain ⟨d, hd, hdc⟩ := htold k b hin hmid c hc
      exact ⟨d, List.mem_append_left _ hd, hdc⟩

theorem delivered_of_same (hpend : s.pendingContentInvalidated = [])
    (hmap : s.cachedBlockHashToBlock = m.pool.cachedBlockHashToBlock) :
    Delivered m { m with pool := s } := by
  refine ⟨hpend, Nat.le_refl _, [], (List.append_nil _).symm, fun k b hin hout => ?_⟩
  exact absurd (hmap ▸ hin) hout

theorem mem_deliveries {n c b : Nat} {l : LockHolds} {pending : List Nat} (hc : c < n)
    (hb : b ∈ pending) : (⟨c, b, l⟩ : Delivery) ∈ deliveries n l pending :=
  List.mem_flatMap.mpr ⟨b, hb, List.mem_map.mpr ⟨c, List.mem_range.mpr hc, rfl⟩⟩

/-- A flush behind a sequence of moves tells of everything the moves removed. -/
theorem delivered_flushed (h : Refines P m.pool a) (hp : m.pool.pendingContentInvalidated = [])
    (hc : 0 < m.callbacks) (hr : Refines P s a') (hm : Moves Rules.any 0 a a') :
    Delivered m ({ m with pool := s } : Manager).flushContentInvalidated := by
  obtain ⟨new, hnew, htold⟩ := hm.told
  rw [← h.pending, hp, List.nil_append, ← hr.pending] at hnew
  have hremoved : ∀ k b, m.pool.cachedBlockHashToBlock.Registered k b →
      ¬ s.cachedBlockHashToBlock.Registered k b → b ∈ new := by
    intro k b hin hout
    refine (htold k b ((h.entries k b).mpr hin)).resolve_left (fun he => hout ?_)
    exact (hr.entries k b).mp he
  simp only [Manager.flushContentInvalidated]
  split
  · next hcond =>
    have hnil : s.pendingContentInvalidated = [] := hcond.resolve_left hc.ne'
    rw [hnil] at hnew
    refine ⟨hnil, Nat.le_refl _, [], (List.append_nil _).symm, fun k b hin hout => ?_⟩
    have := hremoved k b hin hout
    rw [← hnew] at this
    cases this
  · refine ⟨rfl, Nat.le_refl _, _, rfl, fun k b hin hout c hcc => ?_⟩
    exact ⟨⟨c, b, m.holds⟩, mem_deliveries hcc (hnew ▸ hremoved k b hin hout), rfl, rfl⟩

/-- Moves that leave `pending` alone removed nothing, flushed or not. -/
theorem delivered_quiet (h : Refines P m.pool a) (hp : m.pool.pendingContentInvalidated = [])
    (he : Ends m s m') (hr : Refines P s a') (hm : Moves Rules.any 0 a a')
    (hq : a'.pending = a.pending) : Delivered m m' := by
  have hpend : s.pendingContentInvalidated = [] := by rw [hr.pending, hq, ← h.pending, hp]
  have hplain : Delivered m { m with pool := s } := by
    obtain ⟨new, hnew, htold⟩ := hm.told
    have hnil : new = [] := by simpa [hq] using hnew
    refine ⟨hpend, Nat.le_refl _, [], (List.append_nil _).symm, fun k b hin hout => ?_⟩
    rcases htold k b ((h.entries k b).mpr hin) with hm | hm
    · exact absurd ((hr.entries k b).mp hm) hout
    · rw [hnil] at hm
      cases hm
  cases he with
  | plain => exact hplain
  | flushed =>
    have hsame : ({ m with pool := s } : Manager).flushContentInvalidated = { m with pool := s } := by
      simp only [Manager.flushContentInvalidated]
      rw [if_pos (Or.inr hpend)]
    rw [hsame]
    exact hplain

/-- The flush behind a locked body runs unless the body raised. -/
theorem delivered_thenFlush {α : Type} (h : Refines P m.pool a)
    (hp : m.pool.pendingContentInvalidated = []) (hc : 0 < m.callbacks)
    (body : Pool → Except PyError α × Pool) (hr : Refines P (body m.pool).2 a')
    (hm : Moves Rules.any 0 a a') (hok : a'.pending = a.pending ∨ ∃ r, (body m.pool).1 = .ok r) :
    Delivered m (Manager.thenFlush (Manager.withLocks .all (Manager.onPool body) m)).2 := by
  rcases hok with hq | ⟨r, hok⟩
  · exact delivered_quiet h hp (ends_thenFlush .all body m) hr hm hq
  · rw [locked_eq, Manager.thenFlush, hok]
    exact delivered_flushed h hp hc hr hm

/-- `evict_block_permanently` takes the block and finds a hash on it. -/
def DropsEntry (s : Pool) (b : Nat) : Prop :=
  b < s.currentAllocatedCount ∧ (s.blocks b).refCount ≤ 0 ∧ (s.blocks b).isNull = false ∧
    (s.blocks b).blockHash ≠ none

/-- The call queues an invalidation that it does not flush. -/
def Withholds (P : Params κ) (m : Manager) : Op κ → Prop
  | .registerBlockFreedCallback => m.callbacks = 0 ∧ m.pool.pendingContentInvalidated ≠ []
  | .evictBlockPermanently b => 0 < m.callbacks ∧ DropsEntry m.pool b
  | .evict (.inl h) => 0 < m.callbacks ∧
      ∃ b, m.pool.cachedBlockHashToBlock.getBlock h = some b ∧ DropsEntry m.pool b
  | .evict (.inr b) => 0 < m.callbacks ∧ DropsEntry m.pool b
  | .clear => 0 < m.callbacks ∧ ((∃ b ∈ m.pool.allocatedBlocks, b ≠ 0) ∨
      ∃ h b, m.pool.cachedBlockHashToBlock.Registered h b)
  | .getBlocksForGeneration r => 0 < m.callbacks ∧ ∃ t, m.pool.readTable r = some t ∧
      ¬ (copiesIn m.pool t.blockIds ≤ room P m.pool ∨ m.pool.evictionCandidates = [] ∨
        Supplied P m.pool t.blockIds)
  | _ => False

theorem evictBlockPermanently_delivered (hp : m.pool.pendingContentInvalidated = []) {b : Nat}
    (hno : ¬ DropsEntry m.pool b) : Delivered m (m.evictBlockPermanently b).2 := by
  simp only [Manager.evictBlockPermanently, locked_eq, Pool.evictBlockPermanently]
  split
  · exact delivered_of_same hp rfl
  · next hc =>
    push Not at hc
    have hnone : (m.pool.blocks b).blockHash = none := by
      by_contra hk
      exact hno ⟨hc.1, hc.2.1, by simpa using hc.2.2, hk⟩
    have hdrop : m.pool.dropEntry b = m.pool := by simp only [Pool.dropEntry, hnone]
    rw [hdrop]
    refine delivered_of_same ?_ ?_ <;> simp only [Pool.requeue] <;> split <;> split <;>
      first | exact hp | rfl

theorem freeBlock_delivered (h : Stands P m a) (hp : m.pool.pendingContentInvalidated = [])
    (hc : 0 < m.callbacks) (b : Nat) : Delivered m (m.freeBlock b).2 := by
  simp only [Manager.freeBlock]
  split
  · next hb =>
    obtain ⟨-, a', freed, hok, hr, hm, -⟩ := freeBlock_refines h.refines h.sound
      ((h.refines.held b).mpr hb) (fun _ _ => mayFree_any a b)
    exact delivered_thenFlush h.refines hp hc (fun s => s.freeBlock b) hr hm (Or.inr ⟨freed, hok⟩)
  · exact delivered_of_same hp rfl

theorem freeLoop_delivered (hpos : 0 < min P.initialBlocks P.maxBlocks) (ids : List Nat)
    (h : Stands P m a) (hp : m.pool.pendingContentInvalidated = []) (hc : 0 < m.callbacks) :
    Delivered m (ids.foldl (fun m b => (m.freeBlock b).2) m) := by
  induction ids generalizing m a with
  | nil => exact delivered_of_same hp rfl
  | cons b ids ih =>
    have hd := freeBlock_delivered h hp hc b
    obtain ⟨a', h', -⟩ := exec_keeps (steady_true Rules.any) hpos h trivial (.freeBlock b) trivial
      (allowed_any P m a _)
    rw [List.foldl_cons]
    exact hd.trans (ih h' hd.pending (Nat.lt_of_lt_of_le hc hd.callbacks))

theorem deleteBlockTable_delivered (hpos : 0 < min P.initialBlocks P.maxBlocks)
    (h : Stands P m a) (hp : m.pool.pendingContentInvalidated = []) (hc : 0 < m.callbacks)
    (r : String) : Delivered m (m.deleteBlockTable r) := by
  have hst : Stands P { m with
      holds := m.holds.acquire .all, pool := (m.pool.detachRequestTable r).2 } a :=
    ⟨h.refines.same (LookupRefinement.detachRequestTable_same _ r), h.sound, h.settled⟩
  simp only [Manager.deleteBlockTable, Manager.withLocks, Manager.onPool, Pool.detachRequestTable]
  cases ht : m.pool.requestTables.get? r with
  | none => exact ⟨hp, Nat.le_refl _, [], (List.append_nil _).symm, fun _ _ hin hout =>
      absurd hin hout⟩
  | some t =>
    have hd := freeLoop_delivered hpos t.blockIds hst hp hc
    exact ⟨hd.pending, hd.callbacks, hd.told⟩

theorem clear_delivered (hpos : 0 < min P.initialBlocks P.maxBlocks) (h : Stands P m a)
    (hp : m.pool.pendingContentInvalidated = []) (hnull : ∀ b ∈ m.pool.allocatedBlocks, b = 0)
    (hempty : ∀ k b, ¬ m.pool.cachedBlockHashToBlock.Registered k b) :
    Delivered m (m.clear P).2 := by
  obtain ⟨stale, hr, hstale⟩ := clear_refines h.refines hpos
  have hnil : stale = [] := by
    rw [List.eq_nil_iff_forall_not_mem]
    intro b hb
    obtain ⟨hheld, hne⟩ := (hstale b).mp hb
    exact hne (hnull b ((h.refines.held b).mp hheld))
  simp only [Manager.clear, locked_eq]
  refine ⟨?_, Nat.le_refl _, [], (List.append_nil _).symm, fun k b hin => absurd hin (hempty k b)⟩
  rw [hr.pending, hnil, List.append_nil, ← h.refines.pending, hp]
  rfl

def silentRules : Rules BlockHash := ⟨fun _ => True, fun _ => True, True, False, trivial⟩

theorem silent_delivered (h : Stands P m a) (hp : m.pool.pendingContentInvalidated = [])
    (op : Op κ) (hwf : op.WellFormed m) (hok : Allowed silentRules P m a op) :
    Delivered m (exec P m op) ∨ op = .registerBlockFreedCallback ∨
      (∃ r, op = .deleteBlockTable r) ∨ op = .resetPrefixCache ∨ op = .clear := by
  refine (exec_moves h op hwf hok).imp_left ?_
  rintro ⟨s, a', he, hr, hm, -⟩
  exact delivered_quiet h.refines hp he hr (hm.mono silentRules.le_any) (hm.silent id)

/-- With nothing pending, a call that withholds nothing delivers what it removes. -/
theorem exec_delivered (hpos : 0 < min P.initialBlocks P.maxBlocks) (h : Stands P m a)
    (hp : m.pool.pendingContentInvalidated = []) (hc : 0 < m.callbacks) (op : Op κ)
    (hwf : op.WellFormed m) (hno : ¬ Withholds P m op) (hreset : op ≠ .resetPrefixCache) :
    Delivered m (exec P m op) := by
  cases op with
  | registerBlockFreedCallback =>
    exact ⟨hp, Nat.le_succ _, [], (List.append_nil _).symm, fun _ _ hin hout => absurd hin hout⟩
  | resetPrefixCache => exact absurd rfl hreset
  | clear =>
    refine clear_delivered hpos h hp ?_ (fun k b hr => hno ⟨hc, Or.inr ⟨k, b, hr⟩⟩)
    intro b hb
    by_contra hne
    exact hno ⟨hc, Or.inl ⟨b, hb, hne⟩⟩
  | deleteBlockTable r => exact deleteBlockTable_delivered hpos h hp hc r
  | freeBlock b => exact freeBlock_delivered h hp hc b
  | freeBlocksBatch bs =>
    obtain ⟨a', hok, hr, hm, -⟩ := freeBlocksBatch_refines h.refines h.sound (R := Rules.any) hwf.1
      (fun b hb => (h.refines.held b).mpr (hwf.2 b hb)) (fun b _ _ _ => mayFree_any a b)
    exact delivered_thenFlush h.refines hp hc (fun s => s.freeBlocksBatch bs) hr hm
      (Or.inr ⟨(), hok⟩)
  | getBlocksForGeneration r =>
    obtain ⟨a', hr, hm, -, hout⟩ := getBlocksForGeneration_refines h.refines h.sound
      (R := Rules.any) trivial r (Or.inl trivial)
    refine delivered_thenFlush h.refines hp hc (fun s => s.getBlocksForGeneration P r) hr hm
      (hout (fun t ht => ?_))
    by_contra hbad
    exact hno ⟨hc, t, ht, hbad⟩
  | evictLruBlocks n =>
    obtain ⟨a', hr, hm, -⟩ := evictLruBlocksLocked_refines h.refines h.sound (R := Rules.any)
      trivial n (fun _ _ _ _ => Or.inl trivial)
    simp only [exec, Manager.evictLruBlocks, locked_eq]
    exact delivered_flushed h.refines hp hc hr hm
  | handleMemoryPressure n =>
    obtain ⟨a', hr, hm, -⟩ := handleMemoryPressure_refines h.refines h.sound (R := Rules.any)
      trivial n (fun _ _ _ _ => Or.inl trivial) (fun _ _ _ => Or.inl trivial)
    simp only [exec, Manager.handleMemoryPressure, locked_eq]
    exact delivered_flushed h.refines hp hc hr hm
  | evictBlockPermanently b =>
    exact evictBlockPermanently_delivered hp (fun hd => hno ⟨hc, hd⟩)
  | evict key =>
    cases key with
    | inr b => exact evictBlockPermanently_delivered hp (fun hd => hno ⟨hc, hd⟩)
    | inl k =>
      simp only [exec, Manager.evict]
      cases hb : m.pool.cachedBlockHashToBlock.getBlock k with
      | none => exact delivered_of_same hp rfl
      | some b => exact evictBlockPermanently_delivered hp (fun hd => hno ⟨hc, b, hb, hd⟩)
  | releaseForEviction bs =>
    simpa using silent_delivered h hp _ hwf (fun _ _ _ _ _ _ => trivial)
  | _ => simpa using silent_delivered h hp _ hwf trivial

theorem ends_callbacks (he : Ends m s m') : m'.callbacks = m.callbacks := by
  cases he with
  | plain => rfl
  | flushed =>
    simp only [Manager.flushContentInvalidated]
    split <;> rfl

theorem freeBlock_callbacks (m : Manager) (b : Nat) : (m.freeBlock b).2.callbacks = m.callbacks := by
  simp only [Manager.freeBlock]
  split
  · exact ends_callbacks (ends_thenFlush .all (fun s => s.freeBlock b) m)
  · rfl

theorem deleteBlockTable_callbacks (m : Manager) (r : String) :
    (m.deleteBlockTable r).callbacks = m.callbacks := by
  have hloop : ∀ (ids : List Nat) (m : Manager),
      (ids.foldl (fun m b => (m.freeBlock b).2) m).callbacks = m.callbacks := by
    intro ids
    induction ids with
    | nil => exact fun m => rfl
    | cons b ids ih => exact fun m => (ih _).trans (freeBlock_callbacks m b)
  simp only [Manager.deleteBlockTable, Manager.withLocks, Manager.onPool, Pool.detachRequestTable]
  cases m.pool.requestTables.get? r with
  | none => rfl
  | some t => exact hloop t.blockIds _

theorem exec_callbacks (h : Stands P m a) (op : Op κ) (hwf : op.WellFormed m)
    (hne : op ≠ .registerBlockFreedCallback) : (exec P m op).callbacks = m.callbacks := by
  rcases exec_moves h op hwf (allowed_any P m a op) with ⟨s, a', he, -⟩ | rfl | ⟨r, rfl⟩ | rfl | rfl
  · exact ends_callbacks he
  · exact absurd rfl hne
  · exact deleteBlockTable_callbacks m r
  · simp only [exec, Manager.resetPrefixCache, locked_eq]
  · simp only [exec, Manager.clear, locked_eq]

theorem resetPrefixCache_pending (h : Stands P m a) :
    (m.resetPrefixCache P).2.pool.pendingContentInvalidated = m.pool.pendingContentInvalidated := by
  obtain ⟨a', hr, -, -, hp, -⟩ := resetPrefixCache_refines h.refines h.sound
  simp only [Manager.resetPrefixCache, locked_eq]
  rw [hr.pending, hp, h.refines.pending]

theorem reachable_nothing_pending (h : Reachable P (fun m op => ¬ Withholds P m op) m) :
    0 < min P.initialBlocks P.maxBlocks ∧ (∃ a, Stands P m a) ∧
      (m.callbacks = 0 ∨ m.pool.pendingContentInvalidated = []) := by
  refine h.invariant (I := fun m => 0 < min P.initialBlocks P.maxBlocks ∧ (∃ a, Stands P m a) ∧
      (m.callbacks = 0 ∨ m.pool.pendingContentInvalidated = [])) ?_ ?_
  · intro m hm
    have hzero : m.callbacks = 0 := by
      simp only [Manager.init] at hm
      cases hs : Pool.init P with
      | error e =>
        rw [hs] at hm
        cases hm
      | ok s =>
        rw [hs] at hm
        cases hm
        rfl
    exact ⟨(stands_init hm).2, ⟨_, (stands_init hm).1⟩, Or.inl hzero⟩
  · rintro m op - ⟨hpos, ⟨a, hst⟩, hq⟩ ⟨hwf, hno⟩
    obtain ⟨a', hst', -⟩ := exec_keeps (steady_true Rules.any) hpos hst trivial op hwf
      (allowed_any P m a op)
    refine ⟨hpos, ⟨a', hst'⟩, ?_⟩
    by_cases hreg : op = .registerBlockFreedCallback
    · subst hreg
      refine Or.inr ?_
      by_contra hp
      exact hno ⟨hq.resolve_right hp, hp⟩
    · rw [exec_callbacks hst op hwf hreg]
      by_cases hzero : m.callbacks = 0
      · exact Or.inl hzero
      · have hp := hq.resolve_left hzero
        refine Or.inr ?_
        by_cases hreset : op = .resetPrefixCache
        · subst hreset
          exact (resetPrefixCache_pending hst).trans hp
        · exact (exec_delivered hpos hst hp (by omega) op hwf hno hreset).pending

/-- As long as no call withholds an invalidation, every call delivers those of
the entries it removes to every callback and leaves none pending. -/
theorem invalidations_delivered (h : Reachable P (fun m op => ¬ Withholds P m op) m)
    (hc : 0 < m.callbacks) (op : Op κ) (hwf : op.WellFormed m) (hno : ¬ Withholds P m op)
    (hreset : op ≠ .resetPrefixCache) : Delivered m (exec P m op) := by
  obtain ⟨hpos, ⟨a, hst⟩, hq⟩ := reachable_nothing_pending h
  exact exec_delivered hpos hst (hq.resolve_left hc.ne') hc op hwf hno hreset

def watched : List (Op Int) :=
  [.registerBlockFreedCallback, .allocateBlock, .cacheFullBlocks [1] [7] 0 1 none,
    .releaseForEviction [1]]

theorem invalidations_delivered_watched :
    Delivered (tinyRun 1 watched) ((tinyRun 1 watched).handleMemoryPressure 1).2 := by
  have hrun := reachable_tinyRun (C := fun m op => ¬ Withholds (tiny 1) m op) 1 watched
    ⟨⟨trivial, fun hw => hw.2 (by decide +kernel)⟩, ⟨trivial, id⟩,
      ⟨show ∀ b ∈ [1], b ∈ _ by decide +kernel, id⟩, ⟨trivial, id⟩, trivial⟩
  exact invalidations_delivered hrun (by decide +kernel) (.handleMemoryPressure 1) trivial id
    (by simp)

/-- A permanent eviction tells nobody, and the block is handed out again. -/
theorem permanent_eviction_untold :
    Reachable (tiny 1) (fun _ _ => True) (tinyRun 1 watched) ∧
    (tinyRun 1 watched).callbacks = 1 ∧
    (tinyRun 1 watched).pool.cachedBlockHashToBlock.getBlock ((tiny 1).hash none [7] none) =
      some 1 ∧
    ((tinyRun 1 watched).evictBlockPermanently 1).2.pool.cachedBlockHashToBlock.get?
      ((tiny 1).hash none [7] none) = none ∧
    ((tinyRun 1 watched).evictBlockPermanently 1).2.trace = [] ∧
    ((tinyRun 1 watched).evictBlockPermanently 1).2.pool.pendingContentInvalidated = [1] ∧
    (((tinyRun 1 watched).evictBlockPermanently 1).2.getNewBlocks (tiny 1) 1).1 = .ok [1] ∧
    (((tinyRun 1 watched).evictBlockPermanently 1).2.getNewBlocks (tiny 1) 1).2.trace = [] := by
  refine ⟨reachable_tinyRun 1 watched ?_, by decide +kernel, by decide +kernel, by decide +kernel,
    by decide +kernel, by decide +kernel, by decide +kernel, by decide +kernel⟩
  exact ⟨⟨trivial, trivial⟩, ⟨trivial, trivial⟩, ⟨show ∀ b ∈ [1], b ∈ _ by decide +kernel, trivial⟩,
    ⟨trivial, trivial⟩, trivial⟩

end FusionMlx.InvalidationDelivery
