import FusionMlx.Cache.CopyRefinement
import FusionMlx.Cache.PagedCacheManager
import FusionMlx.Support.Runs

/-!
# Runs of the paged cache manager

One call of a public operation is a sequence of ledger moves followed, for some
operations, by a flush. An invariant of the moves therefore holds in every
state a run of well-formed calls reaches.
-/
namespace FusionMlx.ManagerRuns

open BlockHashing FreeBlockQueue BlockPool ResourceLedger PoolRefinement
open FreeRefinement LookupRefinement EvictRefinement CopyRefinement PagedCacheManager Runs
open ResourceLedger.Ledger (Faded Orderly)

variable {κ : Type} {P : Params κ} {R : Rules BlockHash}
variable {m : Manager} {a a' : Ledger Nat BlockHash}

/-- The manager stands for the ledger `a`, which is sound with nothing in transit. -/
structure Stands (P : Params κ) (m : Manager) (a : Ledger Nat BlockHash) : Prop where
  refines : Refines P m.pool a
  sound : a.Sound 0
  settled : a.loose = ∅

/-- What an operation may do under the rules `R`, in the state it is called in. -/
def Allowed (R : Rules BlockHash) (P : Params κ) (m : Manager) (a : Ledger Nat BlockHash) :
    Op κ → Prop
  | .freeBlock b => b ∈ a.held → b ≠ 0 → a.refs b ≤ 1 → MayFree R a b
  | .freeBlocksBatch bs => ∀ b ∈ bs, b ≠ 0 → a.refs b ≤ 1 → MayFree R a b
  | .deleteBlockTable r => ∀ t, m.pool.requestTables.get? r = some t → ∀ b ∈ t.blockIds,
      b ∈ a.held → b ≠ 0 → a.refs b ≤ t.blockIds.count b → MayFree R a b
  | .releaseForEviction bs => ∀ b ∈ bs, b ∈ a.held → b ≠ 0 → 0 < a.refs b →
      a.refs b ≤ bs.count b → R.rest (a.key b)
  | .getBlocksForGeneration r => R.notify ∧ (R.orphan ∨
      ∀ t, m.pool.readTable r = some t → Copyable P m.pool t.blockIds)
  | .evictLruBlocks n => R.notify ∧ ∀ b ∈ a.free.take n.toNat, ∀ k, a.key b = some k →
      R.orphan ∨ a.NoOrphans k
  | .handleMemoryPressure n => R.notify ∧
      (∀ b ∈ a.free.take (n - a.free.length).toNat, ∀ k, a.key b = some k →
        R.orphan ∨ a.NoOrphans k) ∧
      ∀ a₁, Refines P (m.pool.evictLruBlocksLocked (n - a.free.length)).2 a₁ → Faded a a₁ →
        R.orphan ∨ a₁.Orderly ((m.pool.evictLruBlocksLocked
          (n - a.free.length)).2.evictionCandidates.take (n - a.free.length).toNat)
  | .evictBlockPermanently _ => R.notify
  | .evict _ => R.notify
  | _ => True

theorem allowed_any (P : Params κ) (m : Manager) (a : Ledger Nat BlockHash) (op : Op κ) :
    Allowed Rules.any P m a op := by
  cases op with
  | freeBlock b => exact fun _ _ _ => mayFree_any a b
  | freeBlocksBatch bs => exact fun b _ _ _ => mayFree_any a b
  | deleteBlockTable r => exact fun _ _ b _ _ _ _ => mayFree_any a b
  | releaseForEviction bs => exact fun _ _ _ _ _ _ => trivial
  | getBlocksForGeneration r => exact ⟨trivial, Or.inl trivial⟩
  | evictLruBlocks n => exact ⟨trivial, fun _ _ _ _ => Or.inl trivial⟩
  | handleMemoryPressure n =>
    exact ⟨trivial, fun _ _ _ _ => Or.inl trivial, fun _ _ _ => Or.inl trivial⟩
  | evictBlockPermanently b => exact trivial
  | evict k => exact trivial
  | _ => exact trivial

/-- A call ends with the pool its body left, flushed or not. -/
inductive Ends (m : Manager) (s : Pool) : Manager → Prop
  | plain : Ends m s { m with pool := s }
  | flushed : Ends m s ({ m with pool := s } : Manager).flushContentInvalidated

theorem locked_eq {α : Type} (l : LockHolds) (body : Pool → α × Pool) (m : Manager) :
    Manager.withLocks l (Manager.onPool body) m =
      ((body m.pool).1, { m with pool := (body m.pool).2 }) := by
  simp [Manager.withLocks, Manager.onPool]

theorem ends_locked {α : Type} (l : LockHolds) (body : Pool → α × Pool) (m : Manager) :
    Ends m (body m.pool).2 (Manager.withLocks l (Manager.onPool body) m).2 := by
  rw [locked_eq]
  exact .plain

theorem ends_thenFlush {α : Type} (l : LockHolds) (body : Pool → Except PyError α × Pool)
    (m : Manager) :
    Ends m (body m.pool).2 (Manager.thenFlush (Manager.withLocks l (Manager.onPool body) m)).2 := by
  rw [locked_eq, Manager.thenFlush]
  cases (body m.pool).1 with
  | ok _ => exact .flushed
  | error _ => exact .plain

theorem ends_flush {α : Type} (l : LockHolds) (body : Pool → α × Pool) (m : Manager) :
    Ends m (body m.pool).2
      (Manager.withLocks l (Manager.onPool body) m).2.flushContentInvalidated := by
  rw [locked_eq]
  exact .flushed

/-- An invariant of sound ledgers that the moves under `R`, a flush and a fresh start keep. -/
structure Steady (R : Rules BlockHash) (I : Ledger Nat BlockHash → Prop) : Prop where
  moves : ∀ a a', a.Sound 0 → Moves R 0 a a' → I a → I a'
  flush : ∀ a, I a → I { a with pending := [] }
  fresh : ∀ n pending, I (freshLedger n pending)
  reset : ∀ a, a.Sound 0 → (∀ b ∈ a.held, b = 0) → (∀ b ∈ a.made, a.key b = none) → I a

theorem steady_true (R : Rules BlockHash) : Steady R (fun _ => True) :=
  ⟨fun _ _ _ _ _ => trivial, fun _ _ => trivial, fun _ _ => trivial, fun _ _ _ _ => trivial⟩

theorem stands_flush (h : Stands P m a) :
    Stands P m.flushContentInvalidated a ∨
      Stands P m.flushContentInvalidated { a with pending := [] } := by
  simp only [Manager.flushContentInvalidated]
  split
  · exact Or.inl h
  · exact Or.inr ⟨{ h.refines with pending := rfl }, { h.sound with }, h.settled⟩

theorem Ends.stands {m' : Manager} {s : Pool} (he : Ends m s m') (hr : Refines P s a)
    (hs : a.Sound 0) (hl : a.loose = ∅) : ∃ pending, Stands P m' { a with pending := pending } := by
  have hst : Stands P { m with pool := s } a := ⟨hr, hs, hl⟩
  cases he with
  | plain => exact ⟨a.pending, hst⟩
  | flushed =>
    rcases stands_flush hst with h | h
    · exact ⟨a.pending, h⟩
    · exact ⟨[], h⟩

variable {I : Ledger Nat BlockHash → Prop}

theorem Ends.keeps (hI : Steady R I) {m' : Manager} {s : Pool}
    (he : Ends m s m') (hr : Refines P s a) (hs : a.Sound 0) (hl : a.loose = ∅) (hi : I a) :
    ∃ a', Stands P m' a' ∧ I a' := by
  have hst : Stands P { m with pool := s } a := ⟨hr, hs, hl⟩
  cases he with
  | plain => exact ⟨a, hst, hi⟩
  | flushed =>
    rcases stands_flush hst with h | h
    · exact ⟨a, h, hi⟩
    · exact ⟨_, h, hI.flush a hi⟩

/-- The ledger moves of every call but the four that are not a single body. -/
theorem exec_moves (h : Stands P m a) (op : Op κ) (hwf : op.WellFormed m)
    (hok : Allowed R P m a op) :
    (∃ s a', Ends m s (exec P m op) ∧ Refines P s a' ∧ Moves R 0 a a' ∧ a'.loose = a.loose) ∨
      op = .registerBlockFreedCallback ∨ (∃ r, op = .deleteBlockTable r) ∨
        op = .resetPrefixCache ∨ op = .clear := by
  obtain ⟨hr, hs, hl⟩ := h
  have hsame : ∀ s, Same m.pool s → ∃ a', Refines P s a' ∧ Moves R 0 a a' ∧ a'.loose = a.loose :=
    fun s hsm => ⟨a, hr.same hsm, .refl, rfl⟩
  -- a body that the lemma `X` describes, followed by the way the operation ends
  have hend : ∀ {s : Pool} {m' : Manager}, Ends m s m' →
      (∃ a', Refines P s a' ∧ Moves R 0 a a' ∧ a'.loose = a.loose) →
      (∃ s a', Ends m s m' ∧ Refines P s a' ∧ Moves R 0 a a' ∧ a'.loose = a.loose) :=
    fun he ⟨a', h₁, h₂, h₃⟩ => ⟨_, a', he, h₁, h₂, h₃⟩
  have hcomputed : ∀ ssd ts args claim,
      ∃ s a', Ends m s (m.getComputedBlocks P ssd ts args claim).2 ∧ Refines P s a' ∧
        Moves R 0 a a' ∧ a'.loose = a.loose := by
    intro ssd ts args claim
    obtain ⟨a', h₁, h₂, h₃, -⟩ := getComputedBlocks_refines hr hs (R := R) ssd ts args claim
    simp only [Manager.getComputedBlocks]
    split
    · exact ⟨m.pool, a, .plain, hr, .refl, rfl⟩
    · exact hend (ends_thenFlush .all (fun s => s.getComputedBlocks P ssd ts args claim) m)
        ⟨a', h₁, h₂, h₃.loose⟩
  have hnew : ∀ n, ∃ s a', Ends m s (m.getNewBlocks P n).2 ∧ Refines P s a' ∧ Moves R 0 a a' ∧
      a'.loose = a.loose := by
    intro n
    obtain ⟨a', h₁, h₂, h₃, -⟩ := getNewBlocks_refines hr hs (R := R) n
    exact hend (ends_locked .all (fun s => s.getNewBlocks P n) m) ⟨a', h₁, h₂, h₃⟩
  have hperm : R.notify → ∀ b, ∃ s a', Ends m s (m.evictBlockPermanently b).2 ∧ Refines P s a' ∧
      Moves R 0 a a' ∧ a'.loose = a.loose := fun hN b =>
    hend (ends_locked .all (fun s => s.evictBlockPermanently b) m)
      (evictBlockPermanently_refines hr hs hN hl b)
  cases op with
  | registerBlockFreedCallback => exact Or.inr (Or.inl rfl)
  | deleteBlockTable r => exact Or.inr (Or.inr (Or.inl ⟨r, rfl⟩))
  | resetPrefixCache => exact Or.inr (Or.inr (Or.inr (Or.inl rfl)))
  | clear => exact Or.inr (Or.inr (Or.inr (Or.inr rfl)))
  | allocateBlock =>
    obtain ⟨a', h₁, h₂, hcase⟩ := allocateBlockInternal_refines hr hs (R := R)
    refine Or.inl (hend (ends_thenFlush .all (Pool.allocateBlockInternal P) m) ⟨a', h₁, h₂, ?_⟩)
    rcases hcase with ⟨-, rfl⟩ | ⟨b, -, hh⟩
    · rfl
    · exact hh.loose
  | getNewBlocks n => exact Or.inl (hnew n)
  | allocateBlocksForTokens n => exact Or.inl (hnew _)
  | freeBlock b =>
    refine Or.inl ?_
    simp only [exec, Manager.freeBlock]
    split
    · next hb =>
      have hheld := (hr.held b).mpr hb
      obtain ⟨-, a', -, -, h₁, h₂, -, -, h₃⟩ := freeBlock_refines hr hs hheld (hok hheld)
      exact hend (ends_thenFlush .all (fun s => s.freeBlock b) m) ⟨a', h₁, h₂, h₃⟩
    · exact ⟨m.pool, a, .plain, hr, .refl, rfl⟩
  | freeBlocksBatch bs =>
    obtain ⟨a', -, h₁, h₂, h₃⟩ := freeBlocksBatch_refines hr hs hwf.1
      (fun b hb => (hr.held b).mpr (hwf.2 b hb)) hok
    exact Or.inl (hend (ends_thenFlush .all (fun s => s.freeBlocksBatch bs) m) ⟨a', h₁, h₂, h₃⟩)
  | touch bs =>
    exact Or.inl (hend (ends_locked ⟨1, 0, 1⟩ (fun s => ((), s.touch P bs)) m)
      (touch_refines hr hs hl (fun b hb => (hr.made b).mpr (hwf b hb))))
  | incrementRef b =>
    refine Or.inl (hend (ends_locked .tableOnly (fun s => s.incrementRef P b) m) ?_)
    simp only [Pool.incrementRef]
    split
    · next hb =>
      obtain ⟨h₁, h₂⟩ := addRef_refines hr hs ((hr.held b).mpr hb) (R := R)
      exact ⟨_, h₁, .single h₂, rfl⟩
    · exact hsame _ (.refl _)
  | releaseForEviction bs =>
    exact Or.inl (hend (ends_locked .tableOnly (fun s => s.releaseForEviction bs) m)
      (releaseForEviction_refines hr hs hok))
  | getCachedBlock k =>
    exact Or.inl (hend (ends_locked .mapOnly (fun s => s.getCachedBlock P k) m)
      ⟨a, (getCachedBlock_refines hr k).1, .refl, rfl⟩)
  | cacheFullBlocks bs ts nc nf k =>
    exact Or.inl (hend (ends_locked .mapOnly (fun s => s.cacheFullBlocks P bs ts nc nf k) m)
      (cacheFullBlocks_refines hr hs (fun b hb => (hr.held b).mpr (hwf b hb)) ts nc nf k))
  | getComputedBlocks ssd ts args claim => exact Or.inl (hcomputed ssd ts args claim)
  | findSharedPrefix ssd ts args => exact Or.inl (hcomputed ssd ts args false)
  | findCachedBlock ts p k =>
    exact Or.inl (hend (ends_locked .mapOnly (fun s => s.findCachedBlock P ts p k) m)
      ⟨a, (findCachedBlock_refines hr ts p k).1, .refl, rfl⟩)
  | registerBlockHash b ts p k =>
    exact Or.inl (hend (ends_locked .mapOnly (fun s => ((), s.registerBlockHash P b ts p k)) m)
      (registerBlockHash_refines hr ((hr.held b).mpr hwf.1)
        (fun k' he => hwf.2 k' ((hr.entries k' b).mp he)) ts p k))
  | store key b =>
    obtain ⟨h₁, h₂⟩ := setHash_refines hr ((hr.held b).mpr hwf.1)
      (fun k' he => hwf.2 k' ((hr.entries k' b).mp he)) key (R := R)
    exact Or.inl (hend (ends_locked .mapOnly (fun s => ((), s.store key b)) m)
      ⟨_, h₁, .single h₂, rfl⟩)
  | createBlockTable r =>
    exact Or.inl (hend (ends_locked .tableOnly (fun s => ((), s.createBlockTable r)) m)
      (hsame _ (.setTable _ _)))
  | getOrCreateBlockTable r =>
    exact Or.inl (hend (ends_locked .tableOnly (fun s => s.getOrCreateBlockTable r) m)
      (hsame _ (getOrCreateBlockTable_same _ r)))
  | detachRequestTable r =>
    exact Or.inl (hend (ends_locked .tableOnly (fun s => s.detachRequestTable r) m)
      (hsame _ (detachRequestTable_same _ r)))
  | addBlockToTable r b n =>
    exact Or.inl (hend (ends_locked .tableOnly (fun s => ((), s.addBlockToTable r b n)) m)
      (hsame _ (addBlockToTable_same _ r b n)))
  | forkBlockTable t r =>
    exact Or.inl (hend (ends_locked ⟨1, 1, 0⟩ (fun s => ((), s.forkBlockTable P t r)) m)
      (forkBlockTable_refines hr hs t r))
  | getBlocksForGeneration r =>
    obtain ⟨a', h₁, h₂, h₃, -⟩ := getBlocksForGeneration_refines hr hs hok.1 r hok.2
    exact Or.inl (hend (ends_thenFlush .all (fun s => s.getBlocksForGeneration P r) m)
      ⟨a', h₁, h₂, h₃⟩)
  | evictLruBlocks n =>
    obtain ⟨a', h₁, h₂, h₃⟩ := evictLruBlocksLocked_refines hr hs hok.1 n hok.2
    exact Or.inl (hend (ends_flush .all (fun s => s.evictLruBlocksLocked n) m)
      ⟨a', h₁, h₂, h₃.loose⟩)
  | handleMemoryPressure n =>
    obtain ⟨a', h₁, h₂, h₃, -⟩ := handleMemoryPressure_refines hr hs hok.1 n hok.2.1 hok.2.2
    exact Or.inl (hend (ends_flush .all (fun s => s.handleMemoryPressure n) m)
      ⟨a', h₁, h₂, h₃.loose⟩)
  | evictBlockPermanently b => exact Or.inl (hperm hok b)
  | evict key =>
    refine Or.inl ?_
    cases key with
    | inr b => exact hperm hok b
    | inl k =>
      simp only [exec, Manager.evict]
      split
      · exact hperm hok _
      · exact ⟨m.pool, a, .plain, hr, .refl, rfl⟩
  | getStats =>
    exact Or.inl (hend (ends_locked ⟨1, 0, 1⟩ (fun s => ((), s.getStats)) m)
      (hsame _ (show Same m.pool m.pool.getStats from .bump _ _)))
  | resetStats => exact Or.inl (hend .plain (hsame _ (.bump _ _)))
  | markBlockCold b =>
    refine Or.inl (hend (ends_locked .tableOnly (fun s => s.markBlockCold b) m) (hsame _ ?_))
    simp only [Pool.markBlockCold]
    split
    · exact .refl _
    · exact .bump m.pool (fun t => { t with evictions := t.evictions + 1 })
  | restoreBlock b =>
    refine Or.inl (hend (ends_locked .tableOnly (fun s => s.restoreBlock P b) m) (hsame _ ?_))
    simp only [Pool.restoreBlock]
    split
    · exact .touchBlock P _ b
    · exact .refl _

/-- Freeing the first of several ids leaves the others as free to go. -/
theorem freeBlock_step {b : Nat} {l : List Nat} (h : Stands P m a) (hb : b ∈ m.pool.allocatedBlocks)
    (hok : ∀ c ∈ b :: l, c ∈ a.held → c ≠ 0 → a.refs c ≤ (b :: l).count c → MayFree R a c) :
    ∃ a', Ends m (m.pool.freeBlock b).2 (m.freeBlock b).2 ∧ Refines P (m.pool.freeBlock b).2 a' ∧
      Moves R 0 a a' ∧ a'.loose = a.loose ∧ ∀ c ∈ l, c ∈ a'.held → c ≠ 0 →
        a'.refs c ≤ l.count c → MayFree R a' c := by
  have hheld := (h.refines.held b).mpr hb
  have hmay : b ≠ 0 → a.refs b ≤ 1 → MayFree R a b := by
    intro hne hle
    refine hok b (by simp) hheld hne ?_
    rw [List.count_cons_self]
    omega
  obtain ⟨a₁, a₂, freed, -, hr₂, hm₂, hf, ha₂, hl₂⟩ :=
    freeBlock_refines h.refines h.sound hheld hmay
  have hkey : a₂.key = a₁.key ∧ a₂.refs = a₁.refs ∧ a₂.held = a₁.held ∧
      a₂.entries = a₁.entries ∧ a₂.parent = a₁.parent := by
    subst ha₂
    cases freed <;> exact ⟨rfl, rfl, rfl, rfl, rfl⟩
  have hmay₂ : ∀ c, MayFree R a c → MayFree R a₂ c := by
    intro c hc
    have h₁ := hf.mayFree hc
    refine ⟨hkey.1 ▸ h₁.drop, hkey.1 ▸ h₁.told, fun k hk => ?_⟩
    refine (h₁.orphan k (hkey.1 ▸ hk)).imp_right (fun hno k' d he hp => ?_)
    rw [hkey.2.1]
    exact hno k' d (hkey.2.2.2.1 ▸ he) (hkey.2.2.2.2 ▸ hp)
  have hends : Ends m (m.pool.freeBlock b).2 (m.freeBlock b).2 := by
    simp only [Manager.freeBlock, hb, if_true]
    exact ends_thenFlush .all (fun s => s.freeBlock b) m
  refine ⟨a₂, hends, hr₂, hm₂, hl₂, fun c hc hch hne hle => ?_⟩
  rw [hkey.2.2.1, hf.held] at hch
  rw [hkey.2.1, hf.refs] at hle
  have hca : c ∈ a.held := by
    cases freed
    · exact hch
    · exact hch.1
  refine hmay₂ c (hok c (by simp [hc]) hca hne ?_)
  by_cases hcb : c = b
  · subst hcb
    rw [if_pos ⟨rfl, hne⟩] at hle
    rw [List.count_cons_self]
    omega
  · rw [if_neg (fun hx => hcb hx.1)] at hle
    rw [List.count_cons_of_ne (Ne.symm hcb)]
    exact hle

theorem freeBlock_unknown {b : Nat} (hb : b ∉ m.pool.allocatedBlocks) : (m.freeBlock b).2 = m := by
  simp only [Manager.freeBlock, hb, if_false]

theorem mayFree_tail {b : Nat} {l : List Nat} (h : Stands P m a)
    (hb : b ∉ m.pool.allocatedBlocks)
    (hok : ∀ c ∈ b :: l, c ∈ a.held → c ≠ 0 → a.refs c ≤ (b :: l).count c → MayFree R a c) :
    ∀ c ∈ l, c ∈ a.held → c ≠ 0 → a.refs c ≤ l.count c → MayFree R a c := by
  intro c hc hch hne hle
  have hcb : c ≠ b := by
    rintro rfl
    exact hb ((h.refines.held c).mp hch)
  refine hok c (by simp [hc]) hch hne ?_
  rw [List.count_cons_of_ne (Ne.symm hcb)]
  exact hle

/-- The loop of `delete_block_table`, one public `free_block` after the other. -/
theorem freeLoop_keeps (hI : Steady R I) {ids : List Nat}
    (h : Stands P m a) (hi : I a) (hok : ∀ b ∈ ids, b ∈ a.held → b ≠ 0 → a.refs b ≤ ids.count b →
      MayFree R a b) :
    ∃ a', Stands P (ids.foldl (fun m b => (m.freeBlock b).2) m) a' ∧ I a' := by
  induction ids generalizing m a with
  | nil => exact ⟨a, h, hi⟩
  | cons b ids ih =>
    rw [List.foldl_cons]
    by_cases hb : b ∈ m.pool.allocatedBlocks
    · obtain ⟨a₂, hends, hr₂, hm₂, hl₂, hok₂⟩ := freeBlock_step h hb hok
      have hi₂ := hI.moves a a₂ h.sound hm₂ hi
      have hst : Stands P { m with pool := (m.pool.freeBlock b).2 } a₂ :=
        ⟨hr₂, hm₂.sound h.sound, hl₂.trans h.settled⟩
      generalize (m.freeBlock b).2 = m' at hends ⊢
      cases hends with
      | plain => exact ih hst hi₂ hok₂
      | flushed =>
        rcases stands_flush hst with hst' | hst'
        · exact ih hst' hi₂ hok₂
        · refine ih hst' (hI.flush a₂ hi₂) ?_
          intro c hc hch hne hle
          have := hok₂ c hc hch hne hle
          exact ⟨this.drop, this.told, this.orphan⟩
    · rw [freeBlock_unknown hb]
      exact ih h hi (mayFree_tail h hb hok)

theorem deleteBlockTable_keeps (hI : Steady R I)
    (h : Stands P m a) (hi : I a) (r : String)
    (hok : Allowed R P m a (.deleteBlockTable r : Op κ)) :
    ∃ a', Stands P (m.deleteBlockTable r) a' ∧ I a' := by
  have hst : Stands P { m with
      holds := m.holds.acquire .all, pool := (m.pool.detachRequestTable r).2 } a :=
    ⟨h.refines.same (detachRequestTable_same _ r), h.sound, h.settled⟩
  simp only [Manager.deleteBlockTable, Manager.withLocks, Manager.onPool, Pool.detachRequestTable]
  cases ht : m.pool.requestTables.get? r with
  | none => exact ⟨a, ⟨hst.refines, hst.sound, hst.settled⟩, hi⟩
  | some t =>
    obtain ⟨a', h', hi'⟩ := freeLoop_keeps hI hst hi (hok t ht)
    exact ⟨a', ⟨h'.refines, h'.sound, h'.settled⟩, hi'⟩

/-- One well-formed call keeps every such invariant. -/
theorem exec_keeps (hI : Steady R I)
    (hpos : 0 < min P.initialBlocks P.maxBlocks) (h : Stands P m a) (hi : I a) (op : Op κ)
    (hwf : op.WellFormed m) (hok : Allowed R P m a op) :
    ∃ a', Stands P (exec P m op) a' ∧ I a' := by
  rcases exec_moves h op hwf hok with ⟨s, a', he, hr, hm, hl⟩ | rfl | ⟨r, rfl⟩ | rfl | rfl
  · exact he.keeps hI hr (hm.sound h.sound) (hl.trans h.settled) (hI.moves a a' h.sound hm hi)
  · exact ⟨a, ⟨h.refines, h.sound, h.settled⟩, hi⟩
  · exact deleteBlockTable_keeps hI h hi r hok
  · obtain ⟨a', hr, hs, hl, -, hcase⟩ := resetPrefixCache_refines h.refines h.sound
    refine ⟨a', ?_, ?_⟩
    · simp only [exec, Manager.resetPrefixCache, locked_eq]
      exact ⟨hr, hs, hl.trans h.settled⟩
    · rcases hcase with rfl | ⟨hheld, hkey, -, -⟩
      · exact hi
      · exact hI.reset a' hs hheld hkey
  · obtain ⟨stale, hr, -⟩ := clear_refines h.refines hpos
    refine ⟨freshLedger (min P.initialBlocks P.maxBlocks) (a.pending ++ stale), ?_,
      hI.fresh _ _⟩
    simp only [exec, Manager.clear, locked_eq]
    exact ⟨hr, freshLedger_sound hpos _, rfl⟩

/-- The states reached from construction by well-formed calls that meet `C`. -/
abbrev Reachable (P : Params κ) (C : Manager → Op κ → Prop) : Manager → Prop :=
  Reached (fun m => Manager.init P = .ok m) (fun m op => op.WellFormed m ∧ C m op) (exec P)

theorem init_pos {s : Pool} (h : Pool.init P = .ok s) : 0 < min P.initialBlocks P.maxBlocks := by
  by_contra hz
  have hz' : min P.initialBlocks P.maxBlocks = 0 := by omega
  have hpop := (FreeKVCacheBlockQueue.holds_init 0).popleft_nil
  simp only [Pool.init, hz', hpop] at h
  cases h

theorem stands_init (h : Manager.init P = .ok m) :
    Stands P m (freshLedger (min P.initialBlocks P.maxBlocks) []) ∧
      0 < min P.initialBlocks P.maxBlocks := by
  cases hs : Pool.init P with
  | error e =>
    simp only [Manager.init, hs, Except.map] at h
    cases h
  | ok s =>
    have hpos := init_pos hs
    obtain ⟨s', hs', hr⟩ := init_refines P hpos
    rw [hs, Except.ok.injEq] at hs'
    simp only [Manager.init, hs, Except.map, Except.ok.injEq] at h
    subst hs' h
    exact ⟨⟨hr, freshLedger_sound hpos [], rfl⟩, hpos⟩

variable {C : Manager → Op κ → Prop}

/-- In every reached state the invariant holds of the ledger the manager stands for. -/
theorem reachable_stands (hI : Steady R I)

    (hC : ∀ m a op, Stands P m a → I a → op.WellFormed m → C m op → Allowed R P m a op)
    (h : Reachable P C m) : ∃ a, Stands P m a ∧ I a := by
  have := h.invariant (I := fun m =>
    0 < min P.initialBlocks P.maxBlocks ∧ ∃ a, Stands P m a ∧ I a)
    (fun m hm => ⟨(stands_init hm).2, _, (stands_init hm).1, hI.fresh _ _⟩)
    (by
      rintro m op - ⟨hpos, a, hst, hi⟩ ⟨hwf, hc⟩
      exact ⟨hpos, exec_keeps hI hpos hst hi op hwf (hC m a op hst hi hwf hc)⟩)
  exact this.2

theorem init_isSome (P : Params κ) (hpos : 0 < min P.initialBlocks P.maxBlocks) :
    (Manager.init P).toOption.isSome := by
  obtain ⟨s, hs, -⟩ := init_refines P hpos
  simp only [Manager.init, hs, Except.map, Except.toOption, Option.isSome_some]

def started (P : Params κ) (hpos : 0 < min P.initialBlocks P.maxBlocks) : Manager :=
  (Manager.init P).toOption.get (init_isSome P hpos)

theorem init_started (P : Params κ) (hpos : 0 < min P.initialBlocks P.maxBlocks) :
    Manager.init P = .ok (started P hpos) := by
  obtain ⟨s, hs, -⟩ := init_refines P hpos
  simp only [started, Manager.init, hs, Except.map, Except.toOption, Option.get_some]

theorem reachable_run (hpos : 0 < min P.initialBlocks P.maxBlocks)
    {ops : List (Op κ)} (hok : AllOk (fun m op => op.WellFormed m ∧ C m op) (exec P)
      (started P hpos) ops) : Reachable P C (runList (exec P) (started P hpos) ops) := by
  have hstart : Reachable P C (started P hpos) := .start (init_started P hpos)
  exact Reached.runList hstart hok

def tiny (n : Nat) : Params Int where
  blockSize := 1
  maxBlocks := n + 1
  initialBlocks := n + 1
  sha256 := id
  repr := strInt
  clock := id

def tinyStart (n : Nat) : Manager := started (tiny n) (by simp [tiny])

def tinyRun (n : Nat) (ops : List (Op Int)) : Manager := runList (exec (tiny n)) (tinyStart n) ops

theorem reachable_tinyRun {C : Manager → Op Int → Prop} (n : Nat) (ops : List (Op Int))
    (hok : AllOk (fun m op => op.WellFormed m ∧ C m op) (exec (tiny n)) (tinyStart n) ops) :
    Reachable (tiny n) C (tinyRun n ops) :=
  reachable_run _ hok

theorem reachable_sound (h : Reachable P C m) : ∃ a, Stands P m a := by
  obtain ⟨a, hst, -⟩ := reachable_stands (steady_true Rules.any)
    (fun m a op _ _ _ _ => allowed_any P m a op) h
  exact ⟨a, hst⟩

/-- An unlisted block may be given any digest. -/
theorem Stands.relabel {a : Ledger Nat BlockHash} {b : Nat} {f : CacheBlock → CacheBlock}
    {k : BlockHash} (h : Stands P m a) (hl : ∀ k, ¬ m.pool.cachedBlockHashToBlock.Registered k b)
    (hr : (f (m.pool.blocks b)).refCount = (m.pool.blocks b).refCount)
    (hk : (f (m.pool.blocks b)).blockHash = some k)
    (hp : (f (m.pool.blocks b)).parentHash = (m.pool.blocks b).parentHash)
    (hn : (f (m.pool.blocks b)).isNull = (m.pool.blocks b).isNull) :
    ∃ a', Stands P { m with pool := m.pool.modify b f } a' := by
  have hm := h.refines.modify b f hn
  rw [hr, hk, hp, h.refines.refs, h.refines.parent, Function.update_eq_self,
    Function.update_eq_self] at hm
  refine ⟨_, hm, { h.sound with listed := ?_, orphanless := ?_ }, h.settled⟩
  · intro k' x hx
    have hxb : x ≠ b := by
      rintro rfl
      exact hl k' ((h.refines.entries k' x).mp hx)
    have := h.sound.listed k' x hx
    exact ⟨this.1, by simpa [hxb] using this.2⟩
  · intro x hx
    by_cases hxb : x = b
    · simp [hxb] at hx
    · exact h.sound.orphanless x (by simpa [hxb] using hx)

end FusionMlx.ManagerRuns
