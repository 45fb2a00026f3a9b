import FusionMlx.Cache.PoolInvariant

/-!
# Recycled blocks

Freeing the last reference of a cached block leaves its hash on it, and the
next allocation pops the entry with `block_id` None, which matches nothing. As
long as no call frees a cached block, every block handed out is clean and
caching freshly allocated blocks makes all of them findable.
-/
namespace FusionMlx.FreshBlocks

open BlockHashing BlockHashMap BlockPool ResourceLedger PoolRefinement LookupRefinement
open FreeRefinement PagedCacheManager ManagerRuns PoolInvariant

variable {κ : Type} {P : Params κ} {m m' : Manager} {a a' : Ledger Nat BlockHash}

/-- Taking `n` references away frees the block `b` while it carries a hash. -/
def GivesUpCached (s : Pool) (b n : Nat) : Prop :=
  b ∈ s.allocatedBlocks ∧ b ≠ 0 ∧ (s.blocks b).refCount ≤ n ∧ (s.blocks b).blockHash ≠ none

/-- The call frees a block that still carries a hash. -/
def FreesCached (m : Manager) : Op κ → Prop
  | .freeBlock b => GivesUpCached m.pool b 1
  | .freeBlocksBatch bs => ∃ b ∈ bs, GivesUpCached m.pool b 1
  | .deleteBlockTable r => ∃ t, m.pool.requestTables.get? r = some t ∧
      ∃ b ∈ t.blockIds, GivesUpCached m.pool b (t.blockIds.count b)
  | _ => False

def cleanRules : Rules BlockHash := ⟨fun _ => True, (· = none), True, True, rfl⟩

theorem steady_clean : Steady cleanRules (Ledger.Clean (ν := Nat)) where
  moves := fun _ _ hs hm hc => hm.clean (fun _ => id) hs hc
  flush := fun _ hc => hc
  fresh := fun _ _ _ _ => rfl
  reset := fun _ hs _ hkey b hb =>
    hkey b ((hs.placed b).mpr (hb.imp_right Or.inr))

theorem key_none_of_not_givesUp (h : Stands P m a) {b n : Nat} (hb : b ∈ a.held) (hne : b ≠ 0)
    (hle : a.refs b ≤ n) (hno : ¬ GivesUpCached m.pool b n) : a.key b = none := by
  by_contra hk
  exact hno ⟨(h.refines.held b).mp hb, hne, h.refines.refs b ▸ hle, h.refines.key b ▸ hk⟩

theorem mayFree_clean {b : Nat} (hk : a.key b = none) : MayFree cleanRules a b :=
  ⟨hk, fun _ => trivial, fun _ _ => Or.inl trivial⟩

theorem allowed_clean (h : Stands P m a) {op : Op κ} (hwf : op.WellFormed m)
    (hno : ¬ FreesCached m op) : Allowed cleanRules P m a op := by
  cases op with
  | freeBlock b =>
    intro hb hne hle
    exact mayFree_clean (key_none_of_not_givesUp h hb hne hle hno)
  | freeBlocksBatch bs =>
    intro b hb hne hle
    exact mayFree_clean (key_none_of_not_givesUp h ((h.refines.held b).mpr (hwf.2 b hb)) hne hle
      (fun hg => hno ⟨b, hb, hg⟩))
  | deleteBlockTable r =>
    intro t ht b hb hheld hne hle
    exact mayFree_clean (key_none_of_not_givesUp h hheld hne hle
      (fun hg => hno ⟨t, ht, b, hb, hg⟩))
  | releaseForEviction bs => exact fun _ _ _ _ _ _ => trivial
  | getBlocksForGeneration r => exact ⟨trivial, Or.inl trivial⟩
  | evictLruBlocks n => exact ⟨trivial, fun _ _ _ _ => Or.inl trivial⟩
  | handleMemoryPressure n =>
    exact ⟨trivial, fun _ _ _ _ => Or.inl trivial, fun _ _ _ => Or.inl trivial⟩
  | evictBlockPermanently b => exact trivial
  | evict key => exact trivial
  | _ => exact trivial

theorem reachable_clean (h : Reachable P (fun m op => ¬ FreesCached m op) m) :
    ∃ a, Stands P m a ∧ a.Clean :=
  reachable_stands steady_clean (fun _ _ _ hst _ hwf hno => allowed_clean hst hwf hno) h

/-- From `a` to `a'` the blocks `bs` were handed out without a key. -/
structure HandedClean (a a' : Ledger Nat BlockHash) (bs : List Nat) : Prop where
  nodup : bs.Nodup
  fresh : ∀ b ∈ bs, b ∉ a.held
  held : ∀ c, c ∈ a'.held ↔ c ∈ bs ∨ c ∈ a.held
  key : ∀ b ∈ bs, a'.key b = none
  others : ∀ c ∈ a.held, a'.key c = a.key c

variable {bs : List Nat}

theorem handedClean_of_handed (hc : a.Clean) (h : Handed a a' bs) :
    HandedClean a a' bs := by
  refine ⟨h.nodup, h.fresh, h.held, ?_, fun c hm => (h.others c hm).2.1⟩
  intro b hb
  rcases h.key b hb with hk | ⟨hf, hk⟩
  · exact hk
  · exact hk.trans (hc b (Or.inl hf))

theorem HandedClean.append {c : Ledger Nat BlockHash} {cs : List Nat}
    (h : HandedClean a a' bs) (h' : HandedClean a' c cs) : HandedClean a c (bs ++ cs) := by
  have hin : ∀ b ∈ bs, b ∈ a'.held := fun b hb => (h.held b).mpr (Or.inl hb)
  have hkeep : ∀ b ∈ a.held, b ∈ a'.held := fun b hb => (h.held b).mpr (Or.inr hb)
  refine ⟨?_, ?_, ?_, ?_, ?_⟩
  · refine List.nodup_append.mpr ⟨h.nodup, h'.nodup, ?_⟩
    intro x hx y hy hxy
    subst hxy
    exact h'.fresh x hy (hin x hx)
  · intro b hb hm
    rcases List.mem_append.mp hb with hb | hb
    · exact h.fresh b hb hm
    · exact h'.fresh b hb (hkeep b hm)
  · intro x
    rw [h'.held, h.held, List.mem_append]
    tauto
  · intro b hb
    rcases List.mem_append.mp hb with hb | hb
    · exact (h'.others b (hin b hb)).trans (h.key b hb)
    · exact h'.key b hb
  · intro x hx
    exact (h'.others x (hkeep x hx)).trans (h.others x hx)

theorem allocateBlock_clean (h : Stands P m a) (hc : a.Clean) {b : Nat}
    (hb : (m.allocateBlock P).1 = .ok (some b)) :
    ∃ a', Stands P (m.allocateBlock P).2 a' ∧ a'.Clean ∧ HandedClean a a' [b] := by
  rw [allocateBlock_result] at hb
  obtain ⟨a', hr, hm, hcase⟩ := allocateBlockInternal_refines h.refines h.sound (R := cleanRules)
  rcases hcase with ⟨hnone, -⟩ | ⟨c, hc', hh⟩
  · rw [hnone] at hb
    cases hb
  · rw [hc', Except.ok.injEq, Option.some.injEq] at hb
    subst hb
    obtain ⟨p, hst⟩ := (ends_thenFlush .all (Pool.allocateBlockInternal P) m).stands hr
      (hm.sound h.sound) (hh.loose.trans h.settled)
    have hclean : a'.Clean := hm.clean (fun _ => id) h.sound hc
    have hhc := handedClean_of_handed hc hh
    exact ⟨_, hst, hclean, ⟨hhc.nodup, hhc.fresh, hhc.held, hhc.key, hhc.others⟩⟩

theorem getNewBlocks_clean (h : Stands P m a) (hc : a.Clean) {n : Nat}
    (hb : (m.getNewBlocks P n).1 = .ok bs) :
    ∃ a', Stands P (m.getNewBlocks P n).2 a' ∧ a'.Clean ∧ HandedClean a a' bs := by
  simp only [Manager.getNewBlocks, locked_eq] at hb ⊢
  obtain ⟨a', hr, hm, hl, -, hres⟩ := getNewBlocks_refines h.refines h.sound (R := cleanRules) n
  exact ⟨a', ⟨hr, hm.sound h.sound, hl.trans h.settled⟩, hm.clean (fun _ => id) h.sound hc,
    handedClean_of_handed hc (hres bs hb).2⟩

/-- Consecutive allocations handed out the blocks `bs` between `m` and `m'`. -/
inductive Allocates (P : Params κ) : Manager → List Nat → Manager → Prop
  | nil (m : Manager) : Allocates P m [] m
  | one {m m' : Manager} {b : Nat} {bs : List Nat} (hb : (m.allocateBlock P).1 = .ok (some b))
      (rest : Allocates P (m.allocateBlock P).2 bs m') : Allocates P m (b :: bs) m'
  | many {m m' : Manager} {n : Nat} {new bs : List Nat} (hn : (m.getNewBlocks P n).1 = .ok new)
      (rest : Allocates P (m.getNewBlocks P n).2 bs m') : Allocates P m (new ++ bs) m'

theorem Allocates.clean (hall : Allocates P m bs m') (h : Stands P m a)
    (hc : a.Clean) : ∃ a', Stands P m' a' ∧ HandedClean a a' bs := by
  induction hall generalizing a with
  | nil m => exact ⟨a, h, List.nodup_nil, by simp, by simp, by simp, fun _ _ => rfl⟩
  | one hb _ ih =>
    obtain ⟨a₁, h₁, hc₁, hh₁⟩ := allocateBlock_clean h hc hb
    obtain ⟨a₂, h₂, hh₂⟩ := ih h₁ hc₁
    exact ⟨a₂, h₂, hh₁.append hh₂⟩
  | many hn _ ih =>
    obtain ⟨a₁, h₁, hc₁, hh₁⟩ := getNewBlocks_clean h hc hn
    obtain ⟨a₂, h₂, hh₂⟩ := ih h₁ hc₁
    exact ⟨a₂, h₂, hh₁.append hh₂⟩

variable {blocks : List Nat}

/-- Over unhashed distinct blocks the caching loop lists each under its chain hash. -/
theorem cacheFullLoop_chain {s : Pool} (tokens : List Int)
    (salt : Option (List κ)) (n i : Nat) (h : Refines P s a) (hs : a.Sound 0)
    (hheld : ∀ b ∈ blocks, b ∈ a.held) (hnd : blocks.Nodup) (hlen : i + n = blocks.length)
    (hnone : ∀ j b, i ≤ j → blocks[j]? = some b → a.key b = none) :
    ∃ a', (Pool.cacheFullLoop P blocks tokens salt n i (parentAt P tokens (fun _ => salt) i) s).1 =
        .ok () ∧
      Refines P (Pool.cacheFullLoop P blocks tokens salt n i
        (parentAt P tokens (fun _ => salt) i) s).2 a' ∧
      a'.Sound 0 ∧ a'.loose = a.loose ∧ a.entries ⊆ a'.entries ∧
      ∀ j b, i ≤ j → blocks[j]? = some b →
        (chainAt P tokens (fun _ => salt) j, b) ∈ a'.entries := by
  induction n generalizing i s a with
  | zero =>
    refine ⟨a, rfl, h, hs, rfl, subset_rfl, fun j b hij hb => ?_⟩
    have := (List.getElem?_eq_some_iff.mp hb).1
    omega
  | succ n ih =>
    obtain ⟨b, hi⟩ : ∃ b, blocks[i]? = some b :=
      ⟨_, List.getElem?_eq_getElem (by omega : i < blocks.length)⟩
    have hb : b ∈ a.held := hheld b (List.mem_of_getElem? hi)
    have hk := hnone i b (Nat.le_refl i) hi
    have hl := not_listed_of_key_none hs hk
    have hmove : Move Rules.any 0 a (a.list (chainAt P tokens (fun _ => salt) i)
        (parentAt P tokens (fun _ => salt) i) b) := .list _ _ b hb hl
    have h₁ := h.list (k := chainAt P tokens (fun _ => salt) i)
      (p := parentAt P tokens (fun _ => salt) i) b (f := fun c => { c with
        blockHash := some (chainAt P tokens (fun _ => salt) i)
        parentHash := parentAt P tokens (fun _ => salt) i
        tokenCount := (blockTokens P.blockSize tokens i).length }) rfl rfl rfl rfl
    have hnone₁ : ∀ j c, i + 1 ≤ j → blocks[j]? = some c →
        (a.list (chainAt P tokens (fun _ => salt) i)
          (parentAt P tokens (fun _ => salt) i) b).key c = none := by
      intro j c hij hc
      have hcb : c ≠ b := by
        rintro rfl
        have : i = j := (List.getElem?_inj (by omega) hnd).mp (hi.trans hc.symm)
        omega
      simpa [Ledger.list, hcb] using hnone j c (by omega) hc
    obtain ⟨a', hok, h', hs', hl', he', hall⟩ := ih (i + 1) h₁ (hmove.sound hs) hheld (by omega)
      hnone₁
    have hstep : Pool.cacheFullLoop P blocks tokens salt (n + 1) i
        (parentAt P tokens (fun _ => salt) i) s =
        Pool.cacheFullLoop P blocks tokens salt n (i + 1) (parentAt P tokens (fun _ => salt) (i + 1))
          ((s.modify b (fun c => { c with
            blockHash := some (chainAt P tokens (fun _ => salt) i)
            parentHash := parentAt P tokens (fun _ => salt) i
            tokenCount := (blockTokens P.blockSize tokens i).length })).insertHash
              (chainAt P tokens (fun _ => salt) i) b) := by
      simp only [Pool.cacheFullLoop, hi, h.key, hk, chainAt_eq P tokens (fun _ => salt) i]
      rfl
    rw [hstep]
    refine ⟨a', hok, h', hs', hl', fun o ho => he' (Or.inr ho), fun j c hij hc => ?_⟩
    rcases Nat.eq_or_lt_of_le hij with rfl | hlt
    · rw [hi, Option.some.injEq] at hc
      subst hc
      exact he' (Or.inl rfl)
    · exact hall j c hlt hc

/-- A lookup that claims nothing matches as far as the chain hashes are listed. -/
theorem computedLoop_matches {s : Pool} (ssd : Option (BlockHash → Bool)) (tokens : List Int)
    (n N i : Nat) (restored : List Nat) (hn : n ≤ N)
    (hlisted : ∀ j, i ≤ j → j < i + n → ∃ b, s.cachedBlockHashToBlock.Registered
      (chainAt P tokens (fun _ => none) j) b) :
    ∃ bs, (Pool.computedLoop P ssd false tokens {} N i (parentAt P tokens (fun _ => none) i)
      restored s).1 = .ok bs ∧ n ≤ bs.length := by
  induction N generalizing n i restored s with
  | zero => exact ⟨[], rfl, hn⟩
  | succ N ih =>
    have hresolve : resolveBlockExtraKeys ((i + 1) * P.blockSize) ({} : KeyArgs κ) = .ok none := by
      simp [resolveBlockExtraKeys]
    have hhash := chainAt_eq P tokens (fun _ => none) i
    cases hg : s.cachedBlockHashToBlock.getBlock (chainAt P tokens (fun _ => none) i) with
    | none =>
      have hzero : n = 0 := by
        by_contra hne
        obtain ⟨b, hb⟩ := hlisted i (Nat.le_refl i) (by omega)
        obtain ⟨c, hc⟩ := BlockHashToBlockMap.getBlock_isSome hb
        rw [hg] at hc
        cases hc
      refine ⟨[], ?_, by omega⟩
      simp only [Pool.computedLoop, hresolve, Pool.lookupOrRestore, hhash, hg]
      rfl
    | some b =>
      obtain ⟨bs, hbs, hlen⟩ := ih (s := s.bump (fun t => { t with hits := t.hits + 1 }))
        (n - 1) (i + 1) restored (by omega) (fun j hij hj => hlisted j (by omega) (by omega))
      refine ⟨b :: bs, ?_, by simp only [List.length_cons]; omega⟩
      have hpar : some (chainAt P tokens (fun _ => none) i) =
        parentAt P tokens (fun _ => none) (i + 1) := rfl
      simp only [Pool.computedLoop, hresolve, Pool.lookupOrRestore, hhash, hg, hpar,
        Bool.false_eq_true, false_and, if_false]
      revert hbs
      cases Pool.computedLoop P ssd false tokens {} N (i + 1) (parentAt P tokens (fun _ => none)
        (i + 1)) restored (s.bump (fun t => { t with hits := t.hits + 1 })) with
      | mk r t =>
        rintro rfl
        rfl

/-- The blocks carry the chain hashes of `tokens`, and a lookup matches as many. -/
structure Findable (P : Params κ) (m : Manager) (tokens : List Int) (blocks : List Nat) : Prop where
  hash : ∀ i b, blocks[i]? = some b →
    (m.pool.blocks b).blockHash = some (chainAt P tokens (fun _ => none) i)
  matched : 0 < P.blockSize → ∀ ssd, ∃ bs k,
    (m.getComputedBlocks P ssd tokens {} false).1 = .ok (bs, k) ∧ blocks.length ≤ bs.length

theorem findable_of_listed (hcache : P.enableCaching = true) (h : Stands P m a) {tokens : List Int}
    (hlen : blocks.length * P.blockSize ≤ tokens.length)
    (hlisted : ∀ i b, blocks[i]? = some b → (chainAt P tokens (fun _ => none) i, b) ∈ a.entries) :
    Findable P m tokens blocks := by
  refine ⟨fun i b hb => ?_, fun hpos ssd => ?_⟩
  · exact (h.refines.key b).trans (h.sound.listed _ b (hlisted i b hb)).2
  · have hN : blocks.length ≤ tokens.length / P.blockSize := (Nat.le_div_iff_mul_le hpos).mpr hlen
    obtain ⟨bs, hbs, hle⟩ := computedLoop_matches (P := P) (s := m.pool) ssd tokens blocks.length
      (tokens.length / P.blockSize) 0 [] hN (by
        intro j _ hj
        rw [Nat.zero_add] at hj
        exact ⟨_, (h.refines.entries _ _).mp (hlisted j _ (List.getElem?_eq_getElem hj))⟩)
    refine ⟨bs, bs.length * P.blockSize, ?_, hle⟩
    have hnone : parentAt P tokens (fun _ => none) 0 = none := rfl
    rw [hnone] at hbs
    rw [(getComputedBlocks_result P m ssd tokens {} false).1, Pool.getComputedBlocks,
      if_neg (by simp [hcache, hpos.ne'])]
    revert hbs
    cases Pool.computedLoop P ssd false tokens {} (tokens.length / P.blockSize) 0 none [] m.pool with
    | mk r t =>
      rintro rfl
      rfl

/-- Caching distinct unhashed blocks makes all of them findable. -/
theorem cacheFullBlocks_findable (hcache : P.enableCaching = true) (h : Stands P m a)
    {tokens : List Int} (hheld : ∀ b ∈ blocks, b ∈ a.held)
    (hnd : blocks.Nodup) (hnone : ∀ b ∈ blocks, a.key b = none)
    (hlen : blocks.length * P.blockSize ≤ tokens.length) :
    (m.cacheFullBlocks P blocks tokens 0 blocks.length none).1 = .ok () ∧
      Findable P (m.cacheFullBlocks P blocks tokens 0 blocks.length none).2 tokens blocks := by
  have hpar : parentAt P tokens (fun _ => (none : Option (List κ))) 0 = none := rfl
  obtain ⟨a', hok, hr, hs, hl, -, hall⟩ := cacheFullLoop_chain tokens none blocks.length 0
    h.refines h.sound hheld hnd (by omega) (fun j b _ hb => hnone b (List.mem_of_getElem? hb))
  rw [hpar] at hok hr
  by_cases hz : blocks = []
  · subst hz
    have hnop : m.cacheFullBlocks P [] tokens 0 0 none = (.ok (), m) := by
      simp [Manager.cacheFullBlocks, locked_eq, Pool.cacheFullBlocks]
    rw [List.length_nil, hnop]
    exact ⟨rfl, findable_of_listed hcache h hlen (by simp)⟩
  · have hcall : m.cacheFullBlocks P blocks tokens 0 blocks.length none =
        ((Pool.cacheFullLoop P blocks tokens none blocks.length 0 none m.pool).1,
          { m with pool :=
            (Pool.cacheFullLoop P blocks tokens none blocks.length 0 none m.pool).2 }) := by
      simp [Manager.cacheFullBlocks, locked_eq, Pool.cacheFullBlocks, hcache, hz]
    rw [hcall]
    exact ⟨hok, findable_of_listed hcache ⟨hr, hs, hl.trans h.settled⟩ hlen
      (fun i b hb => hall i b (Nat.zero_le i) hb)⟩

/-- As long as no call frees a cached block, every block handed out has neither
hash nor parent, and freshly allocated blocks are all found once cached. -/
theorem recycled_blocks_clean (hcache : P.enableCaching = true)
    (h : Reachable P (fun m op => ¬ FreesCached m op) m) :
    (∀ b, (m.allocateBlock P).1 = .ok (some b) →
      ((m.allocateBlock P).2.pool.blocks b).blockHash = none ∧
        ((m.allocateBlock P).2.pool.blocks b).parentHash = none) ∧
    (∀ n bs, (m.getNewBlocks P n).1 = .ok bs → ∀ b ∈ bs,
      ((m.getNewBlocks P n).2.pool.blocks b).blockHash = none ∧
        ((m.getNewBlocks P n).2.pool.blocks b).parentHash = none) ∧
    (∀ ids m' blocks tokens, Allocates P m ids m' → blocks.Nodup → (∀ b ∈ blocks, b ∈ ids) →
      blocks.length * P.blockSize ≤ tokens.length →
      (m'.cacheFullBlocks P blocks tokens 0 blocks.length none).1 = .ok () ∧
        Findable P (m'.cacheFullBlocks P blocks tokens 0 blocks.length none).2 tokens blocks) := by
  obtain ⟨a, hst, hc⟩ := reachable_clean h
  have hfields : ∀ {m' : Manager} {a' : Ledger Nat BlockHash} {b : Nat}, Stands P m' a' →
      a'.key b = none → (m'.pool.blocks b).blockHash = none ∧
        (m'.pool.blocks b).parentHash = none := fun hst' hk =>
    ⟨(hst'.refines.key _).trans hk, (hst'.refines.parent _).trans (hst'.sound.orphanless _ hk)⟩
  refine ⟨?_, ?_, ?_⟩
  · intro b hb
    obtain ⟨a', hst', -, hh⟩ := allocateBlock_clean hst hc hb
    exact hfields hst' (hh.key b (by simp))
  · intro n bs hbs b hb
    obtain ⟨a', hst', -, hh⟩ := getNewBlocks_clean hst hc hbs
    exact hfields hst' (hh.key b hb)
  · intro ids m' blocks tokens hall hnd hsub hlen
    obtain ⟨a', hst', hh⟩ := hall.clean hst hc
    exact cacheFullBlocks_findable hcache hst' (fun b hb => (hh.held b).mpr (Or.inl (hsub b hb)))
      hnd (fun b hb => hh.key b (hsub b hb)) hlen

/-- A block evicted from the cache is clean when it is handed out again. -/
theorem recycled_blocks_clean_tiny :
    ((tinyRun 1 [.allocateBlock, .cacheFullBlocks [1] [7] 0 1 none, .releaseForEviction [1],
      .handleMemoryPressure 1]).allocateBlock (tiny 1)).1 = .ok (some 1) ∧
    (((tinyRun 1 [.allocateBlock, .cacheFullBlocks [1] [7] 0 1 none, .releaseForEviction [1],
      .handleMemoryPressure 1]).allocateBlock (tiny 1)).2.pool.blocks 1).blockHash = none := by
  have hrun := reachable_tinyRun (C := fun m op => ¬ FreesCached m op) 1
    [.allocateBlock, .cacheFullBlocks [1] [7] 0 1 none, .releaseForEviction [1],
      .handleMemoryPressure 1]
    ⟨⟨trivial, id⟩, ⟨show ∀ b ∈ [1], b ∈ _ by decide +kernel, id⟩, ⟨trivial, id⟩, ⟨trivial, id⟩,
      trivial⟩
  have halloc : ((tinyRun 1 [.allocateBlock, .cacheFullBlocks [1] [7] 0 1 none,
      .releaseForEviction [1], .handleMemoryPressure 1]).allocateBlock (tiny 1)).1 =
      .ok (some 1) := by decide +kernel
  exact ⟨halloc, ((recycled_blocks_clean rfl hrun).1 1 halloc).1⟩

/-- A cached block that is freed and handed out again keeps its old hash, and a
prompt cached in it is not found. -/
theorem recycled_block_keeps_hash :
    Reachable (tiny 1) (fun _ _ => True)
      (tinyRun 1 [.allocateBlock, .cacheFullBlocks [1] [7] 0 1 none, .freeBlock 1]) ∧
    ((tinyRun 1 [.allocateBlock, .cacheFullBlocks [1] [7] 0 1 none, .freeBlock 1]).allocateBlock
      (tiny 1)).1 = .ok (some 1) ∧
    ((tinyRun 1 [.allocateBlock, .cacheFullBlocks [1] [7] 0 1 none, .freeBlock 1,
      .allocateBlock]).pool.blocks 1).blockHash = some ((tiny 1).hash none [7] none) ∧
    ((tinyRun 1 [.allocateBlock, .cacheFullBlocks [1] [7] 0 1 none, .freeBlock 1, .allocateBlock,
      .cacheFullBlocks [1] [9] 0 1 none]).getComputedBlocks (tiny 1) none [9] {} false).1 =
        .ok ([], 0) := by
  refine ⟨reachable_tinyRun 1 _ ?_, by decide +kernel, by decide +kernel, by decide +kernel⟩
  exact ⟨⟨trivial, trivial⟩, ⟨show ∀ b ∈ [1], b ∈ _ by decide +kernel, trivial⟩,
    ⟨trivial, trivial⟩, trivial⟩

end FusionMlx.FreshBlocks
